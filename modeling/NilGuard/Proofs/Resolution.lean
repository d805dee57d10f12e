import NilGuard.Proofs.Numbering

/-!
What resolution makes of a tree. `Makes` says of a part of the resolver that it carries out the acts
of a list. Every function of the resolver carries out the acts of what it is given
(`resolveExpr_makes` and its companions), and the tree it gives is numbered as the acts count and
has its identifiers in the order of the words (`Node.Built`).
-/

namespace NilGuard.Go

open Resolver
open Surface (Word)

namespace Resolver

/-! ### What parts of the resolver make -/

variable {src : List Char} {n : Nat} {as as' : List Act}

theorem size_acts (r : Resolver) (as : List Act) :
    (r.steps (Act.allEvents as)).idents.size = r.idents.size + (Act.made as).length := by
  rw [size_steps, Act.length_made]
  rfl

/-- From `n` identifiers on a part of the resolver carries out the given acts, none of them for a
name that the file declares, and what it gives is as `Q` says. -/
def Makes (src : List Char) (n : Nat) (m : Resolve α) (as : List Act) (Q : α → Prop) : Prop :=
  ∀ r : Resolver, r.source = src → r.idents.size = n →
    (m r).2 = r.steps (Act.allEvents as) ∧ (∀ e ∈ Act.allEvents as, e.isUse = false) ∧ Q (m r).1

namespace Makes

theorem pure {a : α} {Q : α → Prop} (h : Q a) : Makes src n (pure a) [] Q := by
  rintro r - rfl
  exact ⟨by simp [Pure.pure, StateT.pure], by simp, h⟩

/-- One part after another does the acts of the first and then those of the second, and numbers go
on from there. -/
theorem bind {m : Resolve α} {k : α → Resolve β} {Q : α → Prop} {R : β → Prop}
    (hm : Makes src n m as Q) (hk : ∀ a, Q a → Makes src (n + (Act.made as).length) (k a) as' R) :
    Makes src n (m >>= k) (as ++ as') R := by
  rintro r hr rfl
  obtain ⟨hes, huse, hQ⟩ := hm r hr rfl
  obtain ⟨hes', huse', hR⟩ :=
    hk _ hQ (r.steps (Act.allEvents as)) (by rw [source_steps, hr]) (size_acts r as)
  rw [Act.allEvents_append]
  refine ⟨?_, List.forall_mem_append.mpr ⟨huse, huse'⟩, ?_⟩
  · rw [steps_append, ← hes', ← hes]; rfl
  · rw [← hes] at hR; exact hR

/-- A last step that only gives a result. -/
theorem bind_pure {m : Resolve α} {f : α → β} {Q : α → Prop} {R : β → Prop}
    (hm : Makes src n m as Q) (hf : ∀ a, Q a → R (f a)) :
    Makes src n (m >>= fun a => Pure.pure (f a)) as R := by
  simpa using hm.bind fun a ha => .pure (hf a ha)

/-- Of two parts of the resolver with acts and words of their own the one that a condition says. -/
theorem cond {c : Prop} [Decidable c] {m m' : Resolve α} {ws ws' : List Word}
    {Q : List Act → List Word → α → Prop} (hm : c → Makes src n m as (Q as ws))
    (hm' : ¬ c → Makes src n m' as' (Q as' ws')) :
    Makes src n (if c then m else m') (if c then as else as')
      (Q (if c then as else as') (if c then ws else ws')) := by
  split
  · exact hm ‹_›
  · exact hm' ‹_›

theorem imp {m : Resolve α} {Q R : α → Prop} (hm : Makes src n m as Q) (h : ∀ a, Q a → R a) :
    Makes src n m as R := by
  intro r hr hn
  obtain ⟨hes, huse, hQ⟩ := hm r hr hn
  exact ⟨hes, huse, h _ hQ⟩

/-- What is resolved in a scope of its own does its acts inside that scope. -/
theorem inScope {m : Resolve α} {Q : α → Prop} (hm : Makes src n m as Q) :
    Makes src n (inScope m) [.scope as] Q := by
  intro r hr hn
  obtain ⟨hes, huse, hQ⟩ := hm (r.step .enter) hr hn
  have hevents : Act.allEvents [.scope as] = .enter :: (Act.allEvents as ++ [.leave]) := by
    simp [Act.events]
  rw [hevents]
  refine ⟨?_, ?_, hQ⟩
  · rw [steps_cons, steps_append, ← hes]; rfl
  · simpa [Event.isUse, or_imp, forall_and] using huse

/-- One name takes the next number. -/
theorem ident {m : Resolve IdentId} {a : Act} {e : Event} (he : a.events = [e])
    (huse : e.isUse = false) (hfst : ∀ r : Resolver, (m r).1 = r.idents.size)
    (hsnd : ∀ r : Resolver, r.source = src → (m r).2 = r.step e) :
    Makes src n m [a] fun i : Nat => i = n := by
  rintro r hr rfl
  refine ⟨?_, ?_, hfst r⟩
  · simpa [he] using hsnd r hr
  · simpa [he] using huse

end Makes

theorem fst_declareIdent (kind : BindingKind) (name : Name) (r : Resolver) :
    (declareIdent kind name r).1 = r.idents.size := by
  rw [declareIdent_eq]

theorem fst_useIdent (name : Name) (r : Resolver) : (useIdent name r).1 = r.idents.size := by
  rw [useIdent_eq]

theorem fst_exprIdent (name : Name) (r : Resolver) : (exprIdent name r).1 = r.idents.size := by
  rw [exprIdent_eq]
  split
  · rfl
  · exact fst_useIdent name r

theorem fst_defineIdent (name : Name) (r : Resolver) : (defineIdent name r).1 = r.idents.size := by
  rw [defineIdent_eq]
  split
  · rfl
  · split
    · rfl
    · exact fst_declareIdent .var name r

/-- Each way to take a name makes the next identifier, with the act that the way stands for. -/
theorem exprIdent_makes (name : Name) :
    Makes src n (exprIdent name) [.value name] fun i : Nat => i = n :=
  .ident (e := .value name) (by rw [Act.events]) rfl (fst_exprIdent name) fun _ _ => rfl

theorem newIdent_makes {name : Name} (h : name.text = nilName) :
    Makes src n (newIdent name none) [.value name] fun i : Nat => i = n :=
  .ident (e := .value name) (by rw [Act.events]) rfl (fun _ => rfl) fun r _ => by
    rw [step, exprIdent_eq, if_pos h]

theorem defineIdent_makes (name : Name) :
    Makes src n (defineIdent name) [.target name] fun i : Nat => i = n :=
  .ident (e := .target name) (by rw [Act.events]) rfl (fst_defineIdent name) fun _ _ => rfl

theorem declareIdent_makes (kind : BindingKind) (name : Name) :
    Makes src n (declareIdent kind name) [.declare kind name] fun i : Nat => i = n :=
  .ident (e := .declare kind name) (by rw [Act.events]) rfl (fst_declareIdent kind name)
    fun _ _ => rfl

/-- Names that are declared one after the other get numbers one after the other. -/
theorem declareAll_makes (kind : BindingKind) (names : List Name) :
    Makes src n (declareAll kind names) (names.map (.declare kind))
      fun is => is = List.range' n (Act.made (names.map (.declare kind))).length := by
  induction names generalizing n with
  | nil => exact .pure (by simp)
  | cons name names ih =>
    rw [declareAll]
    refine Makes.bind (declareIdent_makes kind name) fun i hi => .bind_pure ih fun is his => ?_
    simp [Act.length_made, hi, his, List.range'_succ, Surface.declaredWords]

/-- The source text of a span. -/
def spanText (source : List Char) (span : Span) : String :=
  String.ofList ((Text.slice source span.start span.stop).getD [])

theorem textOf_makes (span : Span) : Makes src n (textOf span) [] fun _ => True := by
  rintro r - rfl
  exact ⟨by simp; rfl, by simp, trivial⟩

end Resolver

/-! ### Trees -/

namespace Resolver

open Node (Numbered Spells Built)
open Surface (exprActs exprsActs targetsActs targetsActs_cons rangeAct blockActs stmtsActs
  optStmtActs optExprActs specsActs clausesActs stmtActs)
open Surface (exprWords exprsWords targetsWords targetsWords_cons blockWords stmtsWords
  optStmtWords optExprWords specsWords clausesWords stmtWords roleOf)

theorem exprIdent_built (name : Name) (span : Span) :
    Makes src n (do return Expr.ident span (← exprIdent name)) [.value name]
      fun e => Built n [.value name] [.expr e] [⟨.value, name⟩] :=
  .bind_pure (exprIdent_makes name) fun _ hi => hi ▸ .ident (by rw [Act.events]) rfl rfl span

/-- A target is a name or any other expression. -/
theorem resolveTarget_makes {e : Surface.Expr}
    (he : Makes src n (resolveExpr e) (exprActs (spanText src) e)
      fun e' => Built n (exprActs (spanText src) e) [.expr e'] (exprWords (spanText src) e)) :
    Makes src n (resolveTarget e) (targetsActs (spanText src) .target [e])
      fun e' => Built n (targetsActs (spanText src) .target [e]) [.expr e']
        (targetsWords (spanText src) .target [e]) := by
  cases e with
  | ident name =>
    rw [resolveTarget, targetsActs, targetsActs, targetsWords, targetsWords]
    exact .bind_pure (defineIdent_makes name) fun _ hi =>
      hi ▸ .ident (by rw [Act.events]) rfl rfl name.span
  | _ => simpa only [resolveTarget, targetsActs, targetsWords, List.append_nil] using he

/-- A target of a range loop is a name or any other expression. -/
theorem resolveRangeTarget_makes {e : Surface.Expr}
    (he : Makes src n (resolveExpr e) (exprActs (spanText src) e)
      fun e' => Built n (exprActs (spanText src) e) [.expr e'] (exprWords (spanText src) e)) :
    Makes src n (resolveRangeTarget e) (targetsActs (spanText src) rangeAct [e])
      fun e' => Built n (targetsActs (spanText src) rangeAct [e]) [.expr e']
        (targetsWords (spanText src) .declared [e]) := by
  cases e with
  | ident name =>
    rw [resolveRangeTarget, targetsActs, targetsActs, targetsWords, targetsWords, rangeAct, roleOf]
    split
    · next h =>
      exact .bind_pure (newIdent_makes (by simpa using h)) fun _ hi =>
        hi ▸ .ident (by rw [Act.events]) rfl rfl name.span
    · next h =>
      refine .bind_pure (declareIdent_makes .var name) fun _ hi =>
        hi ▸ .ident (by rw [Act.events]) ?_ rfl name.span
      simpa [Event.isOperand] using h
  | _ => simpa only [resolveRangeTarget, targetsActs, targetsWords, List.append_nil] using he

theorem declareNew_makes (e : Option Surface.Expr) :
    Makes src n (declareNew e) (e.toList.map fun e => .declare .var ⟨spanText src e.span, e.span⟩)
      fun is => is.toList = List.range' n (Act.made
        (e.toList.map fun e => .declare .var ⟨spanText src e.span, e.span⟩)).length := by
  cases e with
  | none => exact .pure (by simp)
  | some e =>
    have h : Makes src n (do return some (← declareIdent .var ⟨spanText src e.span, e.span⟩))
        [.declare .var ⟨spanText src e.span, e.span⟩] fun is => is.toList = [n] :=
      .bind_pure (declareIdent_makes .var _) fun i hi => by simp [hi]
    rintro r rfl hn
    simp only [Option.toList_some, List.map_cons, List.map_nil, Act.length_made, Act.words_declare,
      Act.words_nil, List.length_singleton, List.range'_one]
    exact h r rfl hn

theorem words_declareNew (text : Span → String) (e : Option Surface.Expr) :
    Act.words (e.toList.map fun e => .declare .var ⟨text e.span, e.span⟩) =
      e.toList.map fun e => ⟨.declared, text e.span, e.span⟩ := by
  cases e <;> simp

mutual

/-- Resolving an expression does its acts and builds a tree that is numbered by them and spells its
words. -/
theorem resolveExpr_makes (e : Surface.Expr) : ∀ {n : Nat},
    Makes src n (resolveExpr e) (exprActs (spanText src) e)
      fun e' => Built n (exprActs (spanText src) e) [.expr e'] (exprWords (spanText src) e) := by
  intro n
  cases e with
  | ident name =>
    rw [resolveExpr, exprActs, exprWords]
    exact exprIdent_built name name.span
  | literal span =>
    rw [resolveExpr, exprActs]
    exact .bind_pure (textOf_makes span) fun _ _ => .expr (by simp) (.nil _ _)
  | unary span op operand =>
    rw [resolveExpr, exprActs, exprWords]
    exact .bind_pure (resolveExpr_makes operand) fun _ h => .expr (by simp) h
  | binary span op left right =>
    rw [resolveExpr, exprActs, exprWords]
    exact .bind (resolveExpr_makes left) fun _ hl =>
      .bind_pure (resolveExpr_makes right) fun _ hr =>
      .expr (by simp) (hl.append hr)
  | call span callee args =>
    rw [resolveExpr, exprActs, exprWords]
    exact .bind (resolveExpr_makes callee) fun _ hc =>
      .bind_pure (resolveExprs_makes args) fun _ ha =>
      .expr (by simp) (hc.append ha)
  | selector span operand field =>
    rw [resolveExpr, exprActs, exprWords]
    exact .bind_pure (resolveExpr_makes operand) fun _ h => .expr (by simp) h
  | paren span inner =>
    rw [resolveExpr, exprActs, exprWords]
    exact .bind_pure (resolveExpr_makes inner) fun _ h => .expr (by simp) h
  | closure span params body =>
    rw [resolveExpr, exprActs, exprWords]
    exact .inScope (.bind (declareAll_makes .param params) fun _ _ =>
      .bind_pure (resolveBody_makes body) fun _ h =>
        .expr (by simp) (.scope ((Built.nil _ _).append h)))
  | keyed span key value =>
    rw [resolveExpr, exprActs, exprWords]
    exact .bind (resolveExpr_makes key) fun _ hk => .bind_pure (resolveExpr_makes value) fun _ hv =>
      .expr (by simp) (hk.append hv)
  | group span parts =>
    rw [resolveExpr, exprActs, exprWords]
    exact .bind_pure (resolveExprs_makes parts) fun _ h => .expr (by simp) h
  | typeName name =>
    rw [resolveExpr, exprActs]
    exact .pure (.expr (by simp) (.nil _ _))
  | key name =>
    rw [resolveExpr, exprActs, exprWords, roleOf]
    split
    · exact exprIdent_built name name.span
    · exact .pure (.expr (by simp) (.nil _ _))
  | either name asType asValue =>
    rw [resolveExpr, exprActs, exprWords]
    split
    · exact resolveExpr_makes asValue
    · exact (resolveExpr_makes asType).imp fun _ h => h.more (List.sublist_cons_self _ _)

theorem resolveExprs_makes (es : List Surface.Expr) : ∀ {n : Nat},
    Makes src n (resolveExprs es) (exprsActs (spanText src) es)
      fun es' => Built n (exprsActs (spanText src) es) (es'.map .expr)
      (exprsWords (spanText src) es) := by
  intro n
  cases es with
  | nil =>
    rw [resolveExprs, exprsActs]
    exact .pure (.nil _ _)
  | cons e es =>
    rw [resolveExprs, exprsActs, exprsWords]
    exact .bind (resolveExpr_makes e) fun _ he => .bind_pure (resolveExprs_makes es) fun _ hes =>
      he.append hes

theorem resolveTargets_makes (es : List Surface.Expr) : ∀ {n : Nat},
    Makes src n (resolveTargets es) (targetsActs (spanText src) .target es)
      fun es' => Built n (targetsActs (spanText src) .target es) (es'.map .expr)
        (targetsWords (spanText src) .target es) := by
  intro n
  cases es with
  | nil =>
    rw [resolveTargets, targetsActs]
    exact .pure (.nil _ _)
  | cons e es =>
    rw [resolveTargets, targetsActs_cons, targetsWords_cons]
    exact .bind (resolveTarget_makes (resolveExpr_makes e)) fun _ he =>
      .bind_pure (resolveTargets_makes es) fun _ hes => he.append hes

theorem resolveRangeTargets_makes (es : List Surface.Expr) : ∀ {n : Nat},
    Makes src n (resolveRangeTargets es) (targetsActs (spanText src) rangeAct es)
      fun es' => Built n (targetsActs (spanText src) rangeAct es) (es'.map .expr)
        (targetsWords (spanText src) .declared es) := by
  intro n
  cases es with
  | nil =>
    rw [resolveRangeTargets, targetsActs]
    exact .pure (.nil _ _)
  | cons e es =>
    rw [resolveRangeTargets, targetsActs_cons, targetsWords_cons]
    exact .bind (resolveRangeTarget_makes (resolveExpr_makes e)) fun _ he =>
      .bind_pure (resolveRangeTargets_makes es) fun _ hes => he.append hes

theorem resolveBody_makes (b : Surface.Block) : ∀ {n : Nat},
    Makes src n (resolveBody b) (blockActs (spanText src) b)
      fun b' => Built n (blockActs (spanText src) b) [.block b'] (blockWords (spanText src) b) := by
  intro n
  obtain ⟨span, stmts⟩ := b
  rw [resolveBody, blockActs, blockWords]
  exact .bind_pure (resolveStmts_makes stmts) fun _ h => .block h.2 h.1

theorem resolveBlock_makes (b : Surface.Block) : ∀ {n : Nat},
    Makes src n (resolveBlock b) [.scope (blockActs (spanText src) b)]
      fun b' => Built n [.scope (blockActs (spanText src) b)] [.block b']
        (blockWords (spanText src) b) := by
  intro n
  obtain ⟨span, stmts⟩ := b
  rw [resolveBlock, blockActs, blockWords]
  exact .inScope (.bind_pure (resolveStmts_makes stmts) fun _ h => .scope (.block h.2 h.1))

/-- Statements of a list are numbered one behind the other. -/
theorem resolveStmts_makes (ss : List Surface.Stmt) : ∀ {n : Nat},
    Makes src n (resolveStmts ss) (stmtsActs (spanText src) ss)
      fun ss' => Built n (stmtsActs (spanText src) ss) (ss'.map .stmt)
      (stmtsWords (spanText src) ss) ∧
        ss'.Pairwise fun s t => Node.Before (.stmt s) (.stmt t) := by
  intro n
  cases ss with
  | nil =>
    rw [resolveStmts, stmtsActs]
    exact .pure ⟨.nil _ _, .nil⟩
  | cons s ss =>
    rw [resolveStmts, stmtsActs, stmtsWords]
    refine .bind (resolveStmt_makes s) fun _ hs => .bind_pure (resolveStmts_makes ss) fun _ hss =>
      ⟨hs.append hss.1, List.pairwise_cons.mpr ⟨fun t ht => ?_, hss.2⟩⟩
    exact hs.before hss.1.toNumbered (Nat.le_refl _) (List.mem_singleton_self _)
      (List.mem_map_of_mem ht)

theorem resolveOptStmt_makes (s : Option Surface.Stmt) : ∀ {n : Nat},
    Makes src n (resolveOptStmt s) (optStmtActs (spanText src) s)
      fun s' => Built n (optStmtActs (spanText src) s) (s'.toList.map .stmt)
        (optStmtWords (spanText src) s) := by
  intro n
  cases s with
  | none =>
    rw [resolveOptStmt, optStmtActs]
    exact .pure (.nil _ _)
  | some s =>
    rw [resolveOptStmt, optStmtActs, optStmtWords]
    exact .bind_pure (resolveStmt_makes s) fun _ h => h

theorem resolveOptExpr_makes (e : Option Surface.Expr) : ∀ {n : Nat},
    Makes src n (resolveOptExpr e) (optExprActs (spanText src) e)
      fun e' => Built n (optExprActs (spanText src) e) (e'.toList.map .expr)
        (optExprWords (spanText src) e) := by
  intro n
  cases e with
  | none =>
    rw [resolveOptExpr, optExprActs]
    exact .pure (.nil _ _)
  | some e =>
    rw [resolveOptExpr, optExprActs, optExprWords]
    exact .bind_pure (resolveExpr_makes e) fun _ h => h

theorem resolveSpecs_makes (kind : BindingKind) (specs : List Surface.Spec) : ∀ {n : Nat},
    Makes src n (resolveSpecs kind specs) (specsActs (spanText src) kind specs)
      fun specs' => ∀ span, Built n (specsActs (spanText src) kind specs)
        (specs'.flatMap (Node.ofSpec span)) (specsWords (spanText src) specs) := by
  intro n
  cases specs with
  | nil =>
    rw [resolveSpecs, specsActs]
    exact .pure fun _ => .nil _ _
  | cons spec specs =>
    obtain ⟨names, values⟩ := spec
    rw [resolveSpecs, specsActs, specsWords, List.append_assoc (exprsActs _ _)]
    refine .bind (resolveExprs_makes values) fun _ hv =>
      .bind (declareAll_makes kind names) fun _ hn =>
      .bind_pure (resolveSpecs_makes kind specs) fun _ hs span => ?_
    rw [← Act.words_map_declare kind]
    exact hv.swap_append (hn ▸ Built.idents span) (hs span)

theorem resolveClauses_makes (cs : List Surface.Clause) : ∀ {n : Nat},
    Makes src n (resolveClauses cs) (clausesActs (spanText src) cs)
      fun cs' => Built n (clausesActs (spanText src) cs) (cs'.map .clause)
        (clausesWords (spanText src) cs) := by
  intro n
  cases cs with
  | nil =>
    rw [resolveClauses, clausesActs]
    exact .pure (.nil _ _)
  | cons c cs =>
    obtain ⟨span, values, comm, stmts⟩ := c
    rw [resolveClauses, clausesActs, clausesWords, List.append_assoc (exprsActs _ _),
      List.append_assoc (exprsWords _ _), ← List.singleton_append]
    refine Makes.bind (Q := fun c => Built n [.scope _] [.clause c] _) (.inScope
      (.bind (resolveExprs_makes values) fun _ hv => .bind (resolveOptStmt_makes comm) fun _ hc =>
        .bind_pure (resolveStmts_makes stmts) fun _ hs =>
        .scope (.of_children rfl trivial (by simp) ?_)))
      fun _ hc => .bind_pure (resolveClauses_makes cs) fun _ hcs => hc.append hcs
    simpa [Node.children] using hv.append (hc.append (.block (b := .mk span _) hs.2 hs.1))

/-- Resolving a statement does its acts and builds a tree that is numbered by them and spells its
words. -/
theorem resolveStmt_makes (s : Surface.Stmt) : ∀ {n : Nat},
    Makes src n (resolveStmt s) (stmtActs (spanText src) s)
      fun s' => Built n (stmtActs (spanText src) s) [.stmt s'] (stmtWords (spanText src) s) := by
  intro n
  cases s with
  | block body =>
    rw [resolveStmt, stmtActs, stmtWords]
    exact .bind_pure (resolveBlock_makes body) fun _ h => .stmt trivial h
  | ifStmt span init cond body orElse =>
    rw [resolveStmt, stmtActs, stmtWords, List.append_assoc, List.append_assoc]
    refine .inScope (.bind (resolveOptStmt_makes init) fun _ hinit =>
      .bind (resolveExpr_makes cond) fun _ hcond => .bind (resolveBlock_makes body) fun _ hbody =>
      .bind_pure (resolveOptStmt_makes orElse) fun _ helse => .scope (.stmt (fun s hs => ?_) ?_))
    · exact hcond.before helse.toNumbered (Nat.le_add_right _ _) (List.mem_singleton_self _)
        (List.mem_map_of_mem (Option.mem_toList.mpr hs))
    · simpa [Node.ofStmt] using hinit.append (hcond.append (hbody.append helse))
  | returnStmt span values =>
    rw [resolveStmt, stmtActs, stmtWords]
    exact .bind_pure (resolveExprs_makes values) fun _ h => .stmt trivial h
  | assign span op targets values =>
    rw [resolveStmt, stmtActs, stmtWords]
    exact .bind (resolveExprs_makes values) fun _ hv =>
      .bind_pure (.cond (Q := fun as ws es => Built _ as (es.map .expr) ws)
        (fun _ => resolveTargets_makes targets) fun _ => resolveExprs_makes targets) fun _ ht =>
      .stmt trivial (hv.swap ht)
  | step span target up =>
    rw [resolveStmt, stmtActs, stmtWords]
    exact .bind_pure (resolveExpr_makes target) fun _ h => .stmt trivial h
  | expr value =>
    rw [resolveStmt, stmtActs, stmtWords]
    exact .bind_pure (resolveExpr_makes value) fun _ h => .stmt trivial h
  | send span channel value =>
    rw [resolveStmt, stmtActs, stmtWords]
    exact .bind (resolveExpr_makes channel) fun _ hc =>
      .bind_pure (resolveExpr_makes value) fun _ hv =>
      .stmt trivial (hc.append hv)
  | vars span kind specs =>
    rw [resolveStmt, stmtActs, stmtWords]
    exact .bind_pure (resolveSpecs_makes kind specs) fun _ h => .stmt trivial (h span)
  | go span call =>
    rw [resolveStmt, stmtActs, stmtWords]
    exact .bind_pure (resolveExpr_makes call) fun _ h => .stmt trivial h
  | defer span call =>
    rw [resolveStmt, stmtActs, stmtWords]
    exact .bind_pure (resolveExpr_makes call) fun _ h => .stmt trivial h
  | loop span init cond post body =>
    rw [resolveStmt, stmtActs, stmtWords, List.append_assoc, List.append_assoc]
    refine .inScope (.bind (resolveOptStmt_makes init) fun _ hinit =>
      .bind (resolveOptExpr_makes cond) fun _ hcond =>
      .bind (resolveOptStmt_makes post) fun _ hpost =>
      .bind_pure (resolveBlock_makes body) fun _ hbody => .scope (.stmt trivial ?_))
    simpa [Node.ofStmt] using hinit.append (hcond.append (hpost.append hbody))
  | range span targets define subject body =>
    rw [resolveStmt, stmtActs, stmtWords, List.append_assoc]
    refine .inScope (.bind (resolveExpr_makes subject) fun subject hsubject =>
      .bind (.cond (Q := fun as ws es => Built _ as (es.map .expr) ws)
        (fun _ => resolveRangeTargets_makes targets) fun _ => resolveExprs_makes targets)
        fun targets ht =>
      .bind_pure (resolveBlock_makes body) fun body hbody => .scope (.stmt trivial ?_))
    refine (hsubject.swap_append ht hbody).fewer ?_
    -- Only the first two targets are kept.
    have htwo : (targets[0]?.toList ++ targets[1]?.toList).Sublist targets := by
      match targets with
      | [] => simp
      | [e] => simp
      | e :: e' :: es => simp
    simpa [Node.ofStmt] using (htwo.map Node.expr).append_right [.expr subject, .block body]
  | switch span init newName tag clauses =>
    rw [resolveStmt, stmtActs, stmtWords, List.append_assoc, List.append_assoc]
    refine .inScope (.bind (resolveOptStmt_makes init) fun _ hinit =>
      .bind (resolveOptExpr_makes tag) fun _ htag => .bind (declareNew_makes newName) fun _ hnew =>
      .bind_pure (resolveClauses_makes clauses) fun _ hcs => .scope (.stmt trivial ?_))
    rw [← words_declareNew]
    simpa [Node.ofStmt] using hinit.append (htag.swap_append (hnew ▸ Built.idents span) hcs)
  | select span clauses =>
    rw [resolveStmt, stmtActs, stmtWords]
    exact .bind_pure (resolveClauses_makes clauses) fun _ h => .stmt trivial h
  | labeled span label stmt =>
    rw [resolveStmt, stmtActs, stmtWords]
    exact .bind_pure (resolveStmt_makes stmt) fun _ h => .stmt trivial h
  | jump span word =>
    rw [resolveStmt, stmtActs]
    exact .pure (.stmt trivial (.nil _ _))
  | empty span =>
    rw [resolveStmt, stmtActs]
    exact .pure (.stmt trivial (.nil _ _))

end

/-! ### Declarations -/

/-- No number in a block below a node belongs to a name that the file declares. Identifiers are
counted from `n` on. -/
def BlocksPlain (n : Nat) (as : List Act) (root : Node) : Prop :=
  ∀ b, Node.block b ∈ Descent.full.walk root → ∀ i : Nat, i ∈ (Node.block b).ids →
    ∀ e, (Act.made as)[i - n]? = some e → e.isUse = false

namespace BlocksPlain

variable {root : Node}

/-- Without uses of names of the file there is nothing to say about blocks. -/
theorem of_plain (h : ∀ e ∈ Act.allEvents as, e.isUse = false) (root : Node) :
    BlocksPlain n as root := by
  intro b _ i _ e he
  exact h e (List.mem_filter.mp (List.mem_of_getElem? he)).1

theorem append_right (h : BlocksPlain n as root) {ns : List Node} (hns : Numbered n as ns)
    (hroot : root ∈ ns) (as' : List Act) : BlocksPlain n (as ++ as') root := by
  intro b hb i hib e he
  have hrange := hns.mem hroot (Node.ids_subset hb hib)
  rw [Act.made_append, List.getElem?_append_left (by omega)] at he
  exact h b hb i hib e he

theorem append_left (h : BlocksPlain (n + (Act.made as).length) as' root) {ns : List Node}
    (hns : Numbered (n + (Act.made as).length) as' ns) (hroot : root ∈ ns) :
    BlocksPlain n (as ++ as') root := by
  intro b hb i hib e he
  have hrange := hns.mem hroot (Node.ids_subset hb hib)
  rw [Act.made_append, List.getElem?_append_right (by omega), Nat.sub_sub] at he
  exact h b hb i hib e he

theorem of_children (hroot : ∀ b, root ≠ .block b) (h : ∀ m ∈ root.children, BlocksPlain n as m) :
    BlocksPlain n as root := by
  intro b hb
  rw [Descent.walk_eq] at hb
  rcases List.mem_cons.mp hb with rfl | hb
  · exact absurd rfl (hroot b)
  · obtain ⟨m, hm, hb⟩ := List.mem_flatMap.mp hb
    exact h m hm b hb

theorem ident {i : IdentId} {span : Span} : BlocksPlain n as (.ident i span) :=
  .of_children (fun _ => by simp) (by simp [Node.children])

end BlocksPlain

open Surface (globalsActs declActs declsActs declWords)

/-- Nodes that acts gave, with no name that the file declares in a block. -/
structure Rooted (n : Nat) (as : List Act) (ns : List Node) : Prop extends Numbered n as ns where
  plain : ∀ m ∈ ns, BlocksPlain n as m

namespace Rooted

variable {ns ns' : List Node}

theorem append (h : Rooted n as ns) (h' : Rooted (n + (Act.made as).length) as' ns') :
    Rooted n (as ++ as') (ns ++ ns') where
  toNumbered := h.toNumbered.append h'.toNumbered
  plain := List.forall_mem_append.mpr ⟨fun m hm => (h.plain m hm).append_right h.toNumbered hm as',
    fun m hm => (h'.plain m hm).append_left h'.toNumbered hm⟩

theorem perm (h : Rooted n as ns) (hns : ns'.Perm ns) : Rooted n as ns' :=
  ⟨h.toNumbered.perm hns, fun m hm => h.plain m (hns.subset hm)⟩

end Rooted

/-- Names that the file declares are used one after the other. -/
theorem useAll_eq (names : List Name) (r : Resolver) :
    useAll names r = (List.range' r.idents.size (Act.made (names.map .use)).length,
      r.steps (Act.allEvents (names.map .use))) := by
  induction names generalizing r with
  | nil => simp [useAll, pure, StateT.pure]
  | cons name names ih =>
    have hsize := size_acts r [.use name]
    have hrun : useAll (name :: names) r =
        ((useIdent name r).1 :: (useAll names (r.step (.use name))).1,
          (useAll names (r.step (.use name))).2) := rfl
    rw [hrun, ih, fst_useIdent]
    simp only [Act.allEvents_cons, Act.allEvents_nil, Act.events, Act.length_made, Act.words_use,
      Act.words_nil, List.append_nil, steps_cons, steps_nil, List.length_singleton] at hsize
    simp [Act.length_made, Act.events, hsize, List.range'_succ]

theorem resolveGlobals_cons (names : List Name) (values : List Surface.Expr)
    (specs : List Surface.Spec) (r : Resolver) : resolveGlobals (.mk names values :: specs) r =
      (.mk (useAll names (resolveExprs values r).2).1 (resolveExprs values r).1 ::
        (resolveGlobals specs (useAll names (resolveExprs values r).2).2).1,
        (resolveGlobals specs (useAll names (resolveExprs values r).2).2).2) := rfl

/-- The lines of a declaration of the file. -/
theorem resolveGlobals_steps (specs : List Surface.Spec) (r : Resolver) :
    (resolveGlobals specs r).2 = r.steps (Act.allEvents (globalsActs (spanText r.source) specs)) ∧
      ∀ span, Rooted r.idents.size (globalsActs (spanText r.source) specs)
          ((resolveGlobals specs r).1.flatMap (Node.ofSpec span)) ∧
        Spells r.idents.size (globalsActs (spanText r.source) specs)
          ((resolveGlobals specs r).1.flatMap (Node.ofSpec span))
          (specsWords (spanText r.source) specs) := by
  induction specs generalizing r with
  | nil =>
    refine ⟨?_, fun span => ⟨⟨.nil _, ?_⟩, .nil _ _⟩⟩ <;>
      simp [resolveGlobals, globalsActs, pure, StateT.pure]
  | cons spec specs ih =>
    obtain ⟨names, values⟩ := spec
    obtain ⟨hvalues, hplain, hbuilt⟩ := resolveExprs_makes values r rfl rfl
    have hnames := useAll_eq names (r.steps (Act.allEvents (exprsActs (spanText r.source) values)))
    obtain ⟨hrest, hrooted⟩ :=
      ih ((r.steps (Act.allEvents (exprsActs (spanText r.source) values))).steps
      (Act.allEvents (names.map .use)))
    rw [resolveGlobals_cons, hvalues, hnames, globalsActs, specsWords, List.append_assoc
      (exprsActs _ _)]
    simp only [source_steps, size_acts] at hrest hrooted ⊢
    refine ⟨by rw [hrest, Act.allEvents_append, Act.allEvents_append, steps_append, steps_append],
      fun span => ?_⟩
    have hidents : Rooted (r.idents.size + (Act.made (exprsActs (spanText r.source) values)).length)
        (names.map .use) ((List.range' (r.idents.size + _) _).map (.ident · span)) :=
      ⟨.idents span, fun m hm => by obtain ⟨i, -, rfl⟩ := List.mem_map.mp hm; exact .ident⟩
    obtain ⟨hrooted, hspells⟩ := hrooted span
    refine ⟨(Rooted.append ⟨hbuilt.toNumbered, fun m _ => .of_plain hplain m⟩
      (hidents.append hrooted)).perm ?_, ?_⟩
    · simpa [Node.ofSpec] using (List.perm_append_comm_assoc ..)
    · rw [← Act.words_map_use]
      exact (hbuilt.swap_append (.idents span) ⟨hrooted.toNumbered, hspells⟩).spells

theorem resolveDecl_steps (d : Surface.Decl) (r : Resolver) :
    (resolveDecl d r).2 = r.steps (Act.allEvents (declActs (spanText r.source) d)) ∧
      Rooted r.idents.size (declActs (spanText r.source) d) (resolveDecl d r).1.root?.toList ∧
      Spells r.idents.size (declActs (spanText r.source) d) (resolveDecl d r).1.root?.toList
        (declWords (spanText r.source) d) := by
  cases d with
  | func span method name params body =>
    have hmakes : Makes r.source r.idents.size (resolveDecl (.func span method name params body))
        (declActs (spanText r.source) (.func span method name params body))
        fun d => Built r.idents.size (declActs (spanText r.source)
          (.func span method name params body)) d.root?.toList
          (declWords (spanText r.source) (.func span method name params body)) := by
      rw [declActs, declWords]
      refine .inScope (.bind (declareAll_makes .param params) fun _ _ => ?_)
      cases body with
      | none => exact .pure (.nil _ _)
      | some body =>
        exact .bind_pure (resolveBody_makes body) fun _ h => .scope ((Built.nil _ _).append h)
    obtain ⟨hrun, hplain, hroot⟩ := hmakes r rfl rfl
    exact ⟨hrun, ⟨hroot.toNumbered, fun m _ => .of_plain hplain m⟩, hroot.spells⟩
  | vars span kind specs =>
    obtain ⟨hrun, hspecs⟩ := resolveGlobals_steps specs r
    obtain ⟨hrooted, hspells⟩ := hspecs span
    have hbuilt := Built.stmt (s := .vars span _) trivial ⟨hrooted.toNumbered, hspells⟩
    refine ⟨hrun, ⟨hbuilt.toNumbered, ?_⟩, hbuilt.spells⟩
    rintro _ (_ | ⟨_, ⟨⟩⟩)
    exact .of_children (fun _ => by simp) hrooted.plain

theorem resolveDecls_cons (d : Surface.Decl) (ds : List Surface.Decl) (r : Resolver) :
    resolveDecls (d :: ds) r =
    ((resolveDecl d r).1 :: (resolveDecls ds (resolveDecl d r).2).1,
      (resolveDecls ds (resolveDecl d r).2).2) := rfl

theorem filterMap_root?_cons (d : Decl) (ds : List Decl) :
    (d :: ds).filterMap Decl.root? = d.root?.toList ++ ds.filterMap Decl.root? := by
  cases h : d.root? <;> simp [h]

/-- Resolving the declarations of a file does their acts. The trees are numbered by them and spell
the words of the file. -/
theorem resolveDecls_steps (ds : List Surface.Decl) (r : Resolver) :
    (resolveDecls ds r).2 = r.steps (Act.allEvents (declsActs (spanText r.source) ds)) ∧
      Rooted r.idents.size (declsActs (spanText r.source) ds)
        ((resolveDecls ds r).1.filterMap Decl.root?) ∧
      Spells r.idents.size (declsActs (spanText r.source) ds)
        ((resolveDecls ds r).1.filterMap Decl.root?)
        (ds.flatMap (declWords (spanText r.source))) := by
  induction ds generalizing r with
  | nil =>
    refine ⟨?_, ⟨.nil _, ?_⟩, .nil _ _⟩ <;> simp [resolveDecls, declsActs, pure, StateT.pure]
  | cons d ds ih =>
    obtain ⟨hd, hrooted, hspells⟩ := resolveDecl_steps d r
    obtain ⟨hds, hrooted', hspells'⟩ :=
      ih (r.steps (Act.allEvents (declActs (spanText r.source) d)))
    rw [resolveDecls_cons, hd, declsActs, List.flatMap_cons, List.flatMap_cons,
      filterMap_root?_cons]
    simp only [source_steps, size_acts] at hds hrooted' hspells'
    exact ⟨by rw [hds, declsActs, Act.allEvents_append, steps_append], hrooted.append hrooted',
      hspells.append hspells'⟩

end Resolver

/-! ### Files -/

/-- The resolver that a source text starts with. -/
def Resolver.start (source : List Char) (decls : List Surface.Decl) : Resolver :=
  { source, scopes := Scopes.ofDecls decls }

theorem Resolver.start_sound (source : List Char) (decls : List Surface.Decl) :
    (start source decls).Sound :=
  ⟨Scopes.ofDecls_sound decls, by simp [start]⟩

/-- The acts of a source with the given declarations. -/
def Surface.sourceActs (source : String) (decls : List Surface.Decl) : List Act :=
  declsActs (spanText source.toList) decls

/-- The resolver at the end of a source. -/
def Resolver.finish (source : String) (decls : List Surface.Decl) : Resolver :=
  (start source.toList decls).steps (Act.allEvents (Surface.sourceActs source decls))

/-- At the end of a file every identifier has a binding of its own name, or none. -/
theorem Resolver.finish_sound (source : String) (decls : List Surface.Decl) :
    (finish source decls).Sound :=
  (start_sound source.toList decls).steps _

/-- A file that is read from a source holds the declarations of the source with their numbers in
order, and its identifiers and bindings are what the acts of the declarations make. -/
theorem File.exists_of_ofSource? {path source : String} {f : File}
    (h : File.ofSource? path source = some f) :
    ∃ decls, Surface.Decl.ofSource? source.toList = some decls ∧ f.path = path ∧
      f.source = source ∧ f.decls = (resolveDecls decls (.start source.toList decls)).1 ∧
      f.idents = (finish source decls).idents ∧ f.bindings = (finish source decls).scopes.bindings ∧
      Rooted 0 (Surface.sourceActs source decls) f.roots := by
  rw [File.ofSource?, Option.bind_eq_bind, Option.bind_eq_some_iff] at h
  obtain ⟨decls, hdecls, h⟩ := h
  cases h
  obtain ⟨hrun, hrooted, -⟩ := resolveDecls_steps decls (.start source.toList decls)
  refine ⟨decls, hdecls, rfl, rfl, rfl, ?_, ?_, hrooted⟩
  · exact congrArg Resolver.idents hrun
  · exact congrArg (fun r => r.scopes.bindings) hrun

/-- Identifiers that share a binding are spelled alike. -/
def File.NamesAgree (f : File) : Prop :=
  ∀ x ∈ f.idents, ∀ y ∈ f.idents, ∀ b, x.binding = some b → y.binding = some b → x.name = y.name

/-- In a file that was read, identifiers with one binding have one name. -/
theorem File.namesAgree_of_ofSource? {path source : String} {f : File}
    (h : File.ofSource? path source = some f) : f.NamesAgree := by
  obtain ⟨decls, -, -, -, -, hidents, -⟩ := exists_of_ofSource? h
  have hsound := finish_sound source decls
  intro x hx y hy b hxb hyb
  rw [hidents] at hx hy
  obtain ⟨z, hz, hxz⟩ := hsound.idents x hx b hxb
  obtain ⟨w, hw, hyw⟩ := hsound.idents y hy b hyb
  rw [hz, Option.some.injEq] at hw
  rw [← hxz, ← hyw, hw]

end NilGuard.Go
