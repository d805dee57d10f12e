import NilGuard.Proofs.Renaming
import NilGuard.Proofs.Scoping

/-!
Acts of renamed trees. A renaming fits the words of a tree when it makes `nil` only of names that
are used or on the left of `:=`, and what is declared is spelled as before. Then a renamed tree has
the renamed types and the renamed acts: each name does what it did before, except that a renamed one
is the nil literal.
-/

namespace NilGuard.Go

open Surface

namespace Renaming

variable (σ : Renaming)

mutual

def act : Act → Act
  | .value n => .value (σ.name n)
  | .target n => .target (σ.name n)
  | .declare kind n => .declare kind (σ.name n)
  | .use n => .use (σ.name n)
  | .scope as => .scope (acts as)

def acts : List Act → List Act
  | [] => []
  | a :: as => act a :: acts as

end

attribute [simp] act

@[simp] theorem acts_eq_map (as : List Act) : σ.acts as = as.map σ.act := by
  induction as with
  | nil => rfl
  | cons a as ih => rw [acts, ih, List.map_cons]

/-- A word that may be renamed. What two texts say about a span is the name that is declared there
before and after. -/
structure FitsWord (text text' : Span → String) (w : Word) : Prop where
  role : σ.marked w.name.span = true → w.role = .value ∨ w.role = .target
  text_eq : w.role = .declared → text' (σ.span w.name.span) = text w.name.span

/-- Words that may be renamed. -/
def Fits (text text' : Span → String) (ws : List Word) : Prop :=
  ∀ w ∈ ws, σ.FitsWord text text' w

variable {σ} {text text' : Span → String}

@[simp] theorem fits_append {ws ws' : List Word} :
    σ.Fits text text' (ws ++ ws') ↔ σ.Fits text text' ws ∧ σ.Fits text text' ws' :=
  List.forall_mem_append

@[simp] theorem fits_cons {w : Word} {ws : List Word} :
    σ.Fits text text' (w :: ws) ↔ σ.FitsWord text text' w ∧ σ.Fits text text' ws :=
  List.forall_mem_cons

/-- Only words in the role of a value or of a target are renamed. -/
theorem FitsWord.not_marked {w : Word} (h : σ.FitsWord text text' w) (hvalue : w.role ≠ .value)
    (htarget : w.role ≠ .target) : σ.marked w.name.span = false := by
  cases hmarked : σ.marked w.name.span with
  | false => rfl
  | true => exact absurd (h.role hmarked) (by simp [hvalue, htarget])

/-- A name that is neither used nor on the left of `:=` is spelled as before. -/
theorem FitsWord.text_name {role : Role} {n : Name} (h : σ.FitsWord text text' ⟨role, n⟩)
    (hvalue : role ≠ .value) (htarget : role ≠ .target) : (σ.name n).text = n.text := by
  simp [name, h.not_marked hvalue htarget]

/-- In a place that has a role for names, `nil` stays `nil` and other names stay other names. -/
theorem FitsWord.beq_nilName {role : Role} {n : Name} (h : σ.FitsWord text text' ⟨roleOf role n, n⟩)
    (hvalue : role ≠ .value) (htarget : role ≠ .target) :
    ((σ.name n).text == nilName) = (n.text == nilName) := by
  by_cases hnil : n.text = nilName
  · simp [name, hnil]
  · have hrole : roleOf role n = role := by simp [roleOf, hnil]
    rw [hrole] at h
    rw [h.text_name hvalue htarget]

end Renaming

namespace Surface

variable {σ : Renaming} {text text' text'' : Span → String}

/-! ### Types -/

/-- The names of types among words. -/
def typeNames (ws : List Word) : List Name :=
  (ws.filter (·.role == .type)).map (·.name)

@[simp] theorem typeNames_nil : typeNames [] = [] := rfl

@[simp] theorem typeNames_append (ws ws' : List Word) :
    typeNames (ws ++ ws') = typeNames ws ++ typeNames ws' := by
  simp [typeNames]

@[simp] theorem typeNames_type (n : Name) (ws : List Word) :
    typeNames (⟨.type, n⟩ :: ws) = n :: typeNames ws := rfl

theorem typeNames_cons {w : Word} (hw : w.role ≠ .type) (ws : List Word) :
    typeNames (w :: ws) = typeNames ws := by
  simp [typeNames, hw]

@[simp] theorem typeNames_declaredWords (names : List Name) :
    typeNames (declaredWords names) = [] := by
  simp [typeNames, declaredWords]

theorem roleOf_ne_type {role : Role} (hrole : role ≠ .type) (n : Name) : roleOf role n ≠ .type := by
  unfold roleOf
  split
  · simp
  · exact hrole

/-- A renamed part of a tree has the renamed types, whatever is declared in it, and the renamed
acts. -/
structure Carries (σ : Renaming) (ws ws' : List Word) (as as' : List Act) : Prop where
  types : typeNames ws' = (typeNames ws).map σ.name
  acts : as' = as.map σ.act

/-- A renamed name in the place of a target does what the name did. -/
def BareCarries (σ : Renaming) (text text' : Span → String) (role : Role) (bare : Name → Act) :
    Prop :=
  role ≠ .type ∧
    ∀ n, σ.FitsWord text text' ⟨roleOf role n, n⟩ → bare (σ.name n) = σ.act (bare n)

namespace Carries

variable {ws ws' vs vs' : List Word} {as as' bs bs' : List Act}

theorem nil : Carries σ [] [] [] [] :=
  ⟨rfl, rfl⟩

/-- Parts one after the other are carried over one by one. -/
theorem append (h : Carries σ ws ws' as as') (h' : Carries σ vs vs' bs bs') :
    Carries σ (ws ++ vs) (ws' ++ vs') (as ++ bs) (as' ++ bs') :=
  ⟨by simp [h.types, h'.types], by simp [h.acts, h'.acts]⟩

/-- What stands first takes effect last. -/
theorem append_swap (h : Carries σ ws ws' as as') (h' : Carries σ vs vs' bs bs') :
    Carries σ (ws ++ vs) (ws' ++ vs') (bs ++ as) (bs' ++ as') :=
  ⟨by simp [h.types, h'.types], by simp [h.acts, h'.acts]⟩

theorem scope (h : Carries σ ws ws' as as') : Carries σ ws ws' [.scope as] [.scope as'] :=
  ⟨h.types, by simp [h.acts]⟩

theorem type (h : Carries σ ws ws' as as') (n : Name) :
    Carries σ (⟨.type, n⟩ :: ws) (⟨.type, σ.name n⟩ :: ws') as as' :=
  ⟨by simp [h.types], h.acts⟩

theorem bare {role role' : Role} (hrole : role ≠ .type) (hrole' : role' ≠ .type) {n n' : Name}
    {a a' : Act} (ha : a' = σ.act a) : Carries σ [⟨role, n⟩] [⟨role', n'⟩] [a] [a'] :=
  ⟨by rw [typeNames_cons hrole', typeNames_cons hrole]; rfl, by rw [ha]; rfl⟩

theorem declared (ns : List Name) (kind : BindingKind) : Carries σ (declaredWords ns)
    (declaredWords (ns.map σ.name)) (ns.map (.declare kind)) ((ns.map σ.name).map
      (.declare kind)) :=
  ⟨by simp, by simp⟩

theorem used (ns : List Name) : Carries σ (declaredWords ns) (declaredWords (ns.map σ.name))
    (ns.map .use) ((ns.map σ.name).map .use) :=
  ⟨by simp, by simp⟩

/-- The name that a type switch declares. -/
theorem newName {e : Option Expr}
    (h : σ.Fits text text' (e.toList.map fun e => ⟨.declared, text e.span, e.span⟩)) :
    Carries σ (e.toList.map fun e => ⟨.declared, text e.span, e.span⟩)
      ((e.map σ.expr).toList.map fun e => ⟨.declared, text'' e.span, e.span⟩)
      (e.toList.map fun e => .declare .var ⟨text e.span, e.span⟩)
      ((e.map σ.expr).toList.map fun e => .declare .var ⟨text' e.span, e.span⟩) := by
  cases e with
  | none => exact .nil
  | some e =>
    have hword := (Renaming.fits_cons.mp h).1
    refine .bare (by simp) (by simp) ?_
    simp [Renaming.name, hword.not_marked, hword.text_eq rfl]

theorem key {n : Name} (h : σ.FitsWord text text' ⟨roleOf .field n, n⟩) :
    Carries σ (exprWords text (.key n)) (exprWords text'' (σ.expr (.key n)))
      (exprActs text (.key n)) (exprActs text' (σ.expr (.key n))) := by
  refine ⟨?_, ?_⟩
  · simp [exprWords, typeNames_cons, roleOf_ne_type]
  · simp only [Renaming.expr, exprActs, h.beq_nilName (by simp) (by simp)]
    split <;> simp

/-- A target is a name or any other expression. -/
theorem target {role : Role} {bare : Name → Act} (hbare : BareCarries σ text text' role bare)
    {e : Expr} (he : σ.Fits text text' (exprWords text e) → Carries σ (exprWords text e)
      (exprWords text'' (σ.expr e)) (exprActs text e) (exprActs text' (σ.expr e)))
    (h : σ.Fits text text' (targetsWords text role [e])) :
    Carries σ (targetsWords text role [e]) (targetsWords text'' role [σ.expr e])
      (targetsActs text bare [e]) (targetsActs text' bare [σ.expr e]) := by
  cases e with
  | ident n =>
    exact .bare (roleOf_ne_type hbare.1 n) (roleOf_ne_type hbare.1 _)
      (hbare.2 n (Renaming.fits_cons.mp h).1)
  | _ =>
    simp only [targetsWords, List.append_nil] at h
    simpa [targetsWords, targetsActs] using he h

end Carries

theorem target_bareCarries : BareCarries σ text text' .target .target :=
  ⟨by simp, fun _ _ => rfl⟩

/-- A target that is declared is not renamed, so it is still no `nil`. -/
theorem rangeAct_bareCarries : BareCarries σ text text' .declared rangeAct := by
  refine ⟨by simp, fun n h => ?_⟩
  rw [rangeAct, rangeAct, h.beq_nilName (by simp) (by simp)]
  split <;> rfl

mutual

/-- The acts of a renamed expression are the renamed acts, and its words are the renamed words. -/
theorem expr_carries (e : Expr) (h : σ.Fits text text' (exprWords text e)) :
    Carries σ (exprWords text e) (exprWords text'' (σ.expr e)) (exprActs text e)
      (exprActs text' (σ.expr e)) := by
  cases e with
  | ident n => exact .bare (by simp) (by simp) rfl
  | literal span => exact .nil
  | unary span op operand => simpa [exprWords, exprActs] using expr_carries operand h
  | binary span op left right =>
    simp only [exprWords, Renaming.fits_append] at h
    simpa [exprWords, exprActs] using (expr_carries left h.1).append (expr_carries right h.2)
  | call span callee args =>
    simp only [exprWords, Renaming.fits_append] at h
    simpa [exprWords, exprActs] using (expr_carries callee h.1).append (exprs_carry args h.2)
  | selector span operand field => simpa [exprWords, exprActs] using expr_carries operand h
  | paren span inner => simpa [exprWords, exprActs] using expr_carries inner h
  | closure span params body =>
    simp only [exprWords, Renaming.fits_append] at h
    simpa [exprWords, exprActs] using
      ((Carries.declared params .param).append (block_carries body h.2)).scope
  | keyed span key value =>
    simp only [exprWords, Renaming.fits_append] at h
    simpa [exprWords, exprActs] using (expr_carries key h.1).append (expr_carries value h.2)
  | group span parts => simpa [exprWords, exprActs] using exprs_carry parts h
  | typeName n => exact Carries.nil.type n
  | key n => exact .key (Renaming.fits_cons.mp h).1
  | either n asType asValue =>
    by_cases hnil : n.text = nilName
    · have hname : (σ.name n).text = nilName := by simp [Renaming.name, hnil]
      simp only [exprWords, hnil, beq_self_eq_true, if_true] at h
      simpa [exprWords, exprActs, hnil, hname] using expr_carries asValue h
    · simp only [exprWords, beq_iff_eq, hnil, if_false, Renaming.fits_cons] at h
      have hname := h.1.text_name (by simp) (by simp)
      simpa [exprWords, exprActs, hnil, hname] using (expr_carries asType h.2).type n

theorem exprs_carry (es : List Expr) (h : σ.Fits text text' (exprsWords text es)) :
    Carries σ (exprsWords text es) (exprsWords text'' (es.map σ.expr)) (exprsActs text es)
      (exprsActs text' (es.map σ.expr)) := by
  cases es with
  | nil => exact .nil
  | cons e es =>
    simp only [exprsWords, Renaming.fits_append] at h
    simpa [exprsWords, exprsActs] using (expr_carries e h.1).append (exprs_carry es h.2)

theorem targets_carry {role : Role} {bare : Name → Act} (hbare : BareCarries σ text text' role bare)
    (es : List Expr) (h : σ.Fits text text' (targetsWords text role es)) :
    Carries σ (targetsWords text role es) (targetsWords text'' role (es.map σ.expr))
      (targetsActs text bare es) (targetsActs text' bare (es.map σ.expr)) := by
  cases es with
  | nil => exact .nil
  | cons e es =>
    rw [targetsWords_cons, Renaming.fits_append] at h
    rw [List.map_cons, targetsWords_cons text, targetsWords_cons text'', targetsActs_cons text,
      targetsActs_cons text']
    exact (Carries.target hbare (expr_carries e) h.1).append (targets_carry hbare es h.2)

theorem block_carries (b : Block) (h : σ.Fits text text' (blockWords text b)) :
    Carries σ (blockWords text b) (blockWords text'' (σ.block b)) (blockActs text b)
      (blockActs text' (σ.block b)) := by
  obtain ⟨span, ss⟩ := b
  simpa [blockWords, blockActs] using stmts_carry ss h

theorem stmts_carry (ss : List Stmt) (h : σ.Fits text text' (stmtsWords text ss)) :
    Carries σ (stmtsWords text ss) (stmtsWords text'' (ss.map σ.stmt)) (stmtsActs text ss)
      (stmtsActs text' (ss.map σ.stmt)) := by
  cases ss with
  | nil => exact .nil
  | cons s ss =>
    simp only [stmtsWords, Renaming.fits_append] at h
    simpa [stmtsWords, stmtsActs] using (stmt_carries s h.1).append (stmts_carry ss h.2)

theorem optStmt_carries (s : Option Stmt) (h : σ.Fits text text' (optStmtWords text s)) :
    Carries σ (optStmtWords text s) (optStmtWords text'' (s.map σ.stmt)) (optStmtActs text s)
      (optStmtActs text' (s.map σ.stmt)) := by
  cases s with
  | none => exact .nil
  | some s => simpa [optStmtWords, optStmtActs] using stmt_carries s h

theorem optExpr_carries (e : Option Expr) (h : σ.Fits text text' (optExprWords text e)) :
    Carries σ (optExprWords text e) (optExprWords text'' (e.map σ.expr)) (optExprActs text e)
      (optExprActs text' (e.map σ.expr)) := by
  cases e with
  | none => exact .nil
  | some e => simpa [optExprWords, optExprActs] using expr_carries e h

theorem specs_carry (kind : BindingKind) (specs : List Spec)
    (h : σ.Fits text text' (specsWords text specs)) :
    Carries σ (specsWords text specs) (specsWords text'' (specs.map σ.spec))
      (specsActs text kind specs) (specsActs text' kind (specs.map σ.spec)) := by
  cases specs with
  | nil => exact .nil
  | cons spec specs =>
    obtain ⟨names, values⟩ := spec
    simp only [specsWords, Renaming.fits_append] at h
    simpa only [specsWords, specsActs, Renaming.spec, Renaming.exprs_eq_map, List.map_cons,
      List.map_map, List.append_assoc] using
      ((Carries.declared names kind).append_swap (exprs_carry values h.1.2)).append
      (specs_carry kind specs h.2)

theorem clauses_carry (cs : List Clause) (h : σ.Fits text text' (clausesWords text cs)) :
    Carries σ (clausesWords text cs) (clausesWords text'' (cs.map σ.clause)) (clausesActs text cs)
      (clausesActs text' (cs.map σ.clause)) := by
  cases cs with
  | nil => exact .nil
  | cons c cs =>
    obtain ⟨span, values, comm, ss⟩ := c
    simp only [clausesWords, Renaming.fits_append] at h
    simpa only [clausesWords, clausesActs, Renaming.clause, Renaming.exprs_eq_map,
      Renaming.optStmt_eq_map, Renaming.stmts_eq_map, List.map_cons, List.append_assoc,
      List.cons_append, List.nil_append] using
      (((exprs_carry values h.1.1.1).append (optStmt_carries comm h.1.1.2)).append
        (stmts_carry ss h.1.2)).scope.append (clauses_carry cs h.2)

/-- The acts of a renamed statement are the renamed acts. -/
theorem stmt_carries (s : Stmt) (h : σ.Fits text text' (stmtWords text s)) :
    Carries σ (stmtWords text s) (stmtWords text'' (σ.stmt s)) (stmtActs text s)
      (stmtActs text' (σ.stmt s)) := by
  cases s with
  | block body => simpa [stmtWords, stmtActs] using (block_carries body h).scope
  | ifStmt span init cond body orElse =>
    simp only [stmtWords, Renaming.fits_append] at h
    simpa [stmtWords, stmtActs] using ((((optStmt_carries init h.1.1.1).append
      (expr_carries cond h.1.1.2)).append (block_carries body h.1.2).scope).append
      (optStmt_carries orElse h.2)).scope
  | returnStmt span values => simpa [stmtWords, stmtActs] using exprs_carry values h
  | assign span op targets values =>
    simp only [stmtWords, Renaming.fits_append] at h
    by_cases hop : op = .define
    · subst hop
      simpa [stmtWords, stmtActs] using
        (targets_carry target_bareCarries targets h.1).append_swap (exprs_carry values h.2)
    · simp only [beq_iff_eq, hop, if_false] at h
      simpa [stmtWords, stmtActs, hop] using (exprs_carry targets h.1).append_swap
        (exprs_carry values h.2)
  | step span target up => simpa [stmtWords, stmtActs] using expr_carries target h
  | expr value => simpa [stmtWords, stmtActs] using expr_carries value h
  | send span channel value =>
    simp only [stmtWords, Renaming.fits_append] at h
    simpa [stmtWords, stmtActs] using (expr_carries channel h.1).append (expr_carries value h.2)
  | vars span kind specs => simpa [stmtWords, stmtActs] using specs_carry kind specs h
  | go span call => simpa [stmtWords, stmtActs] using expr_carries call h
  | defer span call => simpa [stmtWords, stmtActs] using expr_carries call h
  | loop span init cond post body =>
    simp only [stmtWords, Renaming.fits_append] at h
    simpa [stmtWords, stmtActs] using ((((optStmt_carries init h.1.1.1).append
      (optExpr_carries cond h.1.1.2)).append (optStmt_carries post h.1.2)).append
      (block_carries body h.2).scope).scope
  | range span targets define subject body =>
    simp only [stmtWords, Renaming.fits_append] at h
    cases define with
    | true =>
      simpa [stmtWords, stmtActs]
        using (((targets_carry rangeAct_bareCarries targets h.1.1).append_swap
        (expr_carries subject h.1.2)).append (block_carries body h.2).scope).scope
    | false =>
      simpa [stmtWords, stmtActs] using (((exprs_carry targets h.1.1).append_swap
        (expr_carries subject h.1.2)).append (block_carries body h.2).scope).scope
  | switch span init newName tag clauses =>
    simp only [stmtWords, Renaming.fits_append] at h
    simpa [stmtWords, stmtActs] using ((((optStmt_carries init h.1.1.1).append
      ((Carries.newName h.1.1.2).append_swap (optExpr_carries tag h.1.2))).append
      (clauses_carry clauses h.2))).scope
  | select span clauses => simpa [stmtWords, stmtActs] using clauses_carry clauses h
  | labeled span label inner => simpa [stmtWords, stmtActs] using stmt_carries inner h
  | jump span word => exact .nil
  | empty span => exact .nil

end

/-! ### Declarations -/

theorem globals_carry (specs : List Spec) (h : σ.Fits text text' (specsWords text specs)) :
    Carries σ (specsWords text specs) (specsWords text'' (specs.map σ.spec))
      (globalsActs text specs) (globalsActs text' (specs.map σ.spec)) := by
  induction specs with
  | nil => exact .nil
  | cons spec specs ih =>
    obtain ⟨names, values⟩ := spec
    simp only [specsWords, Renaming.fits_append] at h
    simpa only [specsWords, globalsActs, Renaming.spec, Renaming.exprs_eq_map, List.map_cons,
      List.map_map, List.append_assoc] using
      ((Carries.used names).append_swap (exprs_carry values h.1.2)).append (ih h.2)

theorem decl_carries (d : Decl) (h : σ.Fits text text' (declWords text d)) :
    Carries σ (declWords text d) (declWords text'' (σ.decl d)) (declActs text d)
      (declActs text' (σ.decl d)) := by
  cases d with
  | func span method n params body =>
    cases body with
    | none => simpa [declWords, declActs] using (Carries.declared params .param).scope
    | some body =>
      simp only [declWords, Option.map_some, Option.getD_some, Renaming.fits_append] at h
      simpa [declWords, declActs] using
        ((Carries.declared params .param).append (block_carries body h.2)).scope
  | vars span kind specs => exact globals_carry specs h

/-- The acts of a renamed file are the renamed acts of the file. -/
theorem declsActs_map {ds : List Decl} (h : σ.Fits text text' (ds.flatMap (declWords text))) :
    declsActs text' (ds.map σ.decl) = (declsActs text ds).map σ.act := by
  induction ds with
  | nil => rfl
  | cons d ds ih =>
    rw [List.flatMap_cons, Renaming.fits_append] at h
    have hd : Carries σ (declWords text d) (declWords text' (σ.decl d)) _ _ := decl_carries d h.1
    have hds := ih h.2
    simp only [declsActs, List.map_cons, List.flatMap_cons, List.map_append] at hds ⊢
    rw [hd.acts, hds]

end Surface

end NilGuard.Go
