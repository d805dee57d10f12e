import NilGuard.Proofs.Outline
import NilGuard.Proofs.Renaming.Acts

/-!
Resolution of renamed trees. A renamed tree resolves to a tree with the same outline (`Matches`),
since numbers are given in the same order. Its events are the renamed events, and these make the
same scopes and the renamed identifiers (`Follows`), as long as each renamed name stood for what an
earlier name stands for: such a name takes what a scope has, so that the scopes are the same without
it.
-/

namespace NilGuard.Go

open Surface

namespace Resolver

/-! ### Outlines -/

/-- With the same number of identifiers before, two parts of the resolver make the same number of
identifiers, and what they give is the same to the view. -/
def Matches {α β : Type} (view : α → β) (m m' : Resolve α) : Prop :=
  ∀ r r' : Resolver, r'.idents.size = r.idents.size →
    view (m' r').1 = view (m r).1 ∧ (m' r').2.idents.size = (m r).2.idents.size

namespace Matches

variable {α β γ δ : Type} {view : α → β} {m m' : Resolve α}

theorem pure {a a' : α} (h : view a' = view a) : Matches view (pure a) (pure a') :=
  fun _ _ hr => ⟨h, hr⟩

/-- Two parts go on alike from results that are the same to the view. -/
theorem bind {k k' : α → Resolve γ} {view' : γ → δ} (hm : Matches view m m')
    (hk : ∀ a a', view a' = view a → Matches view' (k a) (k' a')) :
    Matches view' (m >>= k) (m' >>= k') := by
  intro r r' hr
  obtain ⟨hview, hsize⟩ := hm r r' hr
  exact hk _ _ hview _ _ hsize

/-- A scope around both makes no identifier, so it changes nothing. -/
theorem inScope (hm : Matches view m m') : Matches view (inScope m) (inScope m') :=
  fun r r' hr => hm (r.step .enter) (r'.step .enter) hr

end Matches

/-- A part of the resolver that makes one identifier and gives its number. -/
def MakesOne (m : Resolve IdentId) : Prop :=
  ∀ r : Resolver, (m r).1 = r.idents.size ∧ (m r).2.idents.size = r.idents.size + 1

/-- A part that takes one event with a word makes one identifier. -/
theorem MakesOne.of_step {m : Resolve IdentId} {e : Event} (hword : e.word?.isSome = true)
    (hfst : ∀ r : Resolver, (m r).1 = r.idents.size) (hsnd : ∀ r : Resolver, (m r).2 = r.step e) :
    MakesOne m := by
  intro r
  obtain ⟨w, hw⟩ := Option.isSome_iff_exists.mp hword
  refine ⟨hfst r, ?_⟩
  rw [hsnd, ← steps_nil (r.step e), ← steps_cons, size_steps]
  simp [Event.words, hw]

/-- Parts that make one identifier each give the same number, whatever names and bindings they
have. -/
theorem MakesOne.matches {m m' : Resolve IdentId} (h : MakesOne m) (h' : MakesOne m') :
    Matches id m m' := by
  intro r r' hr
  refine ⟨?_, ?_⟩
  · rw [id, id, (h r).1, (h' r').1, hr]
  · rw [(h r).2, (h' r').2, hr]

theorem newIdent_makesOne (n : Name) (b : Option BindingId) : MakesOne (newIdent n b) :=
  fun r => ⟨rfl, by simp [newIdent_eq]⟩

theorem exprIdent_makesOne (n : Name) : MakesOne (exprIdent n) :=
  .of_step (e := .value n) rfl (fst_exprIdent n) fun _ => rfl

theorem defineIdent_makesOne (n : Name) : MakesOne (defineIdent n) :=
  .of_step (e := .target n) rfl (fst_defineIdent n) fun _ => rfl

theorem declareIdent_makesOne (kind : BindingKind) (n : Name) : MakesOne (declareIdent kind n) :=
  .of_step (e := .declare kind n) rfl (fst_declareIdent kind n) fun _ => rfl

theorem useIdent_makesOne (n : Name) : MakesOne (useIdent n) :=
  .of_step (e := .use n) rfl (fst_useIdent n) fun _ => rfl

variable {σ : Renaming} {text text' : Span → String}

theorem textOf_matches (s s' : Span) : Matches (fun _ => ()) (textOf s) (textOf s') :=
  fun _ _ hr => ⟨rfl, hr⟩

theorem declareAll_matches (kind : BindingKind) (ns : List Name) :
    Matches id (declareAll kind ns) (declareAll kind (ns.map σ.name)) := by
  induction ns with
  | nil => exact .pure rfl
  | cons n ns ih =>
    exact ((declareIdent_makesOne kind n).matches (declareIdent_makesOne kind _)).bind fun _ _ hi =>
      ih.bind fun _ _ his => .pure (congrArg₂ List.cons hi his)

theorem useAll_matches (ns : List Name) : Matches id (useAll ns) (useAll (ns.map σ.name)) := by
  induction ns with
  | nil => exact .pure rfl
  | cons n ns ih =>
    exact ((useIdent_makesOne n).matches (useIdent_makesOne _)).bind fun _ _ hi =>
      ih.bind fun _ _ his => .pure (congrArg₂ List.cons hi his)

/-- The name that a type switch declares gets its number whatever text it has. -/
theorem declareNew_matches (e : Option Surface.Expr) :
    Matches id (declareNew e) (declareNew (e.map σ.expr)) := by
  cases e with
  | none => exact .pure rfl
  | some e =>
    exact (textOf_matches _ _).bind fun _ _ _ => ((declareIdent_makesOne .var _).matches
      (declareIdent_makesOne .var _)).bind fun _ _ hi => .pure (congrArg some hi)

/-- An expression that is an identifier. -/
theorem ident_matches {m m' : Resolve IdentId} (h : MakesOne m) (h' : MakesOne m') (s s' : Span) :
    Matches Outline.expr (do return .ident s (← m)) (do return .ident s' (← m')) :=
  (h.matches h').bind fun _ _ hi => .pure (congrArg (Expr.ident default) hi)

/-- A target of `:=` makes an identifier if it is a bare name, which it is after a renaming if it
was before. -/
theorem resolveTarget_matches {role : Role} {e : Surface.Expr}
    (he : σ.Fits text text' (exprWords text e) →
      Matches Outline.expr (resolveExpr e) (resolveExpr (σ.expr e)))
    (h : σ.Fits text text' (targetsWords text role [e])) :
    Matches Outline.expr (resolveTarget e) (resolveTarget (σ.expr e)) := by
  cases e with
  | ident n =>
    rw [Renaming.expr, resolveTarget, resolveTarget]
    exact ident_matches (defineIdent_makesOne n) (defineIdent_makesOne _) _ _
  | _ =>
    simp only [targetsWords, List.append_nil] at h
    simpa only [resolveTarget, Renaming.expr] using he h

/-- A bare target of a range loop makes one identifier, also if it is `nil`. -/
theorem resolveRangeTarget_ident (n : Name) : ∃ m, MakesOne m ∧
    resolveRangeTarget (.ident n) = do return .ident n.span (← m) := by
  rw [resolveRangeTarget]
  split
  · exact ⟨_, newIdent_makesOne n none, rfl⟩
  · exact ⟨_, declareIdent_makesOne .var n, rfl⟩

theorem resolveRangeTarget_matches {role : Role} {e : Surface.Expr}
    (he : σ.Fits text text' (exprWords text e) →
      Matches Outline.expr (resolveExpr e) (resolveExpr (σ.expr e)))
    (h : σ.Fits text text' (targetsWords text role [e])) :
    Matches Outline.expr (resolveRangeTarget e) (resolveRangeTarget (σ.expr e)) := by
  cases e with
  | ident n =>
    obtain ⟨m, hm, hn⟩ := resolveRangeTarget_ident n
    obtain ⟨m', hm', hn'⟩ := resolveRangeTarget_ident (σ.name n)
    rw [Renaming.expr, hn, hn']
    exact ident_matches hm hm' _ _
  | _ =>
    simp only [targetsWords, List.append_nil] at h
    simpa only [resolveRangeTarget, Renaming.expr] using he h

mutual

/-- A renamed expression resolves to the same outline. Where the resolver looks at a name, as it
does for keys and for what may be a type, the texts fit, so it goes the same way. -/
theorem resolveExpr_matches (e : Surface.Expr) (h : σ.Fits text text' (exprWords text e)) :
    Matches Outline.expr (resolveExpr e) (resolveExpr (σ.expr e)) := by
  cases e with
  | ident n =>
    rw [Renaming.expr, resolveExpr, resolveExpr]
    exact ident_matches (exprIdent_makesOne n) (exprIdent_makesOne _) _ _
  | literal span =>
    rw [Renaming.expr, resolveExpr, resolveExpr]
    exact (textOf_matches _ _).bind fun _ _ _ => .pure (by simp)
  | unary span op operand =>
    rw [Renaming.expr, resolveExpr, resolveExpr]
    exact (resolveExpr_matches operand h).bind fun _ _ he => .pure (by simp [he])
  | binary span op left right =>
    simp only [exprWords, Renaming.fits_append] at h
    rw [Renaming.expr, resolveExpr, resolveExpr]
    exact (resolveExpr_matches left h.1).bind fun _ _ hl =>
      (resolveExpr_matches right h.2).bind fun _ _ hr => .pure (by simp [hl, hr])
  | call span callee args =>
    simp only [exprWords, Renaming.fits_append] at h
    rw [Renaming.expr, Renaming.exprs_eq_map, resolveExpr, resolveExpr]
    exact (resolveExpr_matches callee h.1).bind fun _ _ hc =>
      (resolveExprs_matches args h.2).bind fun _ _ ha => .pure (by simp [hc, ha])
  | selector span operand field =>
    rw [Renaming.expr, resolveExpr, resolveExpr]
    exact (resolveExpr_matches operand h).bind fun _ _ he => .pure (by simp [he])
  | paren span inner =>
    rw [Renaming.expr, resolveExpr, resolveExpr]
    exact (resolveExpr_matches inner h).bind fun _ _ he => .pure (by simp [he])
  | closure span params body =>
    simp only [exprWords, Renaming.fits_append] at h
    rw [Renaming.expr, resolveExpr, resolveExpr]
    exact .inScope ((declareAll_matches .param params).bind fun _ _ _ =>
      (resolveBody_matches body h.2).bind fun _ _ hb => .pure (by simp [hb]))
  | keyed span key value =>
    simp only [exprWords, Renaming.fits_append] at h
    rw [Renaming.expr, resolveExpr, resolveExpr]
    exact (resolveExpr_matches key h.1).bind fun _ _ hk =>
      (resolveExpr_matches value h.2).bind fun _ _ hv => .pure (by simp [hk, hv])
  | group span parts =>
    rw [Renaming.expr, Renaming.exprs_eq_map, resolveExpr, resolveExpr]
    exact (resolveExprs_matches parts h).bind fun _ _ he => .pure (by simp [he])
  | typeName n =>
    rw [Renaming.expr, resolveExpr, resolveExpr]
    exact .pure (by simp)
  | key n =>
    have hword := (Renaming.fits_cons.mp h).1
    rw [Renaming.expr, resolveExpr, resolveExpr, hword.beq_nilName (by simp) (by simp)]
    split
    · exact ident_matches (exprIdent_makesOne n) (exprIdent_makesOne _) _ _
    · exact .pure (by simp)
  | either n asType asValue =>
    rw [Renaming.expr, resolveExpr, resolveExpr]
    by_cases hnil : n.text = nilName
    · have hname : (σ.name n).text = nilName := by simp [Renaming.name, hnil]
      simp only [exprWords, hnil, beq_self_eq_true, if_true] at h
      simpa [hnil, hname] using resolveExpr_matches asValue h
    · simp only [exprWords, beq_iff_eq, hnil, if_false, Renaming.fits_cons] at h
      have hname := h.1.text_name (by simp) (by simp)
      simpa [hnil, hname] using resolveExpr_matches asType h.2

theorem resolveExprs_matches (es : List Surface.Expr) (h : σ.Fits text text' (exprsWords text es)) :
    Matches (List.map Outline.expr) (resolveExprs es) (resolveExprs (es.map σ.expr)) := by
  cases es with
  | nil =>
    rw [List.map_nil, resolveExprs]
    exact .pure rfl
  | cons e es =>
    simp only [exprsWords, Renaming.fits_append] at h
    rw [List.map_cons, resolveExprs, resolveExprs]
    exact (resolveExpr_matches e h.1).bind fun _ _ he =>
      (resolveExprs_matches es h.2).bind fun _ _ hes => .pure (congrArg₂ List.cons he hes)

theorem resolveTargets_matches (es : List Surface.Expr)
    (h : σ.Fits text text' (targetsWords text .target es)) :
    Matches (List.map Outline.expr) (resolveTargets es) (resolveTargets (es.map σ.expr)) := by
  cases es with
  | nil =>
    rw [List.map_nil, resolveTargets]
    exact .pure rfl
  | cons e es =>
    rw [targetsWords_cons, Renaming.fits_append] at h
    rw [List.map_cons, resolveTargets, resolveTargets]
    exact (resolveTarget_matches (resolveExpr_matches e) h.1).bind fun _ _ he =>
      (resolveTargets_matches es h.2).bind fun _ _ hes => .pure (congrArg₂ List.cons he hes)

theorem resolveRangeTargets_matches (es : List Surface.Expr)
    (h : σ.Fits text text' (targetsWords text .declared es)) :
    Matches (List.map Outline.expr) (resolveRangeTargets es)
      (resolveRangeTargets (es.map σ.expr)) := by
  cases es with
  | nil =>
    rw [List.map_nil, resolveRangeTargets]
    exact .pure rfl
  | cons e es =>
    rw [targetsWords_cons, Renaming.fits_append] at h
    rw [List.map_cons, resolveRangeTargets, resolveRangeTargets]
    exact (resolveRangeTarget_matches (resolveExpr_matches e) h.1).bind fun _ _ he =>
      (resolveRangeTargets_matches es h.2).bind fun _ _ hes => .pure (congrArg₂ List.cons he hes)

theorem resolveBody_matches (b : Surface.Block) (h : σ.Fits text text' (blockWords text b)) :
    Matches Outline.block (resolveBody b) (resolveBody (σ.block b)) := by
  obtain ⟨span, ss⟩ := b
  rw [Renaming.block, Renaming.stmts_eq_map, resolveBody, resolveBody]
  exact (resolveStmts_matches ss h).bind fun _ _ hss => .pure (by simp [hss])

theorem resolveBlock_matches (b : Surface.Block) (h : σ.Fits text text' (blockWords text b)) :
    Matches Outline.block (resolveBlock b) (resolveBlock (σ.block b)) := by
  obtain ⟨span, ss⟩ := b
  rw [Renaming.block, Renaming.stmts_eq_map, resolveBlock, resolveBlock]
  exact .inScope ((resolveStmts_matches ss h).bind fun _ _ hss => .pure (by simp [hss]))

theorem resolveStmts_matches (ss : List Surface.Stmt) (h : σ.Fits text text' (stmtsWords text ss)) :
    Matches (List.map Outline.stmt) (resolveStmts ss) (resolveStmts (ss.map σ.stmt)) := by
  cases ss with
  | nil =>
    rw [List.map_nil, resolveStmts]
    exact .pure rfl
  | cons s ss =>
    simp only [stmtsWords, Renaming.fits_append] at h
    rw [List.map_cons, resolveStmts, resolveStmts]
    exact (resolveStmt_matches s h.1).bind fun _ _ hs =>
      (resolveStmts_matches ss h.2).bind fun _ _ hss => .pure (congrArg₂ List.cons hs hss)

theorem resolveOptStmt_matches (s : Option Surface.Stmt)
    (h : σ.Fits text text' (optStmtWords text s)) :
    Matches (Option.map Outline.stmt) (resolveOptStmt s) (resolveOptStmt (s.map σ.stmt)) := by
  cases s with
  | none =>
    rw [Option.map_none, resolveOptStmt]
    exact .pure rfl
  | some s =>
    rw [Option.map_some, resolveOptStmt, resolveOptStmt]
    exact (resolveStmt_matches s h).bind fun _ _ hs => .pure (congrArg some hs)

theorem resolveOptExpr_matches (e : Option Surface.Expr)
    (h : σ.Fits text text' (optExprWords text e)) :
    Matches (Option.map Outline.expr) (resolveOptExpr e) (resolveOptExpr (e.map σ.expr)) := by
  cases e with
  | none =>
    rw [Option.map_none, resolveOptExpr]
    exact .pure rfl
  | some e =>
    rw [Option.map_some, resolveOptExpr, resolveOptExpr]
    exact (resolveExpr_matches e h).bind fun _ _ he => .pure (congrArg some he)

theorem resolveSpecs_matches (kind : BindingKind) (specs : List Surface.Spec)
    (h : σ.Fits text text' (specsWords text specs)) :
    Matches (List.map Outline.spec) (resolveSpecs kind specs)
      (resolveSpecs kind (specs.map σ.spec)) := by
  cases specs with
  | nil =>
    rw [List.map_nil, resolveSpecs]
    exact .pure rfl
  | cons spec specs =>
    obtain ⟨names, values⟩ := spec
    simp only [specsWords, Renaming.fits_append] at h
    rw [List.map_cons, Renaming.spec, Renaming.exprs_eq_map, resolveSpecs, resolveSpecs]
    exact (resolveExprs_matches values h.1.2).bind fun _ _ hv =>
      (declareAll_matches kind names).bind fun _ _ hn =>
      (resolveSpecs_matches kind specs h.2).bind fun _ _ hs => .pure (by simpa [hv, hs] using hn)

/-- A case is resolved in a scope of its own, before and after. -/
theorem resolveClauses_matches (cs : List Surface.Clause)
    (h : σ.Fits text text' (clausesWords text cs)) :
    Matches (List.map Outline.clause) (resolveClauses cs) (resolveClauses (cs.map σ.clause)) := by
  cases cs with
  | nil =>
    rw [List.map_nil, resolveClauses]
    exact .pure rfl
  | cons c cs =>
    obtain ⟨span, values, comm, ss⟩ := c
    simp only [clausesWords, Renaming.fits_append] at h
    rw [List.map_cons, Renaming.clause, Renaming.exprs_eq_map, Renaming.optStmt_eq_map,
      Renaming.stmts_eq_map, resolveClauses, resolveClauses]
    refine Matches.bind (.inScope (?_ : Matches Outline.clause _ _)) fun _ _ hc =>
      (resolveClauses_matches cs h.2).bind fun _ _ hcs => .pure (congrArg₂ List.cons hc hcs)
    exact (resolveExprs_matches values h.1.1.1).bind fun _ _ hv =>
      (resolveOptStmt_matches comm h.1.1.2).bind fun _ _ hcomm =>
      (resolveStmts_matches ss h.1.2).bind fun _ _ hss => .pure (by simp [hv, hcomm, hss])

/-- A renamed statement resolves to the same outline. -/
theorem resolveStmt_matches (s : Surface.Stmt) (h : σ.Fits text text' (stmtWords text s)) :
    Matches Outline.stmt (resolveStmt s) (resolveStmt (σ.stmt s)) := by
  cases s with
  | block body =>
    rw [Renaming.stmt, resolveStmt, resolveStmt]
    exact (resolveBlock_matches body h).bind fun _ _ hb => .pure (by simp [hb])
  | ifStmt span init cond body orElse =>
    simp only [stmtWords, Renaming.fits_append] at h
    rw [Renaming.stmt, Renaming.optStmt_eq_map, Renaming.optStmt_eq_map, resolveStmt, resolveStmt]
    exact .inScope ((resolveOptStmt_matches init h.1.1.1).bind fun _ _ hinit =>
      (resolveExpr_matches cond h.1.1.2).bind fun _ _ hcond =>
      (resolveBlock_matches body h.1.2).bind fun _ _ hbody =>
      (resolveOptStmt_matches orElse h.2).bind fun _ _ helse =>
        .pure (by simp [hinit, hcond, hbody, helse]))
  | returnStmt span values =>
    rw [Renaming.stmt, Renaming.exprs_eq_map, resolveStmt, resolveStmt]
    exact (resolveExprs_matches values h).bind fun _ _ hv => .pure (by simp [hv])
  | assign span op targets values =>
    simp only [stmtWords, Renaming.fits_append] at h
    rw [Renaming.stmt, Renaming.exprs_eq_map, Renaming.exprs_eq_map, resolveStmt, resolveStmt]
    refine (resolveExprs_matches values h.2).bind fun _ _ hv =>
      Matches.bind (?_ : Matches (List.map Outline.expr) _ _) fun _ _ ht => .pure (by simp [hv, ht])
    by_cases hop : op = .define
    · subst hop
      exact resolveTargets_matches targets h.1
    · simp only [beq_iff_eq, hop, if_false] at h ⊢
      exact resolveExprs_matches targets h.1
  | step span target up =>
    rw [Renaming.stmt, resolveStmt, resolveStmt]
    exact (resolveExpr_matches target h).bind fun _ _ he => .pure (by simp [he])
  | expr value =>
    rw [Renaming.stmt, resolveStmt, resolveStmt]
    exact (resolveExpr_matches value h).bind fun _ _ he => .pure (by simp [he])
  | send span channel value =>
    simp only [stmtWords, Renaming.fits_append] at h
    rw [Renaming.stmt, resolveStmt, resolveStmt]
    exact (resolveExpr_matches channel h.1).bind fun _ _ hc =>
      (resolveExpr_matches value h.2).bind fun _ _ hv => .pure (by simp [hc, hv])
  | vars span kind specs =>
    rw [Renaming.stmt, Renaming.specs_eq_map, resolveStmt, resolveStmt]
    exact (resolveSpecs_matches kind specs h).bind fun _ _ hs => .pure (by simp [hs])
  | go span call =>
    rw [Renaming.stmt, resolveStmt, resolveStmt]
    exact (resolveExpr_matches call h).bind fun _ _ he => .pure (by simp [he])
  | defer span call =>
    rw [Renaming.stmt, resolveStmt, resolveStmt]
    exact (resolveExpr_matches call h).bind fun _ _ he => .pure (by simp [he])
  | loop span init cond post body =>
    simp only [stmtWords, Renaming.fits_append] at h
    rw [Renaming.stmt, Renaming.optStmt_eq_map, Renaming.optStmt_eq_map, Renaming.optExpr_eq_map,
      resolveStmt, resolveStmt]
    exact .inScope ((resolveOptStmt_matches init h.1.1.1).bind fun _ _ hinit =>
      (resolveOptExpr_matches cond h.1.1.2).bind fun _ _ hcond =>
      (resolveOptStmt_matches post h.1.2).bind fun _ _ hpost =>
      (resolveBlock_matches body h.2).bind fun _ _ hbody =>
        .pure (by simp [hinit, hcond, hpost, hbody]))
  | range span targets define subject body =>
    simp only [stmtWords, Renaming.fits_append] at h
    rw [Renaming.stmt, Renaming.exprs_eq_map, resolveStmt, resolveStmt]
    refine .inScope ((resolveExpr_matches subject h.1.2).bind fun _ _ hsubject =>
      Matches.bind (?_ : Matches (List.map Outline.expr) _ _) fun _ _ ht =>
      (resolveBlock_matches body h.2).bind fun _ _ hbody => .pure ?_)
    · cases define with
      | true => exact resolveRangeTargets_matches targets h.1.1
      | false => exact resolveExprs_matches targets h.1.1
    · simp [hsubject, hbody, ← List.getElem?_map, ht]
  | switch span init newName tag clauses =>
    simp only [stmtWords, Renaming.fits_append] at h
    rw [Renaming.stmt, Renaming.optStmt_eq_map, Renaming.optExpr_eq_map, Renaming.optExpr_eq_map,
      Renaming.clauses_eq_map, resolveStmt, resolveStmt]
    exact .inScope ((resolveOptStmt_matches init h.1.1.1).bind fun _ _ hinit =>
      (resolveOptExpr_matches tag h.1.2).bind fun _ _ htag =>
      (declareNew_matches newName).bind fun _ _ hnew =>
      (resolveClauses_matches clauses h.2).bind fun _ _ hcs =>
        .pure (by simpa [hinit, htag, hcs] using hnew))
  | select span clauses =>
    rw [Renaming.stmt, Renaming.clauses_eq_map, resolveStmt, resolveStmt]
    exact (resolveClauses_matches clauses h).bind fun _ _ hcs => .pure (by simp [hcs])
  | labeled span label inner =>
    rw [Renaming.stmt, resolveStmt, resolveStmt]
    exact (resolveStmt_matches inner h).bind fun _ _ hs => .pure (by simp [hs])
  | jump span word =>
    rw [Renaming.stmt, resolveStmt, resolveStmt]
    exact .pure (by simp)
  | empty span =>
    rw [Renaming.stmt, resolveStmt, resolveStmt]
    exact .pure (by simp)

end

/-- The names that the file declares are used here, and make one identifier each. -/
theorem resolveGlobals_matches (specs : List Surface.Spec)
    (h : σ.Fits text text' (specsWords text specs)) :
    Matches (List.map Outline.spec) (resolveGlobals specs) (resolveGlobals (specs.map σ.spec)) := by
  induction specs with
  | nil => exact .pure rfl
  | cons spec specs ih =>
    obtain ⟨names, values⟩ := spec
    simp only [specsWords, Renaming.fits_append] at h
    rw [List.map_cons, Renaming.spec, Renaming.exprs_eq_map, resolveGlobals, resolveGlobals]
    exact (resolveExprs_matches values h.1.2).bind fun _ _ hv =>
      (useAll_matches names).bind fun _ _ hn =>
      (ih h.2).bind fun _ _ hs => .pure (by simpa [hv, hs] using hn)

/-- The outline of what a declaration has, if it has a tree. -/
def rootOutline (d : Decl) : Option Node :=
  d.root?.map Outline.node

theorem resolveDecl_matches (d : Surface.Decl) (h : σ.Fits text text' (declWords text d)) :
    Matches rootOutline (resolveDecl d) (resolveDecl (σ.decl d)) := by
  cases d with
  | func span method n params body =>
    refine .inScope ((declareAll_matches .param params).bind fun _ _ _ => ?_)
    cases body with
    | none => exact .pure rfl
    | some body =>
      simp only [declWords, Option.map_some, Option.getD_some, Renaming.fits_append] at h
      exact (resolveBody_matches body h.2).bind fun _ _ hb =>
        .pure (by simp [rootOutline, Decl.root?, hb])
  | vars span kind specs =>
    rw [Renaming.decl, resolveDecl, resolveDecl]
    exact (resolveGlobals_matches specs h).bind fun _ _ hs =>
      .pure (by simp [rootOutline, Decl.root?, hs])

/-- The declarations of a renamed file resolve to trees with the same outlines, in the same
order. -/
theorem resolveDecls_matches (ds : List Surface.Decl)
    (h : σ.Fits text text' (ds.flatMap (declWords text))) :
    Matches (List.map rootOutline) (resolveDecls ds) (resolveDecls (ds.map σ.decl)) := by
  induction ds with
  | nil => exact .pure rfl
  | cons d ds ih =>
    simp only [List.flatMap_cons, Renaming.fits_append] at h
    rw [List.map_cons, resolveDecls, resolveDecls]
    exact (resolveDecl_matches d h.1).bind fun _ _ hd => (ih h.2).bind fun _ _ hds =>
      .pure (congrArg₂ List.cons hd hds)

end Resolver

end NilGuard.Go
