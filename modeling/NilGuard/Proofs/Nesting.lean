import NilGuard.Proofs.Lexical

/-!
Nesting of scopes. Using a name leaves all scopes as they are, but for a name from outside that the
file may gain (`Scopes.Kept`). Declaring a name also adds to the innermost scope (`Scopes.Grown`). A
construct with a scope of its own keeps to it what is declared inside, so for the scopes around it
the construct does no more than use names. That is an induction over acts, and it holds from every
state of the scopes, whatever names and bindings they have.
-/

namespace NilGuard.Go

namespace Scopes

/-! ### What scopes may gain -/

/-- An entry for a name from outside, which no scope had. -/
def Outside (s s' : Scopes) (p : String × BindingId) : Prop :=
  (∀ b, ¬ s.Holds (p.1, b)) ∧ s'.bindings[p.2]? = some ⟨p.1, .external, none⟩

/-- An entry for a name that was declared, with a new binding. -/
def Declared (s s' : Scopes) (p : String × BindingId) : Prop :=
  s.bindings.size ≤ p.2 ∧ ∃ kind decl, s'.bindings[p.2]? = some ⟨p.1, kind, some decl⟩

/-- The scopes are as they were, and the file may have gained names from outside. Bindings stay as
they are, and new ones come behind them. -/
structure Kept (s s' : Scopes) : Prop where
  bindings : s.bindings.toList <+: s'.bindings.toList
  inner : s'.inner = s.inner
  file : ∃ new, s'.file = new ++ s.file ∧ ∀ p ∈ new, s.Outside s' p

/-- The scopes around the innermost one are as they were, the innermost one may have gained names
that are declared, and the file may have gained names from outside. -/
structure Grown (s s' : Scopes) : Prop where
  bindings : s.bindings.toList <+: s'.bindings.toList
  inner : ∃ new, s'.inner = s.inner.modifyHead (new ++ ·) ∧ ∀ p ∈ new, s.Declared s' p
  file : ∃ new, s'.file = new ++ s.file ∧ ∀ p ∈ new, s.Outside s' p ∨ s.inner = [] ∧ s.Declared s' p

variable {s s' s'' : Scopes} {p : String × BindingId}

theorem getElem?_of_grown (h : s.bindings.toList <+: s'.bindings.toList) {b : BindingId}
    {x : Binding} (hx : s.bindings[b]? = some x) : s'.bindings[b]? = some x := by
  obtain ⟨new, hnew⟩ := h
  have hlt := (Array.getElem?_eq_some_iff.mp hx).1
  rw [← Array.getElem?_toList] at hx ⊢
  rw [← hnew, List.getElem?_append_left (by simpa using hlt), hx]

theorem size_le_of_grown (h : s.bindings.toList <+: s'.bindings.toList) :
    s.bindings.size ≤ s'.bindings.size := by
  simpa using h.length_le

theorem Declared.mono (h : s.Declared s' p)
    (hbindings : s'.bindings.toList <+: s''.bindings.toList) :
    s.Declared s'' p := by
  obtain ⟨hnew, kind, decl, hp⟩ := h
  exact ⟨hnew, kind, decl, getElem?_of_grown hbindings hp⟩

theorem Outside.mono (h : s.Outside s' p) (hbindings : s'.bindings.toList <+: s''.bindings.toList) :
    s.Outside s'' p :=
  ⟨h.1, getElem?_of_grown hbindings h.2⟩

theorem Kept.grown (h : s.Kept s') : s.Grown s' where
  bindings := h.bindings
  inner := ⟨[], by cases hs : s.inner <;> simp [h.inner, hs], by simp⟩
  file := by
    obtain ⟨new, hfile, hnew⟩ := h.file
    exact ⟨new, hfile, fun p hp => .inl (hnew p hp)⟩

theorem Grown.length_inner (h : s.Grown s') : s'.inner.length = s.inner.length := by
  obtain ⟨new, hinner, -⟩ := h.inner
  rw [hinner, List.length_modifyHead]

/-- No entry gets lost. -/
theorem Grown.holds (h : s.Grown s') (hp : s.Holds p) : s'.Holds p := by
  obtain ⟨frame, hframe, hp⟩ := hp
  obtain ⟨fromFile, hfile, -⟩ := h.file
  obtain ⟨new, hinner, -⟩ := h.inner
  rcases List.mem_cons.mp hframe with rfl | hframe
  · exact ⟨s'.file, List.mem_cons_self, by simp [hfile, hp]⟩
  · cases hs : s.inner with
    | nil => simp [hs] at hframe
    | cons first frames =>
      rw [hs] at hinner hframe
      rcases List.mem_cons.mp hframe with rfl | hframe
      · exact ⟨new ++ frame, by simp [hinner], by simp [hp]⟩
      · exact ⟨frame, by simp [hinner, hframe], hp⟩

/-- A name that no scope has later had none before. -/
theorem Outside.before (h : s'.Outside s'' p) (hs : s.Grown s') : s.Outside s'' p :=
  ⟨fun b hb => h.1 b (hs.holds hb), h.2⟩

theorem Declared.before (h : s'.Declared s'' p) (hs : s.Grown s') : s.Declared s'' p :=
  ⟨(size_le_of_grown hs.bindings).trans h.1, h.2⟩

theorem Kept.refl (s : Scopes) : s.Kept s :=
  ⟨List.prefix_refl _, rfl, [], by simp, by simp⟩

theorem Kept.trans (h : s.Kept s') (h' : s'.Kept s'') : s.Kept s'' where
  bindings := h.bindings.trans h'.bindings
  inner := h'.inner.trans h.inner
  file := by
    obtain ⟨new, hfile, hnew⟩ := h.file
    obtain ⟨new', hfile', hnew'⟩ := h'.file
    refine ⟨new' ++ new, by rw [hfile', hfile, List.append_assoc], fun p hp => ?_⟩
    rcases List.mem_append.mp hp with hp | hp
    · exact (hnew' p hp).before h.grown
    · exact (hnew p hp).mono h'.bindings

theorem Grown.trans (h : s.Grown s') (h' : s'.Grown s'') : s.Grown s'' where
  bindings := h.bindings.trans h'.bindings
  inner := by
    obtain ⟨new, hinner, hnew⟩ := h.inner
    obtain ⟨new', hinner', hnew'⟩ := h'.inner
    refine ⟨new' ++ new, ?_, fun p hp => ?_⟩
    · rw [hinner', hinner, List.modifyHead_modifyHead]
      congr 1
      funext frame
      simp
    · rcases List.mem_append.mp hp with hp | hp
      · exact (hnew' p hp).before h
      · exact (hnew p hp).mono h'.bindings
  file := by
    obtain ⟨new, hfile, hnew⟩ := h.file
    obtain ⟨new', hfile', hnew'⟩ := h'.file
    have hempty : s'.inner = [] → s.inner = [] := fun hnil => by
      rw [← List.length_eq_zero_iff, ← h.length_inner, hnil, List.length_nil]
    refine ⟨new' ++ new, by rw [hfile', hfile, List.append_assoc], fun p hp => ?_⟩
    rcases List.mem_append.mp hp with hp | hp
    · exact (hnew' p hp).imp (·.before h) fun hp => ⟨hempty hp.1, hp.2.before h⟩
    · exact (hnew p hp).imp (·.mono h'.bindings) fun hp => ⟨hp.1, hp.2.mono h'.bindings⟩

/-! ### One name, one scope -/

theorem not_mem_of_lookup {frame : Frame} {name : String} (h : frame.lookup name = none)
    (b : BindingId) :
    (name, b) ∉ frame := by
  intro hmem
  simpa using List.lookup_eq_none_iff.mp h _ hmem

/-- A name that is not found is in no scope. -/
theorem not_holds_of_find? {name : String} (h : s.find? name = none) (b : BindingId) :
    ¬ s.Holds (name, b) := by
  obtain ⟨hinner, hfile⟩ : (∀ frame ∈ s.inner, frame.lookup name = none) ∧
      s.file.lookup name = none := by
    simpa [find?] using h
  rintro ⟨frame, hframe, hmem⟩
  rcases List.mem_cons.mp hframe with rfl | hframe
  · exact not_mem_of_lookup hfile b hmem
  · exact not_mem_of_lookup (hinner frame hframe) b hmem

theorem resolve_kept (s : Scopes) (name : String) : s.Kept (s.resolve name).2 := by
  unfold resolve
  split
  · exact .refl s
  · next hfind =>
    refine ⟨by simp [alloc], rfl, [(name, s.bindings.size)], rfl, fun p hp => ?_⟩
    obtain rfl := List.mem_singleton.mp hp
    exact ⟨not_holds_of_find? hfind, by simp [alloc]⟩

theorem declare_grown (s : Scopes) (name : String) (kind : BindingKind) (decl : Span) :
    s.Grown (s.declare name kind decl).2 := by
  have hdeclared : ∀ s' : Scopes, s'.bindings = s.bindings.push ⟨name, kind, some decl⟩ →
      s.Declared s' (name, s.bindings.size) := by
    intro s' hbindings
    exact ⟨Nat.le_refl _, kind, decl, by simp [hbindings]⟩
  unfold declare alloc
  dsimp only
  split
  · next hinner =>
    refine ⟨by simp, ⟨[], by simp [hinner], by simp⟩, [(name, s.bindings.size)], rfl,
      fun p hp => ?_⟩
    obtain rfl := List.mem_singleton.mp hp
    exact .inr ⟨hinner, hdeclared _ rfl⟩
  · next frame frames hinner =>
    refine ⟨by simp, ⟨[(name, s.bindings.size)], by simp [hinner], fun p hp => ?_⟩, [],
      rfl, by simp⟩
    obtain rfl := List.mem_singleton.mp hp
    exact hdeclared _ rfl

/-- What is declared in a scope goes with it. -/
theorem Grown.pop (h : s.push.Grown s') : s.Kept s'.pop := by
  obtain ⟨declared, hinner, -⟩ := h.inner
  obtain ⟨new, hfile, hnew⟩ := h.file
  rw [push, List.modifyHead_cons] at hinner
  simp only [Scopes.pop, hinner]
  refine ⟨h.bindings, rfl, new, hfile, fun p hp => ?_⟩
  -- The scope is there until it is left, so nothing is declared in the file.
  rcases hnew p hp with ⟨hnone, hp⟩ | ⟨hempty, -⟩
  · exact ⟨fun b hb => hnone b (holds_push.mpr hb), hp⟩
  · cases hempty

end Scopes

namespace Resolver

/-! ### Runs -/

/-- A name that is used. -/
theorem useIdent_kept (name : Name) (r : Resolver) : r.scopes.Kept (useIdent name r).2.scopes := by
  rw [useIdent_eq]
  dsimp only
  split
  · exact .refl r.scopes
  · exact Scopes.resolve_kept r.scopes name.text

theorem exprIdent_kept (name : Name) (r : Resolver) :
    r.scopes.Kept (exprIdent name r).2.scopes := by
  rw [exprIdent_eq]
  split
  · exact .refl r.scopes
  · exact useIdent_kept name r

/-- A name that is declared. -/
theorem declareIdent_grown (kind : BindingKind) (name : Name) (r : Resolver) :
    r.scopes.Grown (declareIdent kind name r).2.scopes := by
  rw [declareIdent_eq]
  dsimp only
  split
  · exact (Scopes.Kept.refl r.scopes).grown
  · exact Scopes.declare_grown r.scopes name.text kind name.span

theorem defineIdent_grown (name : Name) (r : Resolver) :
    r.scopes.Grown (defineIdent name r).2.scopes := by
  rw [defineIdent_eq]
  split
  · exact (Scopes.Kept.refl r.scopes).grown
  · split
    · exact (Scopes.Kept.refl r.scopes).grown
    · exact declareIdent_grown .var name r

/-- A scope of its own keeps what is declared inside from the scopes around. -/
theorem steps_scope_kept {r : Resolver} {as : List Act}
    (h : (r.step .enter).scopes.Grown ((r.step .enter).steps (Act.allEvents as)).scopes) :
    r.scopes.Kept (r.steps (Act.events (.scope as))).scopes := by
  rw [Act.events, steps_cons, steps_append, steps_cons, steps_nil]
  exact h.pop

mutual

theorem act_grown (a : Act) (r : Resolver) : r.scopes.Grown (r.steps a.events).scopes := by
  cases a with
  | value name =>
    rw [Act.events]
    exact (exprIdent_kept name r).grown
  | use name =>
    rw [Act.events]
    exact (useIdent_kept name r).grown
  | target name =>
    rw [Act.events]
    exact defineIdent_grown name r
  | declare kind name =>
    rw [Act.events]
    exact declareIdent_grown kind name r
  | scope as => exact (steps_scope_kept (acts_grown as _)).grown

/-- Acts change no scope but the innermost one, and the file. -/
theorem acts_grown (as : List Act) (r : Resolver) :
    r.scopes.Grown (r.steps (Act.allEvents as)).scopes := by
  cases as with
  | nil =>
    rw [Act.allEvents_nil]
    exact (Scopes.Kept.refl r.scopes).grown
  | cons a as =>
    rw [Act.allEvents_cons, steps_append]
    exact (act_grown a r).trans (acts_grown as _)

end

theorem act_kept {a : Act} (h : a.isPlain = true) (r : Resolver) :
    r.scopes.Kept (r.steps a.events).scopes := by
  cases a with
  | value name =>
    rw [Act.events]
    exact exprIdent_kept name r
  | use name =>
    rw [Act.events]
    exact useIdent_kept name r
  | target name => cases h
  | declare kind name => cases h
  | scope as => exact steps_scope_kept (acts_grown as _)

/-- Acts that declare nothing change no scope but the file. -/
theorem acts_kept {as : List Act} (h : ∀ a ∈ as, a.isPlain = true) (r : Resolver) :
    r.scopes.Kept (r.steps (Act.allEvents as)).scopes := by
  induction as generalizing r with
  | nil =>
    rw [Act.allEvents_nil]
    exact .refl r.scopes
  | cons a as ih =>
    obtain ⟨ha, has⟩ := List.forall_mem_cons.mp h
    rw [Act.allEvents_cons, steps_append]
    exact (act_kept ha r).trans (ih has _)

/-! ### Scopes that are left -/

/-- Events that leave no scope but those they have entered themselves. So they never leave that of
the file. -/
def Nested (r : Resolver) (es : List Event) : Prop :=
  ∀ before after, es = before ++ .leave :: after →
    r.scopes.inner.length < (r.steps before).scopes.inner.length

/-- A scope that is left by events one behind the other is left by the first ones or by the
second. -/
theorem exists_leave {es es' before after : List Event}
    (h : es ++ es' = before ++ .leave :: after) :
    (∃ rest, es = before ++ .leave :: rest) ∨
      ∃ before', before = es ++ before' ∧ es' = before' ++ .leave :: after := by
  rcases List.append_eq_append_iff.mp h with ⟨before', rfl, hes'⟩ | ⟨rest, rfl, hrest⟩
  · exact .inr ⟨before', rfl, hes'⟩
  · cases rest with
    | nil => exact .inr ⟨[], by simp, hrest.symm⟩
    | cons e rest =>
      obtain ⟨rfl, -⟩ := List.cons.inj hrest
      exact .inl ⟨rest, rfl⟩

theorem Nested.append {r : Resolver} {es es' : List Event} (h : r.Nested es)
    (hlength : (r.steps es).scopes.inner.length = r.scopes.inner.length)
    (h' : (r.steps es).Nested es') :
    r.Nested (es ++ es') := by
  intro before after hsplit
  rcases exists_leave hsplit with ⟨rest, hes⟩ | ⟨before', rfl, hes'⟩
  · exact h before rest hes
  · rw [steps_append, ← hlength]
    exact h' before' after hes'

theorem Nested.scope {r : Resolver} {es : List Event} (h : (r.step .enter).Nested es)
    (hlength : ((r.step .enter).steps es).scopes.inner.length = r.scopes.inner.length + 1) :
    r.Nested (.enter :: (es ++ [.leave])) := by
  intro before after hsplit
  cases before with
  | nil => cases hsplit
  | cons e before =>
    obtain ⟨rfl, hinside⟩ := List.cons.inj hsplit
    rw [steps_cons]
    rcases exists_leave hinside with ⟨rest, hes⟩ | ⟨before', rfl, hlast⟩
    · exact Nat.lt_of_succ_lt (h before rest hes)
    · -- What is left last is the scope that was entered first.
      obtain rfl : before' = [] := by
        cases before' with
        | nil => rfl
        | cons e before' => simp at hlast
      rw [List.append_nil, hlength]
      exact Nat.lt_succ_self _

mutual

theorem act_nested (a : Act) (r : Resolver) : r.Nested a.events := by
  have hname : ∀ e : Event, e ≠ .leave → r.Nested [e] := by
    intro e he before after hsplit
    cases before with
    | nil => exact absurd (List.cons.inj hsplit).1 he
    | cons e before => simp at hsplit
  cases a with
  | value name | use name | target name | declare kind name =>
    rw [Act.events]
    exact hname _ (by simp)
  | scope as =>
    rw [Act.events]
    exact (acts_nested as _).scope (acts_grown as _).length_inner

theorem acts_nested (as : List Act) (r : Resolver) : r.Nested (Act.allEvents as) := by
  cases as with
  | nil =>
    rw [Act.allEvents_nil]
    intro before after hsplit
    simp at hsplit
  | cons a as =>
    rw [Act.allEvents_cons]
    exact (act_nested a r).append (act_grown a r).length_inner (acts_nested as _)

end

/-! ### Parts of the resolver -/

/-- One state comes from another by events that leave only scopes they have entered. If every entry
of a scope points to a binding of its name at first, it does so all the time. -/
def Reaches (r r' : Resolver) : Prop :=
  ∃ es, r' = r.steps es ∧ r.Nested es ∧
    (r.scopes.Sound → ∀ before, before <+: es → (r.steps before).scopes.Sound)

/-- A state that comes from another and has the scopes of that one. -/
structure Keeps (r r' : Resolver) : Prop where
  reaches : r.Reaches r'
  scopes : r.scopes.Kept r'.scopes

/-- A state that comes from another and has the scopes of that one with more names in the
innermost. -/
structure Grows (r r' : Resolver) : Prop where
  reaches : r.Reaches r'
  scopes : r.scopes.Grown r'.scopes

theorem reaches_acts (as : List Act) (r : Resolver) : r.Reaches (r.steps (Act.allEvents as)) :=
  ⟨_, rfl, acts_nested as r, fun hsound before _ => sound_steps hsound before⟩

/-- Acts that declare nothing in the scope at hand. -/
theorem keeps_of_acts {r r' : Resolver} {as : List Act} (h : r' = r.steps (Act.allEvents as))
    (hplain : ∀ a ∈ as, a.isPlain = true) : r.Keeps r' := by
  rw [h]
  exact ⟨reaches_acts as r, acts_kept hplain r⟩

theorem grows_of_acts {r r' : Resolver} {as : List Act} (h : r' = r.steps (Act.allEvents as)) :
    r.Grows r' := by
  rw [h]
  exact ⟨reaches_acts as r, acts_grown as r⟩

end Resolver

namespace Surface

theorem isPlain_scope {as : List Act} : ∀ a ∈ [Act.scope as], a.isPlain = true := by
  simp [Act.isPlain]

theorem isPlain_clausesActs (text : Span → String) (cs : List Clause) :
    ∀ a ∈ clausesActs text cs, a.isPlain = true := by
  induction cs with
  | nil => simp [clausesActs]
  | cons c cs ih =>
    obtain ⟨span, values, comm, stmts⟩ := c
    rw [clausesActs]
    exact List.forall_mem_cons.mpr ⟨rfl, ih⟩

end Surface

namespace Resolver

/-- Scopes are nested. From every state an expression with the functions in it, a block, a
conditional, a loop, a switch, the cases of a statement and a function leave all scopes as they
were, but for names from outside that the file gains and that no scope had. A statement adds to the
innermost scope too. What is there of the bindings stays, no scope is left that was not entered on
the way, and every entry of a scope points to a binding of its name, if that is so at first. It is
so at the beginning of a file. -/
theorem resolution_nests_scopes (r : Resolver) :
    (∀ e, r.Keeps (resolveExpr e r).2) ∧
    (∀ body, r.Keeps (resolveBlock body r).2) ∧
    (∀ span init cond body orElse, r.Keeps (resolveStmt (.ifStmt span init cond body orElse) r).2) ∧
    (∀ span init cond post body, r.Keeps (resolveStmt (.loop span init cond post body) r).2) ∧
    (∀ span targets define subject body,
      r.Keeps (resolveStmt (.range span targets define subject body) r).2) ∧
    (∀ span init newName tag clauses,
      r.Keeps (resolveStmt (.switch span init newName tag clauses) r).2) ∧
    (∀ clauses, r.Keeps (resolveClauses clauses r).2) ∧
    (∀ span method name params body,
      r.Keeps (resolveDecl (.func span method name params body) r).2) ∧
    (∀ s, r.Grows (resolveStmt s r).2) ∧
    ∀ source decls, (start source decls).scopes.Sound ∧
      (start source decls).Keeps (resolveDecls decls (start source decls)).2 := by
  -- Each of these statements has one scope around all of its acts.
  have hscope : ∀ s, (∃ as, Surface.stmtActs (spanText r.source) s = [.scope as]) →
      r.Keeps (resolveStmt s r).2 := by
    rintro s ⟨as, has⟩
    apply keeps_of_acts (resolveStmt_makes s r rfl rfl).1
    rw [has]
    exact Surface.isPlain_scope
  refine ⟨fun e => ?_, fun body => ?_, ?_, ?_, ?_, ?_, fun clauses => ?_,
    fun span method name params body => ?_, fun s => ?_,
    fun source decls => ⟨Scopes.ofDecls_sound decls, ?_⟩⟩
  · exact keeps_of_acts (resolveExpr_makes e r rfl rfl).1 (Surface.isPlain_exprActs _ e)
  · exact keeps_of_acts (resolveBlock_makes body r rfl rfl).1 Surface.isPlain_scope
  · exact fun span init cond body orElse => hscope _ ⟨_, by rw [Surface.stmtActs]⟩
  · exact fun span init cond post body => hscope _ ⟨_, by rw [Surface.stmtActs]⟩
  · exact fun span targets define subject body => hscope _ ⟨_, by rw [Surface.stmtActs]⟩
  · exact fun span init newName tag clauses => hscope _ ⟨_, by rw [Surface.stmtActs]⟩
  · exact keeps_of_acts (resolveClauses_makes clauses r rfl rfl).1
      (Surface.isPlain_clausesActs _ clauses)
  · exact keeps_of_acts (resolveDecl_steps _ r).1 Surface.isPlain_scope
  · exact grows_of_acts (resolveStmt_makes s r rfl rfl).1
  · exact keeps_of_acts (resolveDecls_steps decls _).1 (Surface.isPlain_declsActs _ decls)

-- With no scope inside the file, what a statement declares goes to the file as well.
example : (resolveStmt (.assign default .define [.ident ⟨"x", default⟩] [.ident ⟨"y", default⟩])
    { source := []
      scopes := { bindings := #[⟨"f", .func, none⟩], file := [("f", 0)] } }).2.scopes.file =
    [("x", 2), ("y", 1), ("f", 0)] := by
  cbv

end Resolver

end NilGuard.Go
