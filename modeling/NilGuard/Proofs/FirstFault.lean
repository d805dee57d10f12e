import NilGuard.Proofs.Findings

/-!
The first fault. A conditional that compares with `nil` in a senseless way is at fault, and where a
searched block has such a conditional there are no findings. The places of the searched blocks are
in the order of their paths, in which a block comes before all that is inside it, so the fault of
the earliest place is the one that is given, whatever is found at other places.
-/

namespace NilGuard

open Go

/-! ### Failing computations -/

/-- What a computation fails with, if it fails. -/
def failure? : Except ε α → Option ε
  | .error e => some e
  | .ok _ => none

theorem failure?_eq_some {x : Except ε α} {e : ε} : failure? x = some e ↔ x = .error e := by
  cases x <;> simp [failure?]

theorem failure?_eq_none {x : Except ε α} : failure? x = none ↔ ∃ a, x = .ok a := by
  cases x <;> simp [failure?]

theorem failure?_bind (x : Except ε α) (next : α → Except ε β) :
    failure? (x >>= next) = match x with
      | .error e => some e
      | .ok a => failure? (next a) := by
  cases x <;> rfl

/-- What comes behind a computation and does not fail adds no failure. -/
theorem failure?_bind_pure (x : Except ε α) (g : α → β) :
    failure? (x >>= fun a => pure (g a)) = failure? x := by
  cases x <;> rfl

/-! ### Faults of statements and blocks -/

/-- What a conditional is at fault for. -/
def stmtFault? (f : File) : Stmt → Option Fault
  | .ifStmt _ _ cond body _ => failure? (guarded? f cond body)
  | _ => none

theorem stmtFault?_eq_some {f : File} {s : Stmt} {e : Fault} :
    stmtFault? f s = some e ↔ ∃ span init cond body orElse,
      s = .ifStmt span init cond body orElse ∧ guarded? f cond body = .error e := by
  cases s <;> simp [stmtFault?, failure?_eq_some]

theorem failure?_guardAt? (f : File) (s : Stmt) (ss : List Stmt) :
    failure? (guardAt? f (s :: ss)) = stmtFault? f s := by
  cases s with
  | ifStmt span init cond body orElse =>
    rw [guardAt?, stmtFault?, failure?_bind]
    cases guarded? f cond body with
    | error e => rfl
    | ok o => cases o <;> rfl
  | _ => rfl

theorem failure?_blockFindings (f : File) (ss : List Stmt) :
    failure? (blockFindings f ss) = ss.findSome? (stmtFault? f) := by
  induction ss with
  | nil => rfl
  | cons s ss ih =>
    rw [blockFindings, failure?_bind, List.findSome?_cons, ← failure?_guardAt? f s ss]
    cases guardAt? f (s :: ss) with
    | error e => rfl
    | ok o => exact (failure?_bind_pure _ _).trans ih

theorem failure?_allFindings (f : File) (bs : List Block) :
    failure? (allFindings f bs) = bs.findSome? fun b => b.stmts.findSome? (stmtFault? f) := by
  induction bs with
  | nil => rfl
  | cons b bs ih =>
    rw [allFindings, failure?_bind, List.findSome?_cons, ← failure?_blockFindings]
    cases blockFindings f b.stmts with
    | error e => rfl
    | ok xs => exact (failure?_bind_pure _ _).trans ih

theorem failure?_findings (f : File) :
    failure? (findings f) = f.sites.findSome? fun x => x.2.stmts.findSome? (stmtFault? f) := by
  rw [findings, failure?_bind_pure, failure?_allFindings, ← f.map_snd_sites, List.findSome?_map]
  rfl

/-! ### Places of faults -/

/-- Statement `k` of the searched block at `path` is a conditional at fault. -/
def Go.File.FaultAt (f : File) (path : List Nat) (k : Nat) (e : Fault) : Prop :=
  ∃ b span init cond body orElse, f.Scans path b ∧
    b.stmts[k]? = some (.ifStmt span init cond body orElse) ∧ guarded? f cond body = .error e

namespace Go.File.FaultAt

variable {f : File} {path : List Nat} {k : Nat} {e : Fault}

theorem iff_stmtFault? : f.FaultAt path k e ↔
    ∃ b s, (path, b) ∈ f.sites ∧ b.stmts[k]? = some s ∧ stmtFault? f s = some e := by
  constructor
  · rintro ⟨b, span, init, cond, body, orElse, hscans, hif, hguarded⟩
    exact ⟨b, _, mem_sites.mpr hscans, hif, stmtFault?_eq_some.mpr ⟨_, _, _, _, _, rfl, hguarded⟩⟩
  · rintro ⟨b, s, hsite, hs, hfault⟩
    obtain ⟨span, init, cond, body, orElse, rfl, hguarded⟩ := stmtFault?_eq_some.mp hfault
    exact ⟨b, span, init, cond, body, orElse, mem_sites.mp hsite, hs, hguarded⟩

/-- One place has one fault. -/
theorem unique {e' : Fault} (h : f.FaultAt path k e) (h' : f.FaultAt path k e') : e = e' := by
  obtain ⟨b, span, init, cond, body, orElse, hscans, hif, hguarded⟩ := h
  obtain ⟨b', span', init', cond', body', orElse', hscans', hif', hguarded'⟩ := h'
  obtain rfl : b = b' := by simpa [hscans.follow_eq] using hscans'.follow_eq
  rw [hif] at hif'
  cases hif'
  rw [hguarded] at hguarded'
  cases hguarded'
  rfl

/-- Where something is at fault there are no findings. -/
theorem exists_error (h : f.FaultAt path k e) : ∃ e', findings f = .error e' := by
  obtain ⟨b, s, hsite, hs, hfault⟩ := iff_stmtFault?.mp h
  cases hfailure : failure? (findings f) with
  | some e' => exact ⟨e', failure?_eq_some.mp hfailure⟩
  | none =>
    rw [failure?_findings, List.findSome?_eq_none_iff] at hfailure
    have hblock := List.findSome?_eq_none_iff.mp (hfailure _ hsite)
    rw [hblock s (List.mem_of_getElem? hs)] at hfault
    cases hfault

end Go.File.FaultAt

/-- A fault is given for a place, and every other place of a fault comes later. -/
theorem exists_first_fault {f : File} {e : Fault} (h : findings f = .error e) :
    ∃ path k, f.FaultAt path k e ∧ ∀ path' k' e', f.FaultAt path' k' e' →
      (path', k') = (path, k) ∨ Earlier (path, k) (path', k') := by
  rw [← failure?_eq_some, failure?_findings, List.findSome?_eq_some_iff] at h
  obtain ⟨front, ⟨path, b⟩, back, hsites, hb, hfront⟩ := h
  obtain ⟨before, s, after, hstmts, hs, hbefore⟩ := List.findSome?_eq_some_iff.mp hb
  have hsite : (path, b) ∈ f.sites := by simp [hsites]
  refine ⟨path, before.length,
    File.FaultAt.iff_stmtFault?.mpr ⟨b, s, hsite, by simp [hstmts], hs⟩, ?_⟩
  intro path' k' e' hfault
  obtain ⟨b', s', hsite', hs', he'⟩ := File.FaultAt.iff_stmtFault?.mp hfault
  have hsorted := f.sites_pairwise
  rw [hsites] at hsite' hsorted
  rcases List.mem_append.mp hsite' with hmem | hmem
  · -- the blocks that were passed over have no fault
    have hnone := List.findSome?_eq_none_iff.mp (hfront _ hmem)
    rw [hnone s' (List.mem_of_getElem? hs')] at he'
    cases he'
  rcases List.mem_cons.mp hmem with heq | hmem
  · cases heq
    rcases Nat.lt_trichotomy k' before.length with hlt | rfl | hlt
    · -- nor have the statements in front
      rw [hstmts, List.getElem?_append_left hlt] at hs'
      rw [hbefore s' (List.mem_of_getElem? hs')] at he'
      cases he'
    · exact .inl rfl
    · exact .inr (.inr ⟨rfl, hlt⟩)
  · exact .inr (.inl (List.rel_of_pairwise_cons (List.pairwise_append.mp hsorted).2.1 hmem))

/-- The first fault. There are no findings exactly when a conditional among the statements of a
searched block is at fault. What is given then is the fault of the earliest place: that of the first
block in the order of a walk, and of the first statement in the block, before any block inside
it. -/
theorem first_fault_given (f : File) :
    ((∃ e, findings f = .error e) ↔ ∃ path k e, f.FaultAt path k e) ∧
    ∀ e, findings f = .error e ↔ ∃ path k, f.FaultAt path k e ∧
      ∀ path' k' e', f.FaultAt path' k' e' →
        (path', k') = (path, k) ∨ Earlier (path, k) (path', k') := by
  refine ⟨⟨?_, ?_⟩, fun e => ⟨exists_first_fault, ?_⟩⟩
  · rintro ⟨e, he⟩
    obtain ⟨path, k, hfault, -⟩ := exists_first_fault he
    exact ⟨path, k, e, hfault⟩
  · rintro ⟨path, k, e, hfault⟩
    exact hfault.exists_error
  · rintro ⟨path, k, hfault, hfirst⟩
    obtain ⟨e', he'⟩ := hfault.exists_error
    obtain ⟨path', k', hfault', hfirst'⟩ := exists_first_fault he'
    -- each of the two places comes no later than the other
    rcases hfirst path' k' e' hfault' with heq | hlt
    · cases heq
      rw [he', hfault.unique hfault']
    · rcases hfirst' path k e hfault with heq | hlt'
      · cases heq
        exact absurd hlt hlt.asymm
      · exact absurd hlt' hlt.asymm

/-- Two comparisons of blank names, the first of them in a block of its own. -/
def nestedFaults : File where
  path := "p.go"
  source := ""
  decls := [.func ⟨0, 70, 1, 1⟩ "f" (some (.mk ⟨10, 70, 1, 11⟩ [
    .block ⟨12, 40, 2, 1⟩ (.mk ⟨12, 40, 2, 1⟩ [
      .ifStmt ⟨14, 38, 3, 1⟩ none
        (.binary ⟨17, 25, 3, 4⟩ .ne (.ident ⟨17, 18, 3, 4⟩ 0) (.ident ⟨22, 25, 3, 9⟩ 1))
        (.mk ⟨26, 38, 3, 13⟩ [.returnStmt ⟨28, 34, 3, 15⟩ []]) none]),
    .ifStmt ⟨42, 66, 5, 1⟩ none
      (.binary ⟨45, 53, 5, 4⟩ .ne (.ident ⟨45, 46, 5, 4⟩ 2) (.ident ⟨50, 53, 5, 9⟩ 3))
      (.mk ⟨54, 66, 5, 13⟩ [.returnStmt ⟨56, 62, 5, 15⟩ []]) none]))]
  idents := #[⟨"_", none, ⟨17, 18, 3, 4⟩⟩, ⟨"nil", none, ⟨22, 25, 3, 9⟩⟩,
    ⟨"_", none, ⟨45, 46, 5, 4⟩⟩, ⟨"nil", none, ⟨50, 53, 5, 9⟩⟩]
  bindings := #[]

/-- The statements of a block come before the blocks inside it. -/
example : findings nestedFaults = .error (.variableUnbound "_" "p.go" 5 4) := by cbv

end NilGuard
