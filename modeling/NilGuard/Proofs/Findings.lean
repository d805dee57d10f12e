import Mathlib
import NilGuard.Proofs.InPlace
import NilGuard.Proofs.Runs

/-!
What the findings of a file are. A guard stands at a place: the path of a searched block and the
number of a statement in it. Every finding is a read that some guard proves to be nil, every such
read is found, and when no two identifiers begin at one offset each is found once, under the first
guard that proves it.
-/

namespace NilGuard

open Go

/-! ### Reads of a variable -/

section Congr

variable {f g : File} {b c : BindingId}

theorem writes_congr (h : ∀ i, g.refersTo i c = f.refersTo i b) (s : Stmt) :
    writes g c s = writes f b s := by
  have hvariable : isVariable g c = isVariable f b := by
    funext e
    cases e with
    | ident span id => exact h id
    | _ => rfl
  have hhere : writesHere g c = writesHere f b := by
    funext n
    unfold writesHere
    rw [hvariable]
  rw [writes, writes, hhere]

theorem occurrences_congr (h : ∀ i, g.refersTo i c = f.refersTo i b) (s : Stmt) :
    occurrences g c s = occurrences f b s := by
  have hoccurrence : occurrence? g c = occurrence? f b := by
    funext n
    unfold occurrence?
    simp only [h]
  rw [occurrences, occurrences, hoccurrence]

/-- What is read of a variable depends on which identifiers stand for it. -/
theorem firstReads_congr (h : ∀ i, g.refersTo i c = f.refersTo i b) (ss : List Stmt) :
    firstReads g c ss = firstReads f b ss := by
  induction ss with
  | nil => rfl
  | cons s ss ih => simp only [firstReads, writes_congr h, occurrences_congr h, ih]

end Congr

/-! ### What a guard proves -/

/-- The read is in the first statement that has any, and no statement up to that one writes the
variable. -/
def Guard.ProvesNil (g : Guard) (f : File) (i : IdentId) : Prop :=
  ∃ before s after, g.remainder = before ++ s :: after ∧
    (∀ t ∈ before, writes f g.binding t = false ∧ occurrences f g.binding t = []) ∧
    writes f g.binding s = false ∧ i ∈ occurrences f g.binding s

theorem mem_firstReads {f : File} {b : BindingId} {ss : List Stmt} {i : IdentId} :
    i ∈ firstReads f b ss ↔ ∃ before s after, ss = before ++ s :: after ∧
      (∀ t ∈ before, writes f b t = false ∧ occurrences f b t = []) ∧
      writes f b s = false ∧ i ∈ occurrences f b s := by
  induction ss with
  | nil => simp [firstReads]
  | cons s ss ih =>
    rw [firstReads]
    constructor
    · intro h
      split at h
      · cases h
      · next hw =>
        rw [Bool.not_eq_true] at hw
        split at h
        · next hnone =>
          obtain ⟨before, t, after, rfl, hbefore, ht⟩ := ih.mp h
          exact ⟨s :: before, t, after, rfl, List.forall_mem_cons.mpr ⟨⟨hw, hnone⟩, hbefore⟩, ht⟩
        · exact ⟨[], s, ss, rfl, by simp, hw, h⟩
    · rintro ⟨before, t, after, hss, hbefore, hw, hi⟩
      cases before with
      | nil =>
        obtain ⟨rfl, rfl⟩ := List.cons.inj hss
        rw [if_neg (by simp [hw])]
        split
        · next hnone => simp [hnone] at hi
        · exact hi
      | cons u before =>
        obtain ⟨rfl, rfl⟩ := List.cons.inj hss
        obtain ⟨⟨hw', hnone⟩, hbefore⟩ := List.forall_mem_cons.mp hbefore
        rw [if_neg (by simp [hw'])]
        simp only [hnone]
        exact ih.mpr ⟨before, t, after, rfl, hbefore, hw, hi⟩

theorem Guard.mem_reads {g : Guard} {f : File} {i : IdentId} : i ∈ g.reads f ↔ g.ProvesNil f i :=
  mem_firstReads

/-- What a guard proves nil stands for the guarded variable. -/
theorem Guard.ProvesNil.refersTo {g : Guard} {f : File} {i : IdentId} (h : g.ProvesNil f i) :
    f.refersTo i g.binding = true := by
  obtain ⟨_, s, _, -, -, -, hi⟩ := h
  obtain ⟨n, -, hn⟩ := List.mem_filterMap.mp hi
  exact (occurrence?_eq_some.mp hn).2

theorem Go.File.refersTo_iff {f : File} {i : IdentId} {b : BindingId} :
    f.refersTo i b = true ↔ ∃ x, f.idents[i]? = some x ∧ x.binding = some b := by
  simp [File.refersTo, Option.any_eq_true]

/-! ### What a condition guards -/

/-- A comparison with `nil` is a `!=` of two names of which one is `nil`. -/
theorem nilComparison?_eq_some {f : File} {cond : Expr} {v n : IdentId} :
    nilComparison? f cond = some (v, n) ↔ f.isNil v = false ∧ f.isNil n = true ∧
      ∃ span lspan l rspan r, cond = .binary span .ne (.ident lspan l) (.ident rspan r) ∧
        ((l, r) = (v, n) ∨ (l, r) = (n, v)) := by
  constructor
  · intro h
    unfold nilComparison? at h
    split at h
    · next span lspan l rspan r =>
      split at h
      · next hl hr => cases h; exact ⟨hl, hr, span, lspan, _, rspan, _, rfl, .inl rfl⟩
      · next hl hr => cases h; exact ⟨hr, hl, span, lspan, _, rspan, _, rfl, .inr rfl⟩
      · cases h
    · cases h
  · rintro ⟨hv, hn, span, lspan, l, rspan, r, rfl, hsides⟩
    rcases hsides with hsides | hsides <;> cases hsides <;> simp [nilComparison?, hv, hn]

/-- Both sides of a comparison with `nil` are parts of it. -/
theorem sides_mem_children {f : File} {cond : Expr} {v n : IdentId}
    (h : nilComparison? f cond = some (v, n)) :
    (∃ span, Node.expr (.ident span v) ∈ (Node.expr cond).children) ∧
      ∃ span, Node.expr (.ident span n) ∈ (Node.expr cond).children := by
  obtain ⟨-, -, span, lspan, l, rspan, r, rfl, hsides⟩ := nilComparison?_eq_some.mp h
  rcases hsides with hsides | hsides <;> cases hsides <;> simp [Node.children, Node.ofExpr]

/-- What can come of a condition and a body. -/
inductive GuardedAs (f : File) (cond : Expr) (body : Block) :
    Except Fault (Option BindingId) → Prop where
  /-- There is no return at the end, or no comparison with `nil`. -/
  | nothing (h : endsInReturn body = true → nilComparison? f cond = none) :
      GuardedAs f cond body (.ok none)
  | guards {v n : IdentId} {b : BindingId} (hreturn : endsInReturn body = true)
      (hcomparison : nilComparison? f cond = some (v, n))
      (hn : (f.idents[n]?.getD default).binding = none)
      (hv : (f.idents[v]?.getD default).binding = some b) : GuardedAs f cond body (.ok (some b))
  /-- The literal stands for a variable. -/
  | nilBound {v n : IdentId} {c : BindingId} (hreturn : endsInReturn body = true)
      (hcomparison : nilComparison? f cond = some (v, n))
      (hn : (f.idents[n]?.getD default).binding = some c) :
      GuardedAs f cond body (.error (.nilBound f.path (f.idents[n]?.getD default).span.line
        (f.idents[n]?.getD default).span.column))
  /-- The name stands for no variable. -/
  | unbound {v n : IdentId} (hreturn : endsInReturn body = true)
      (hcomparison : nilComparison? f cond = some (v, n))
      (hn : (f.idents[n]?.getD default).binding = none)
      (hv : (f.idents[v]?.getD default).binding = none) :
      GuardedAs f cond body (.error (.variableUnbound (f.idents[v]?.getD default).name f.path
        (f.idents[v]?.getD default).span.line (f.idents[v]?.getD default).span.column))

theorem guardedAs_guarded? (f : File) (cond : Expr) (body : Block) :
    GuardedAs f cond body (guarded? f cond body) := by
  unfold guarded?
  split
  · next hreturn =>
    split
    · next hnone => exact .nothing fun _ => hnone
    · next v n hcomparison =>
      dsimp only
      split
      · next hn => exact .nilBound hreturn hcomparison hn
      · next hn hv => exact .unbound hreturn hcomparison hn hv
      · next hn hv => exact .guards hreturn hcomparison hn hv
  · next hreturn => exact .nothing fun h => absurd h hreturn

theorem guarded?_eq_some {f : File} {cond : Expr} {body : Block} {b : BindingId} :
    guarded? f cond body = .ok (some b) ↔ endsInReturn body = true ∧ ∃ v n,
      nilComparison? f cond = some (v, n) ∧ (f.idents[v]?.getD default).binding = some b ∧
      (f.idents[n]?.getD default).binding = none := by
  constructor
  · intro h
    cases h ▸ guardedAs_guarded? f cond body with
    | guards hreturn hcomparison hn hv => exact ⟨hreturn, _, _, hcomparison, hv, hn⟩
  · rintro ⟨hreturn, v, n, hcomparison, hv, hn⟩
    simp [guarded?, hreturn, hcomparison, hv, hn]

/-! ### Guards of a file -/

theorem guardAt?_eq_some {f : File} {ss : List Stmt} {g : Guard} :
    guardAt? f ss = .ok (some g) ↔ ∃ span init cond body orElse rest,
      ss = .ifStmt span init cond body orElse :: rest ∧
      guarded? f cond body = .ok (some g.binding) ∧ g.span = cond.span ∧
      g.remainder = orElse.toList ++ rest := by
  constructor
  · intro h
    unfold guardAt? at h
    split at h
    · next span init cond body orElse rest =>
      cases hg : guarded? f cond body with
      | error e => simp [hg, bind, Except.bind] at h
      | ok o =>
        cases o with
        | none => simp [hg, bind, Except.bind, pure, Except.pure] at h
        | some b =>
          simp only [hg, bind, Except.bind, pure, Except.pure, Except.ok.injEq,
            Option.some.injEq] at h
          subst h
          exact ⟨span, init, cond, body, orElse, rest, rfl, hg, rfl, rfl⟩
    · simp [pure, Except.pure] at h
  · rintro ⟨span, init, cond, body, orElse, rest, rfl, hg, hspan, hrem⟩
    simp [guardAt?, hg, ← hspan, ← hrem, bind, Except.bind, pure, Except.pure]

/-- The guards among the statements of a block with their numbers, counted from `k`. -/
def guardsFrom (f : File) (k : Nat) : List Stmt → List (Nat × Guard)
  | [] => []
  | s :: ss =>
    (match guardAt? f (s :: ss) with
      | .ok (some g) => [(k, g)]
      | _ => []) ++ guardsFrom f (k + 1) ss

theorem mem_guardsFrom {f : File} {k j : Nat} {ss : List Stmt} {g : Guard} :
    (j, g) ∈ guardsFrom f k ss ↔ ∃ i, j = k + i ∧ guardAt? f (ss.drop i) = .ok (some g) := by
  induction ss generalizing k with
  | nil => simp [guardsFrom, guardAt?, pure, Except.pure]
  | cons s ss ih =>
    have hhead : (j, g) ∈ (match guardAt? f (s :: ss) with
        | .ok (some g) => [(k, g)]
        | _ => []) ↔ j = k ∧ guardAt? f (s :: ss) = .ok (some g) := by
      split
      · next g' h => simp [h, eq_comm]
      · next h => simpa using fun _ => h g
    rw [guardsFrom, List.mem_append, hhead, ih]
    constructor
    · rintro (⟨rfl, h⟩ | ⟨i, rfl, h⟩)
      · exact ⟨0, rfl, h⟩
      · exact ⟨i + 1, by omega, h⟩
    · rintro ⟨i, rfl, h⟩
      cases i with
      | zero => exact .inl ⟨rfl, h⟩
      | succ i => exact .inr ⟨i, by omega, h⟩

theorem guardsFrom_pairwise (f : File) (k : Nat) (ss : List Stmt) :
    (guardsFrom f k ss).Pairwise (·.1 < ·.1) := by
  induction ss generalizing k with
  | nil => exact .nil
  | cons s ss ih =>
    refine List.pairwise_append.mpr ⟨?_, ih (k + 1), ?_⟩
    · split
      · exact List.pairwise_singleton ..
      · exact .nil
    · rintro ⟨i, g⟩ hx ⟨j, g'⟩ hy
      obtain ⟨n, rfl, -⟩ := mem_guardsFrom.mp hy
      split at hx
      · cases List.mem_singleton.mp hx
        exact Nat.lt_of_lt_of_le (Nat.lt_succ_self k) (Nat.le_add_right ..)
      · cases hx

/-- Statement `k` of the searched block at `path` is a guard. -/
def Go.File.HasGuard (f : File) (path : List Nat) (k : Nat) (g : Guard) : Prop :=
  ∃ b span init cond body orElse, f.Scans path b ∧
    b.stmts[k]? = some (.ifStmt span init cond body orElse) ∧
    guarded? f cond body = .ok (some g.binding) ∧ g.span = cond.span ∧
    g.remainder = orElse.toList ++ b.stmts.drop (k + 1)

/-- The place of a guard comes before another: its block does, or it has a smaller number in the
same block. -/
def Earlier (s t : List Nat × Nat) : Prop :=
  s.1 < t.1 ∨ s.1 = t.1 ∧ s.2 < t.2

theorem Earlier.asymm {s t : List Nat × Nat} (h : Earlier s t) : ¬ Earlier t s := by
  rintro (hp | ⟨hp, hk⟩) <;> rcases h with h | ⟨h, hk'⟩
  · exact List.lt_asymm h hp
  · exact List.lt_irrefl _ (h ▸ hp)
  · exact List.lt_irrefl _ (hp ▸ h)
  · omega

/-- The guards of a file with their places. -/
def Go.File.guards (f : File) : List ((List Nat × Nat) × Guard) :=
  f.sites.flatMap fun (path, b) => (guardsFrom f 0 b.stmts).map fun (k, g) => ((path, k), g)

theorem Go.File.mem_guards {f : File} {path : List Nat} {k : Nat} {g : Guard} :
    ((path, k), g) ∈ f.guards ↔ f.HasGuard path k g := by
  have hmem : ((path, k), g) ∈ f.guards ↔ ∃ b, f.Scans path b ∧
      (k, g) ∈ guardsFrom f 0 b.stmts := by
    simp only [guards, List.mem_flatMap, List.mem_map, Prod.exists, Prod.mk.injEq]
    constructor
    · rintro ⟨p, b, hb, j, g', hg, ⟨rfl, rfl⟩, rfl⟩
      exact ⟨b, mem_sites.mp hb, hg⟩
    · rintro ⟨b, hb, hg⟩
      exact ⟨path, b, mem_sites.mpr hb, k, g, hg, ⟨rfl, rfl⟩, rfl⟩
  rw [hmem]
  constructor
  · rintro ⟨b, hb, hg⟩
    obtain ⟨i, hk, hg⟩ := mem_guardsFrom.mp hg
    rw [Nat.zero_add] at hk
    subst hk
    obtain ⟨span, init, cond, body, orElse, rest, hdrop, h, hspan, hrem⟩ := guardAt?_eq_some.mp hg
    have hget := congrArg (·[0]?) hdrop
    have htail := congrArg List.tail hdrop
    rw [List.getElem?_drop, Nat.add_zero, List.getElem?_cons_zero] at hget
    rw [List.tail_drop, List.tail_cons] at htail
    exact ⟨b, span, init, cond, body, orElse, hb, hget, h, hspan, htail ▸ hrem⟩
  · rintro ⟨b, span, init, cond, body, orElse, hb, hget, h, hspan, hrem⟩
    refine ⟨b, hb, mem_guardsFrom.mpr ⟨k, (Nat.zero_add k).symm, ?_⟩⟩
    refine guardAt?_eq_some.mpr ⟨span, init, cond, body, orElse, b.stmts.drop (k + 1), ?_, h,
      hspan, hrem⟩
    obtain ⟨hk, hget⟩ := List.getElem?_eq_some_iff.mp hget
    rw [← hget, ← List.drop_eq_getElem_cons hk]

theorem Go.File.guards_pairwise (f : File) : f.guards.Pairwise fun s t => Earlier s.1 t.1 := by
  rw [guards, List.pairwise_flatMap]
  refine ⟨fun ⟨path, b⟩ _ => ?_, f.sites_pairwise.imp fun {s t} hst x hx y hy => ?_⟩
  · exact (guardsFrom_pairwise f 0 b.stmts).map _ fun x y hxy => .inr ⟨rfl, hxy⟩
  · obtain ⟨⟨k, g⟩, -, rfl⟩ := List.mem_map.mp hx
    obtain ⟨⟨k', g'⟩, -, rfl⟩ := List.mem_map.mp hy
    exact .inl hst

/-! ### Findings -/

/-- The findings of one guard. -/
def Guard.findings (g : Guard) (f : File) : List Finding :=
  (g.reads f).map (findingOf f g)

theorem blockFindings_eq {f : File} {ss : List Stmt} {xs : List Finding} (k : Nat)
    (h : blockFindings f ss = .ok xs) :
    xs = (guardsFrom f k ss).flatMap fun (_, g) => g.findings f := by
  induction ss generalizing k xs with
  | nil => cases h; rfl
  | cons s ss ih =>
    rw [blockFindings] at h
    cases hg : guardAt? f (s :: ss) with
    | error e => simp [hg, bind, Except.bind] at h
    | ok o =>
      cases hrest : blockFindings f ss with
      | error e => simp [hg, hrest, bind, Except.bind] at h
      | ok ys =>
        simp only [hg, hrest, bind, Except.bind, pure, Except.pure, Except.ok.injEq] at h
        rw [← h, guardsFrom, hg, List.flatMap_append, ← ih (k + 1) hrest]
        cases o with
        | none => rfl
        | some g => simp [Guard.findings]

theorem allFindings_eq {f : File} {sites : List (List Nat × Block)} {xs : List Finding}
    (h : allFindings f (sites.map (·.2)) = .ok xs) :
    xs = sites.flatMap fun (_, b) => (guardsFrom f 0 b.stmts).flatMap fun (_, g) =>
      g.findings f := by
  induction sites generalizing xs with
  | nil => cases h; rfl
  | cons site sites ih =>
    obtain ⟨path, b⟩ := site
    rw [List.map_cons, allFindings] at h
    cases hb : blockFindings f b.stmts with
    | error e => simp [hb, bind, Except.bind] at h
    | ok ys =>
      cases hrest : allFindings f (sites.map (·.2)) with
      | error e => simp [hb, hrest, bind, Except.bind] at h
      | ok zs =>
        simp only [hb, hrest, bind, Except.bind, pure, Except.pure, Except.ok.injEq] at h
        rw [← h, List.flatMap_cons, ← ih hrest, blockFindings_eq 0 hb]

/-- All findings before they are put in order. -/
def Go.File.raw (f : File) : List Finding :=
  f.guards.flatMap fun (_, g) => g.findings f

theorem findings_eq {f : File} {xs : List Finding} (h : findings f = .ok xs) :
    xs = firsts (·.ident) (sortedBy (·.span.start) f.raw) := by
  rw [findings, ← f.map_snd_sites] at h
  cases hall : allFindings f (f.sites.map (·.2)) with
  | error e => simp [hall, bind, Except.bind] at h
  | ok found =>
    simp only [hall, bind, Except.bind, pure, Except.pure, Except.ok.injEq] at h
    rw [← h, allFindings_eq hall, File.raw, File.guards, List.flatMap_assoc]
    simp only [List.flatMap_map]

theorem mem_raw {f : File} {x : Finding} :
    x ∈ f.raw ↔ ∃ path k g, f.HasGuard path k g ∧ g.ProvesNil f x.ident ∧
      x = findingOf f g x.ident := by
  simp only [File.raw, Guard.findings, List.mem_flatMap, List.mem_map, Prod.exists]
  constructor
  · rintro ⟨path, k, g, hg, i, hi, rfl⟩
    exact ⟨path, k, g, File.mem_guards.mp hg, Guard.mem_reads.mp hi, rfl⟩
  · rintro ⟨path, k, g, hg, hi, hx⟩
    exact ⟨path, k, g, File.mem_guards.mpr hg, x.ident, Guard.mem_reads.mpr hi, hx.symm⟩

theorem mem_raw_of_findings {f : File} {xs : List Finding} (h : findings f = .ok xs) {x : Finding}
    (hx : x ∈ xs) : x ∈ f.raw := by
  rw [findings_eq h] at hx
  exact List.mem_mergeSort.mp ((firsts_sublist _ _).subset hx)

/-- What a guard proves nil is found. -/
theorem exists_mem_findings {f : File} {xs : List Finding} (h : findings f = .ok xs)
    {path : List Nat} {k : Nat} {g : Guard} (hg : f.HasGuard path k g) {i : IdentId}
    (hi : g.ProvesNil f i) :
    ∃ x ∈ xs, x.ident = i := by
  have hraw : findingOf f g i ∈ f.raw := mem_raw.mpr ⟨path, k, g, hg, hi, rfl⟩
  have hsorted : findingOf f g i ∈ sortedBy (·.span.start) f.raw := List.mem_mergeSort.mpr hraw
  obtain ⟨x, hx, hxi⟩ := exists_mem_firsts (·.ident) hsorted
  exact ⟨x, findings_eq h ▸ hx, hxi⟩

/-- No two identifiers begin at one offset. -/
def Go.File.StartsDistinct (f : File) : Prop :=
  ∀ (i j : IdentId) (x y : Ident), f.idents[i]? = some x → f.idents[j]? = some y →
    x.span.start = y.span.start → i = j

theorem Go.File.startsDistinct_of_nodup {f : File}
    (h : (f.idents.toList.map (·.span.start)).Nodup) :
    f.StartsDistinct := by
  intro i j x y hx hy hxy
  have hget : ∀ {k : Nat} {z : Ident}, f.idents[k]? = some z →
      (f.idents.toList.map (·.span.start))[k]? = some z.span.start := by
    intro k z hz
    simp [hz]
  have hlt := (List.getElem?_eq_some_iff.mp (hget hx)).1
  exact (List.getElem?_inj hlt h).mp ((hget hx).trans (by rw [hxy, hget hy]))

theorem span_of_mem_raw {f : File} {x : Finding} (h : x ∈ f.raw) :
    ∃ ident, f.idents[x.ident]? = some ident ∧ x.span = ident.span := by
  obtain ⟨_, _, g, -, hi, hx⟩ := mem_raw.mp h
  obtain ⟨ident, hident, -⟩ := File.refersTo_iff.mp hi.refersTo
  refine ⟨ident, hident, ?_⟩
  rw [hx]
  simp [findingOf, hident]

theorem ident_iff_start {f : File} (hf : f.StartsDistinct) :
    ∀ x ∈ f.raw, ∀ y ∈ f.raw, x.ident = y.ident ↔ x.span.start = y.span.start := by
  intro x hx y hy
  obtain ⟨a, ha, hxa⟩ := span_of_mem_raw hx
  obtain ⟨b, hb, hyb⟩ := span_of_mem_raw hy
  constructor
  · intro h
    rw [h, hb, Option.some.injEq] at ha
    rw [hxa, hyb, ha]
  · intro h
    exact hf _ _ a b ha hb (by rw [← hxa, ← hyb, h])

/-- The first guard in the order of places that proves a read decides what is reported for it. -/
theorem exists_first_guard {f : File} {x : Finding}
    (h : f.raw.find? (·.ident == x.ident) = some x) :
    ∃ path k g, f.HasGuard path k g ∧ g.ProvesNil f x.ident ∧ x = findingOf f g x.ident ∧
      ∀ path' k' g', f.HasGuard path' k' g' → g'.ProvesNil f x.ident →
        ¬ Earlier (path', k') (path, k) := by
  rw [File.raw, List.find?_flatMap, List.findSome?_eq_some_iff] at h
  obtain ⟨before, ⟨⟨path, k⟩, g⟩, after, hguards, hfind, hbefore⟩ := h
  have hx := List.mem_of_find?_eq_some hfind
  obtain ⟨i, hi, hfound⟩ := List.mem_map.mp hx
  obtain rfl : i = x.ident := by rw [← hfound]; rfl
  have hg : f.HasGuard path k g := File.mem_guards.mp (by rw [hguards]; simp)
  refine ⟨path, k, g, hg, Guard.mem_reads.mp hi, hfound.symm, fun path' k' g' hg' hi' hlt => ?_⟩
  have hmem := File.mem_guards.mpr hg'
  have hsorted := f.guards_pairwise
  rw [hguards] at hmem hsorted
  rcases List.mem_append.mp hmem with hmem | hmem
  · -- A guard that was passed over finds nothing for this read.
    have hnone := hbefore _ hmem
    rw [List.find?_eq_none] at hnone
    exact hnone (findingOf f g' x.ident) (List.mem_map.mpr ⟨_, Guard.mem_reads.mpr hi', rfl⟩)
      (by simp [findingOf])
  · rcases List.mem_cons.mp hmem with heq | hmem
    · cases heq
      exact hlt.asymm hlt
    · exact hlt.asymm (List.rel_of_pairwise_cons (List.pairwise_append.mp hsorted).2.1 hmem)

/-- When no two identifiers begin at one offset each is found once. -/
theorem findings_pairwise {f : File} (hf : f.StartsDistinct) {xs : List Finding}
    (h : findings f = .ok xs) : xs.Pairwise fun x y => x.ident ≠ y.ident := by
  rw [findings_eq h]
  refine (firsts_sort_pairwise_lt (ident_iff_start hf)).imp_of_mem fun {x y} hx hy hlt heq => ?_
  have hraw : ∀ z ∈ firsts (·.ident) (sortedBy (·.span.start) f.raw), z ∈ f.raw :=
    fun z hz => List.mem_mergeSort.mp ((firsts_sublist _ _).subset hz)
  have := (ident_iff_start hf x (hraw x hx) y (hraw y hy)).mp heq
  omega

/-- The findings of a file. An occurrence is reported exactly when a guard in a searched block
proves it nil; the report is in the order of the source; and when no two identifiers begin at one
offset, each occurrence is reported once, for the first guard that proves it. -/
theorem findings_characterized {f : File} {xs : List Finding} (h : findings f = .ok xs) :
    (∀ i, (∃ x ∈ xs, x.ident = i) ↔ ∃ path k g, f.HasGuard path k g ∧ g.ProvesNil f i) ∧
    (∀ x ∈ xs, ∃ g, x = findingOf f g x.ident) ∧
    xs.Pairwise (fun x y => x.span.start ≤ y.span.start) ∧
    (f.StartsDistinct →
      xs.Pairwise (fun x y => x.ident ≠ y.ident) ∧
      ∀ x ∈ xs, ∃ path k g, f.HasGuard path k g ∧ g.ProvesNil f x.ident ∧
        x = findingOf f g x.ident ∧
        ∀ path' k' g', f.HasGuard path' k' g' → g'.ProvesNil f x.ident →
          ¬ Earlier (path', k') (path, k)) := by
  have hxs := findings_eq h
  subst hxs
  have hraw : ∀ {x}, x ∈ firsts (·.ident) (sortedBy (·.span.start) f.raw) → x ∈ f.raw :=
    fun hx => List.mem_mergeSort.mp ((firsts_sublist _ _).subset hx)
  refine ⟨fun i => ⟨?_, ?_⟩, fun x hx => ?_, firsts_sort_pairwise _ _ _,
    fun hf => ⟨?_, fun x hx => ?_⟩⟩
  · rintro ⟨x, hx, rfl⟩
    obtain ⟨path, k, g, hg, hi, -⟩ := mem_raw.mp (hraw hx)
    exact ⟨path, k, g, hg, hi⟩
  · rintro ⟨path, k, g, hg, hi⟩
    exact exists_mem_findings h hg hi
  · obtain ⟨_, _, g, -, -, hx⟩ := mem_raw.mp (hraw hx)
    exact ⟨g, hx⟩
  · exact findings_pairwise hf h
  · exact exists_first_guard ((mem_firsts_sort_iff (ident_iff_start hf)).mp hx)

/-- A guard, and in a block behind it the same guard again with a read behind that. -/
def nestedGuards : File where
  path := "p.go"
  source := ""
  decls := [.func ⟨0, 90, 1, 1⟩ "f" (some (.mk ⟨10, 90, 1, 11⟩ [
    .ifStmt ⟨12, 35, 2, 1⟩ none
      (.binary ⟨15, 23, 2, 4⟩ .ne (.ident ⟨15, 16, 2, 4⟩ 0) (.ident ⟨20, 23, 2, 9⟩ 1))
      (.mk ⟨24, 35, 2, 13⟩ [.returnStmt ⟨26, 32, 2, 15⟩ []]) none,
    .block ⟨36, 88, 3, 1⟩ (.mk ⟨36, 88, 3, 1⟩ [
      .ifStmt ⟨38, 61, 4, 1⟩ none
        (.binary ⟨41, 49, 4, 4⟩ .ne (.ident ⟨41, 42, 4, 4⟩ 2) (.ident ⟨46, 49, 4, 9⟩ 3))
        (.mk ⟨50, 61, 4, 13⟩ [.returnStmt ⟨52, 58, 4, 15⟩ []]) none,
      .expr ⟨62, 63, 5, 1⟩ (.ident ⟨62, 63, 5, 1⟩ 4)])]))]
  idents := #[⟨"e", some 0, ⟨15, 16, 2, 4⟩⟩, ⟨"nil", none, ⟨20, 23, 2, 9⟩⟩,
    ⟨"e", some 0, ⟨41, 42, 4, 4⟩⟩, ⟨"nil", none, ⟨46, 49, 4, 9⟩⟩, ⟨"e", some 0, ⟨62, 63, 5, 1⟩⟩]
  bindings := #[⟨"e", .external, none⟩]

/-- Both guards prove the last read. It is reported once, for the outer one. -/
theorem findings_nestedGuards : findings nestedGuards = .ok
    [⟨"p.go", 2, "e", 0, ⟨41, 42, 4, 4⟩, ⟨15, 23, 2, 4⟩⟩,
      ⟨"p.go", 4, "e", 0, ⟨62, 63, 5, 1⟩, ⟨15, 23, 2, 4⟩⟩] := by
  cbv

/-- Where something stands on line `k`, from column `first` up to column `last`. -/
def onLine (k first last : Nat) : Span := ⟨20 * k + first, 20 * k + last, k + 1, first + 1⟩

/-- The guard on line `k`. Its variable is identifier `3 * k`. -/
def guardOn (k : Nat) : Stmt :=
  .ifStmt (onLine k 0 17) none
    (.binary (onLine k 3 9) .ne (.ident (onLine k 3 4) (3 * k)) (.ident (onLine k 6 9) (3 * k + 1)))
    (.mk (onLine k 9 17) [.returnStmt (onLine k 10 16) []]) none

/-- The read on line `k`, identifier `3 * k + 2`. -/
def readOn (k : Nat) : Stmt := .expr (onLine k 18 19) (.ident (onLine k 18 19) (3 * k + 2))

/-- A function literal with the given statements. -/
def literalOf (stmts : List Stmt) : Expr := .closure default (.mk default stmts)

/-- Guards in a variable of the file, in a case and in a block of the case, in a declaration of a
function, and in a call that runs later. Between the declarations with trees stands one without. -/
def scatteredGuards : File where
  path := "p.go"
  source := ""
  decls := [
    .vars (.vars default [.mk [18]
      [literalOf [guardOn 0, .block default (.mk default [guardOn 1, readOn 1]), readOn 0]]]),
    .func default "g" none,
    .func default "f" (some (.mk default [
      .switch default none none none [.mk [] none (.mk default
        [guardOn 2, readOn 2, .block default (.mk default [guardOn 3, readOn 3])])],
      .vars default [.mk [19] [literalOf [guardOn 4, readOn 4]]],
      .defer default (.call default (literalOf [guardOn 5, readOn 5]) [])]))]
  idents := ((List.range 6).flatMap fun k => [⟨"e", some 0, onLine k 3 4⟩,
      ⟨"nil", none, onLine k 6 9⟩, ⟨"e", some 0, onLine k 18 19⟩]).toArray ++
    #[⟨"v", some 1, onLine 6 0 1⟩, ⟨"w", some 2, onLine 7 0 1⟩]
  bindings := #[⟨"e", .external, none⟩, ⟨"v", .var, some (onLine 6 0 1)⟩,
    ⟨"w", .var, some (onLine 7 0 1)⟩]

/-- The guard on the first line proves the block behind it and not what follows the block. The one
on line 3 stands in a case and is not searched for, the one in the block of the case is. -/
theorem findings_scatteredGuards : findings scatteredGuards = .ok
    [⟨"p.go", 3, "e", 0, onLine 1 3 4, onLine 0 3 9⟩,
      ⟨"p.go", 5, "e", 0, onLine 1 18 19, onLine 0 3 9⟩,
      ⟨"p.go", 11, "e", 0, onLine 3 18 19, onLine 3 3 9⟩,
      ⟨"p.go", 14, "e", 0, onLine 4 18 19, onLine 4 3 9⟩,
      ⟨"p.go", 17, "e", 0, onLine 5 18 19, onLine 5 3 9⟩] := by
  cbv

theorem findings_characterized_scatteredGuards :
    scatteredGuards.StartsDistinct ∧
    (∀ i, i ∈ [3, 5, 11, 14, 17] ↔ ∃ path k g, scatteredGuards.HasGuard path k g ∧
      g.ProvesNil scatteredGuards i) ∧
    ∃ path k g, scatteredGuards.HasGuard path k g ∧ g.ProvesNil scatteredGuards 5 ∧
      g.span = onLine 0 3 9 ∧ ∀ path' k' g', scatteredGuards.HasGuard path' k' g' →
        g'.ProvesNil scatteredGuards 5 → ¬ Earlier (path', k') (path, k) := by
  have hdistinct : scatteredGuards.StartsDistinct := File.startsDistinct_of_nodup (by decide)
  obtain ⟨hiff, -, -, hfirst⟩ := findings_characterized findings_scatteredGuards
  obtain ⟨path, k, g, hg, hi, hfound, hearlier⟩ := (hfirst hdistinct).2 _
    (List.mem_cons_of_mem _ List.mem_cons_self)
  refine ⟨hdistinct, fun i => ?_, path, k, g, hg, hi, ?_, hearlier⟩
  · rw [← hiff]
    simp [eq_comm]
  · exact (congrArg Finding.guard hfound).symm

end NilGuard
