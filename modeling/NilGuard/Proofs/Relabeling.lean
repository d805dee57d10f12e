import NilGuard.Proofs.Fixing

/-!
Names and numbers of variables do not count. The analysis asks of an identifier whether it is `nil`
and whether it stands for a given variable, and nothing else. So a file with other names and other
numbers for its variables has the same findings, as long as the same identifiers are `nil` and
different variables have different numbers (`analysis_ignores_labels`). The two runs are compared
step by step: each function of the analysis takes files that are relabeled to results that agree.
-/

namespace NilGuard

open Go

/-! ### Results that agree -/

/-- What a finding is about: the read, its variable, the guard and the place. -/
def Finding.seen (x : Finding) : IdentId × BindingId × Span × Span :=
  (x.ident, x.binding, x.guard, x.span)

/-- The kind of a fault and its line and column. -/
def Fault.place : Fault → Bool × Nat × Nat
  | .nilBound _ line column => (true, line, column)
  | .variableUnbound _ _ line column => (false, line, column)

/-- Two runs end alike: both in a fault of one kind at one place, or both in results that are
related. -/
inductive Agree {α β : Type} (R : α → β → Prop) : Except Fault α → Except Fault β → Prop where
  | error {x y : Fault} (h : y.place = x.place) : Agree R (.error x) (.error y)
  | ok {a : α} {b : β} (h : R a b) : Agree R (.ok a) (.ok b)

namespace Agree

variable {α β γ δ : Type} {R : α → β → Prop} {S : γ → δ → Prop} {x : Except Fault α}
  {y : Except Fault β}

/-- Runs that end alike and go on alike end alike. -/
theorem bind {k : α → Except Fault γ} {k' : β → Except Fault δ} (h : Agree R x y)
    (hk : ∀ a b, x = .ok a → R a b → Agree S (k a) (k' b)) : Agree S (x >>= k) (y >>= k') := by
  cases h with
  | error h => exact .error h
  | ok h => exact hk _ _ rfl h

theorem exists_ok {a : α} (h : Agree R (.ok a) y) : ∃ b, y = .ok b ∧ R a b := by
  cases h with
  | ok h => exact ⟨_, rfl, h⟩

end Agree

/-! ### Relabeled files -/

/-- An identifier in the place of another one. It is `nil` if that is and may have any name
otherwise, and its variable has the number that is given for the variable of the other. -/
structure Go.Ident.Relabels (ρ : BindingId → BindingId) (x y : Ident) : Prop where
  span_eq : y.span = x.span
  binding_eq : y.binding = x.binding.map ρ
  nil_iff : y.name = nilName ↔ x.name = nilName

namespace Go.File

/-- A file with the tree of another one and other labels on its identifiers. -/
structure Relabels (ρ : BindingId → BindingId) (f g : File) : Prop where
  decls_eq : g.decls = f.decls
  idents : List.Forall₂ (Ident.Relabels ρ) f.idents.toList g.idents.toList

/-- The variables that identifiers stand for. -/
def bound (f : File) : Set BindingId :=
  {b | ∃ x ∈ f.idents, x.binding = some b}

/-- The file with other numbers for its variables. -/
def renumber (f : File) (ρ : BindingId → BindingId) : File :=
  { f with idents := f.idents.map fun x => { x with binding := x.binding.map ρ } }

theorem relabels_renumber (f : File) (ρ : BindingId → BindingId) : f.Relabels ρ (f.renumber ρ) where
  decls_eq := rfl
  idents := by
    rw [renumber, Array.toList_map, List.forall₂_map_right_iff]
    exact List.forall₂_same.mpr fun x _ => ⟨rfl, rfl, Iff.rfl⟩

namespace Relabels

variable {ρ : BindingId → BindingId} {f g : File}

theorem ident_cases (h : f.Relabels ρ g) (i : IdentId) :
    f.idents[i]? = none ∧ g.idents[i]? = none ∨
      ∃ x y, f.idents[i]? = some x ∧ g.idents[i]? = some y ∧ x.Relabels ρ y := by
  simp only [← Array.getElem?_toList]
  generalize f.idents.toList = xs, g.idents.toList = ys, h.idents = hidents
  induction hidents generalizing i with
  | nil => exact .inl ⟨rfl, rfl⟩
  | cons hx _ ih =>
    cases i with
    | zero => exact .inr ⟨_, _, rfl, rfl, hx⟩
    | succ i => exact ih i

theorem isNil_eq (h : f.Relabels ρ g) : g.isNil = f.isNil := by
  funext i
  unfold File.isNil
  obtain ⟨hx, hy⟩ | ⟨x, y, hx, hy, hxy⟩ := h.ident_cases i
  · rw [hx, hy]
  · rw [hx, hy, Option.any_some, Option.any_some, Bool.eq_iff_iff]
    simpa [Ident.isNil] using hxy.nil_iff

/-- Different variables keep apart. -/
theorem refersTo_eq (h : f.Relabels ρ g) (hρ : Set.InjOn ρ f.bound) {b : BindingId}
    (hb : b ∈ f.bound) (i : IdentId) : g.refersTo i (ρ b) = f.refersTo i b := by
  unfold File.refersTo
  obtain ⟨hx, hy⟩ | ⟨x, y, hx, hy, hxy⟩ := h.ident_cases i
  · rw [hx, hy, Option.any_none, Option.any_none]
  · rw [hx, hy, Option.any_some, Option.any_some, hxy.binding_eq]
    cases hc : x.binding with
    | none => rfl
    | some c =>
      have hc : c ∈ f.bound := ⟨x, Array.mem_of_getElem? hx, hc⟩
      rw [Option.map_some, Bool.eq_iff_iff]
      simpa using hρ.eq_iff hc hb

/-- An identifier that is not there counts as the default one in both files. -/
theorem getD_eq (h : f.Relabels ρ g) (i : IdentId) :
    (g.idents[i]?.getD default).span = (f.idents[i]?.getD default).span ∧
      (g.idents[i]?.getD default).binding = (f.idents[i]?.getD default).binding.map ρ := by
  obtain ⟨hx, hy⟩ | ⟨x, y, hx, hy, hxy⟩ := h.ident_cases i
  · rw [hx, hy]
    exact ⟨rfl, rfl⟩
  · rw [hx, hy]
    exact ⟨hxy.span_eq, hxy.binding_eq⟩

theorem nilComparison?_eq (h : f.Relabels ρ g) (e : Expr) :
    nilComparison? g e = nilComparison? f e := by
  unfold nilComparison?
  rw [h.isNil_eq]

theorem guarded?_agree (h : f.Relabels ρ g) (cond : Expr) (body : Block) :
    Agree (fun o o' => o' = o.map ρ) (guarded? f cond body) (guarded? g cond body) := by
  unfold guarded?
  rw [h.nilComparison?_eq]
  split
  · cases nilComparison? f cond with
    | none => exact .ok rfl
    | some sides =>
      obtain ⟨left, right⟩ := sides
      obtain ⟨hspan, hbinding⟩ := h.getD_eq left
      obtain ⟨hspan', hbinding'⟩ := h.getD_eq right
      simp only [hspan, hbinding, hspan', hbinding']
      cases (f.idents[right]?.getD default).binding with
      | some b => exact .error rfl
      | none =>
        cases (f.idents[left]?.getD default).binding with
        | none => exact .error rfl
        | some b => exact .ok rfl
  · exact .ok rfl

end Relabels

end Go.File

/-! ### Findings -/

/-- The guard with another number for its variable. -/
def Guard.renumber (ρ : BindingId → BindingId) (gd : Guard) : Guard :=
  { gd with binding := ρ gd.binding }

/-- What is seen of a finding, with another number for its variable. -/
def Finding.seenAs (ρ : BindingId → BindingId) (x : Finding) : IdentId × BindingId × Span × Span :=
  (x.ident, ρ x.binding, x.guard, x.span)

/-- The findings of one list are those of the other with other numbers for their variables. -/
def SeenAlike (ρ : BindingId → BindingId) (xs ys : List Finding) : Prop :=
  ys.map Finding.seen = xs.map (Finding.seenAs ρ)

/-- Findings are put in order by what is seen of them. -/
theorem map_firsts_sort {v : Finding → IdentId × BindingId × Span × Span}
    (hv : ∀ x, (v x).1 = x.ident ∧ (v x).2.2.2 = x.span) (xs : List Finding) :
    (firsts (·.ident) (sortedBy (·.span.start) xs)).map v =
      firsts (·.1) (sortedBy (·.2.2.2.start) (xs.map v)) := by
  have hsort : (sortedBy (·.span.start) xs).map v = sortedBy (·.2.2.2.start) (xs.map v) :=
    List.map_mergeSort fun x _ y _ => by simp only [(hv _).2]
  rw [← hsort, firsts_map]
  simp only [(hv _).1]

namespace Go.File.Relabels

variable {ρ : BindingId → BindingId} {f g : File}

theorem guardAt?_agree (h : f.Relabels ρ g) (ss : List Stmt) :
    Agree (fun o o' => o' = o.map (Guard.renumber ρ) ∧ ∀ gd ∈ o, gd.binding ∈ f.bound)
      (guardAt? f ss) (guardAt? g ss) := by
  unfold guardAt?
  split
  · next span init cond body orElse rest =>
    refine (h.guarded?_agree cond body).bind ?_
    rintro o _ ho rfl
    cases o with
    | none => exact .ok ⟨rfl, by simp⟩
    | some b =>
      obtain ⟨left, right, x, -, hx, -, hb⟩ := exists_of_guarded? ho
      exact .ok ⟨rfl, by simpa using ⟨x, Array.mem_of_getElem? hx, hb⟩⟩
  · exact .ok ⟨rfl, by simp⟩

theorem reads_eq (h : f.Relabels ρ g) (hρ : Set.InjOn ρ f.bound) {gd : Guard}
    (hgd : gd.binding ∈ f.bound) :
    (gd.renumber ρ).reads g = gd.reads f :=
  firstReads_congr (h.refersTo_eq hρ hgd) gd.remainder

theorem seen_findingOf (h : f.Relabels ρ g) (gd : Guard) (i : IdentId) :
    (findingOf g (gd.renumber ρ) i).seen = (findingOf f gd i).seenAs ρ := by
  simp only [Finding.seen, Finding.seenAs, findingOf, Guard.renumber, (h.getD_eq i).1]

theorem blockFindings_agree (h : f.Relabels ρ g) (hρ : Set.InjOn ρ f.bound) (ss : List Stmt) :
    Agree (SeenAlike ρ) (blockFindings f ss) (blockFindings g ss) := by
  induction ss with
  | nil => exact .ok rfl
  | cons s ss ih =>
    rw [blockFindings, blockFindings]
    refine (h.guardAt?_agree (s :: ss)).bind ?_
    rintro o _ - ⟨rfl, hbound⟩
    refine ih.bind fun xs ys _ hxs => .ok ?_
    cases o with
    | none => exact hxs
    | some gd =>
      simp only [SeenAlike, Option.map_some, List.map_append, List.map_map] at hxs ⊢
      rw [hxs, h.reads_eq hρ (hbound gd rfl)]
      congr 2
      funext i
      exact h.seen_findingOf gd i

theorem allFindings_agree (h : f.Relabels ρ g) (hρ : Set.InjOn ρ f.bound) (bs : List Block) :
    Agree (SeenAlike ρ) (allFindings f bs) (allFindings g bs) := by
  induction bs with
  | nil => exact .ok rfl
  | cons b bs ih =>
    rw [allFindings, allFindings]
    refine (h.blockFindings_agree hρ b.stmts).bind fun xs ys _ hxs => ?_
    refine ih.bind fun xs' ys' _ hxs' => .ok ?_
    simp only [SeenAlike, List.map_append] at hxs hxs' ⊢
    rw [hxs, hxs']

theorem findings_agree (h : f.Relabels ρ g) (hρ : Set.InjOn ρ f.bound) :
    Agree (SeenAlike ρ) (findings f) (findings g) := by
  have hblocks : scannedBlocks g = scannedBlocks f := by
    rw [scannedBlocks, scannedBlocks, File.roots, File.roots, h.decls_eq]
  rw [findings, findings, hblocks]
  refine (h.allFindings_agree hρ (scannedBlocks f)).bind fun xs ys _ hxs => .ok ?_
  have hseen := map_firsts_sort (v := Finding.seen) (fun _ => ⟨rfl, rfl⟩) ys
  have hseenAs := map_firsts_sort (v := Finding.seenAs ρ) (fun _ => ⟨rfl, rfl⟩) xs
  rw [SeenAlike] at hxs ⊢
  rw [hseen, hseenAs, hxs]

end Go.File.Relabels

/-- The analysis does not look at names or at the numbers of variables. With other names, of which
the same are `nil`, it has the same outcome: a fault of one kind at one place, or the same reads at
the same places for the same variables and guards. With other numbers for the variables, different
ones for different variables, its outcome has the new numbers and is the same otherwise. -/
theorem analysis_ignores_labels (f : File) :
    (∀ g : File, f.Relabels id g →
      Agree (fun xs ys => ys.map Finding.seen = xs.map Finding.seen) (findings f) (findings g)) ∧
    ∀ ρ : BindingId → BindingId, Set.InjOn ρ f.bound →
      Agree (fun xs ys => ys.map Finding.seen =
        xs.map fun x => (x.ident, ρ x.binding, x.guard, x.span)) (findings f)
        (findings (f.renumber ρ)) := by
  constructor
  · intro g h
    exact h.findings_agree (Set.injOn_id f.bound)
  · intro ρ hρ
    exact (f.relabels_renumber ρ).findings_agree hρ

/-- The nested guards under names that are all different. -/
def renamedGuards : File :=
  { nestedGuards with
    path := "q.go"
    idents := #[⟨"a", some 0, ⟨15, 16, 2, 4⟩⟩, ⟨"nil", none, ⟨20, 23, 2, 9⟩⟩,
      ⟨"b", some 0, ⟨41, 42, 4, 4⟩⟩, ⟨"nil", none, ⟨46, 49, 4, 9⟩⟩, ⟨"c", some 0, ⟨62, 63, 5, 1⟩⟩] }

theorem relabels_renamedGuards : nestedGuards.Relabels id renamedGuards where
  decls_eq := rfl
  idents := by
    refine .cons ?_ (.cons ?_ (.cons ?_ (.cons ?_ (.cons ?_ .nil))))
    all_goals exact ⟨rfl, rfl, by decide⟩

/-- Both reads are found under the new names, and with the new number of their variable. -/
theorem analysis_ignores_labels_nestedGuards :
    nestedGuards.Relabels id renamedGuards ∧ Set.InjOn (7 - ·) nestedGuards.bound ∧
    (∃ xs, findings renamedGuards = .ok xs ∧
      xs.map Finding.seen = [(2, 0, ⟨15, 23, 2, 4⟩, ⟨41, 42, 4, 4⟩),
        (4, 0, ⟨15, 23, 2, 4⟩, ⟨62, 63, 5, 1⟩)]) ∧
    ∃ xs, findings (nestedGuards.renumber (7 - ·)) = .ok xs ∧
      xs.map Finding.seen = [(2, 7, ⟨15, 23, 2, 4⟩, ⟨41, 42, 4, 4⟩),
        (4, 7, ⟨15, 23, 2, 4⟩, ⟨62, 63, 5, 1⟩)] := by
  have hbound : nestedGuards.bound ⊆ {0} := by
    rintro b ⟨x, hx, hb⟩
    have hall : ∀ x ∈ nestedGuards.idents.toList, x.binding = none ∨ x.binding = some 0 := by decide
    simpa [hb] using hall x (Array.mem_toList_iff.mpr hx)
  have hinj : Set.InjOn (7 - ·) nestedGuards.bound := (Set.injOn_singleton _ _).mono hbound
  obtain ⟨hnames, hnumbers⟩ := analysis_ignores_labels nestedGuards
  rw [findings_nestedGuards] at hnames hnumbers
  exact ⟨relabels_renamedGuards, hinj, (hnames _ relabels_renamedGuards).exists_ok,
    (hnumbers _ hinj).exists_ok⟩

end NilGuard
