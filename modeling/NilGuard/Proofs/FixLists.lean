import Mathlib
import NilGuard.Proofs.Fixing

/-!
Fixing by lists. A pass counts what it replaces while it replaces it, so an identifier that is
listed twice is seen by the second entry as `nil`. What comes of this depends only on which
identifiers are listed: every listed name is the nil literal afterwards and counts once (`fix_eq`).
So order and repetition do not matter, a second pass over the list finds nothing to do, and passes
over two lists are one pass over both.
-/

namespace NilGuard

open Go

namespace Go

/-- The nil literal in the place of an identifier. What is `nil` already stays as it is. -/
def Ident.nilled (x : Ident) : Ident :=
  if x.isNil then x else { x with name := nilName, binding := none }

@[simp] theorem Ident.isNil_nilled (x : Ident) : x.nilled.isNil = true := by
  unfold nilled
  split
  · assumption
  · rfl

@[simp] theorem Ident.nilled_nilled (x : Ident) : x.nilled.nilled = x.nilled := by
  conv_lhs => rw [nilled, if_pos x.isNil_nilled]

namespace File

/-- A file with the given identifiers replaced by the nil literal. -/
def nilled (f : File) (ids : List IdentId) : File :=
  { f with idents := f.idents.mapIdx fun i x => if i ∈ ids then x.nilled else x }

/-- The names among the given identifiers, each once. -/
def namesAmong (f : File) (ids : List IdentId) : Finset IdentId :=
  ids.toFinset.filter fun i => f.isNamed i = true

theorem eq_of_idents {f g : File} (hpath : f.path = g.path) (hsource : f.source = g.source)
    (hdecls : f.decls = g.decls) (hbindings : f.bindings = g.bindings)
    (hidents : ∀ i : Nat, f.idents[i]? = g.idents[i]?) : f = g := by
  have hidents := Array.ext_getElem? hidents
  cases f
  cases g
  simp_all

variable (f : File) (ids ids' : List IdentId) (i : IdentId)

theorem getElem?_nilled :
    (f.nilled ids).idents[i]? = f.idents[i]?.map fun x => if i ∈ ids then x.nilled else x :=
  Array.getElem?_mapIdx

@[simp] theorem nilled_nil : f.nilled [] = f :=
  eq_of_idents rfl rfl rfl rfl fun i => by simp [getElem?_nilled]

/-- A name is one that is not listed. -/
theorem isNamed_nilled : (f.nilled ids).isNamed i = (f.isNamed i && decide (i ∉ ids)) := by
  rw [isNamed, isNamed, getElem?_nilled]
  cases f.idents[i]? with
  | none => rfl
  | some x => by_cases hi : i ∈ ids <;> simp [hi]

theorem nilled_nilled : (f.nilled ids).nilled ids' = f.nilled (ids ++ ids') := by
  refine eq_of_idents rfl rfl rfl rfl fun i => ?_
  rw [getElem?_nilled, getElem?_nilled, getElem?_nilled, Option.map_map]
  congr 1
  funext x
  by_cases hi : i ∈ ids <;> by_cases hi' : i ∈ ids' <;> simp [hi, hi']

/-- A name that is renamed to `nil` is one more that is listed. -/
theorem rename_nilled (h : (f.nilled ids).isNamed i = true) :
    (f.nilled ids).rename i nilName = f.nilled (ids ++ [i]) := by
  rw [isNamed_nilled, Bool.and_eq_true, decide_eq_true_eq] at h
  refine eq_of_idents rfl rfl rfl rfl fun j => ?_
  rw [getElem?_rename, getElem?_nilled, getElem?_nilled]
  split
  · next hij =>
    subst hij
    cases hx : f.idents[i]? with
    | none => rfl
    | some x =>
      have hnil : x.isNil = false := by simpa [isNamed, hx] using h.1
      simp [h.2, Ident.nilled, hnil]
  · next hij =>
    have hmem : j ∈ ids ++ [i] ↔ j ∈ ids := by simp [Ne.symm hij]
    simp only [hmem]

/-- What is no name may be listed as well. -/
theorem nilled_of_not_named (h : (f.nilled ids).isNamed i = false) :
    f.nilled (ids ++ [i]) = f.nilled ids := by
  refine eq_of_idents rfl rfl rfl rfl fun j => ?_
  rw [← nilled_nilled, getElem?_nilled]
  cases hx : (f.nilled ids).idents[j]? with
  | none => rfl
  | some x =>
    rw [Option.map_some]
    split
    · next hj =>
      obtain rfl := List.mem_singleton.mp hj
      have hnil : x.isNil = true := by simpa [isNamed, hx] using h
      rw [Ident.nilled, if_pos hnil]
    · rfl

theorem namesAmong_append :
    f.namesAmong (ids ++ ids') = f.namesAmong ids ∪ (f.nilled ids).namesAmong ids' := by
  ext i
  simp only [namesAmong, List.toFinset_append, Finset.mem_filter, Finset.mem_union,
    List.mem_toFinset, isNamed_nilled, Bool.and_eq_true, decide_eq_true_eq]
  tauto

theorem disjoint_namesAmong : Disjoint (f.namesAmong ids) ((f.nilled ids).namesAmong ids') := by
  refine Finset.disjoint_left.mpr fun i hi hi' => ?_
  simp only [namesAmong, Finset.mem_filter, List.mem_toFinset, isNamed_nilled, Bool.and_eq_true,
    decide_eq_true_eq] at hi hi'
  exact hi'.2.2 hi.1

/-- Names of two lists are counted one list after the other. -/
theorem card_namesAmong_append : (f.namesAmong (ids ++ ids')).card =
    (f.namesAmong ids).card + ((f.nilled ids).namesAmong ids').card := by
  rw [namesAmong_append, Finset.card_union_of_disjoint (f.disjoint_namesAmong ids ids')]

theorem namesAmong_nilled_self : (f.nilled ids).namesAmong ids = ∅ := by
  refine Finset.filter_eq_empty_iff.mpr fun i hi => ?_
  simp [isNamed_nilled, List.mem_toFinset.mp hi]

end File

end Go

/-! ### Passes over lists -/

theorem fixOne_nilled (f : File) (ids : List IdentId) (n : Nat) (x : Finding) :
    fixOne (f.nilled ids, n) x =
      (f.nilled (ids ++ [x.ident]), n + ((f.nilled ids).namesAmong [x.ident]).card) := by
  obtain ⟨hnamed, hfix⟩ | ⟨hnamed, hfix⟩ := fixOne_cases (f.nilled ids) n x
  · rw [hfix, f.rename_nilled ids x.ident hnamed]
    simp [File.namesAmong, Finset.filter_singleton, hnamed]
  · rw [hfix, f.nilled_of_not_named ids x.ident hnamed]
    simp [File.namesAmong, Finset.filter_singleton, hnamed]

theorem foldl_fixOne_nilled (f : File) (ids : List IdentId) (xs : List Finding) :
    xs.foldl fixOne (f.nilled ids, (f.namesAmong ids).card) =
      (f.nilled (ids ++ xs.map (·.ident)), (f.namesAmong (ids ++ xs.map (·.ident))).card) := by
  induction xs generalizing ids with
  | nil => simp
  | cons x xs ih =>
    rw [List.foldl_cons, fixOne_nilled, ← File.card_namesAmong_append, ih]
    simp

/-- A pass replaces the listed names by `nil` and counts each of them once. -/
theorem fix_eq (f : File) (xs : List Finding) :
    fix f xs = (f.nilled (xs.map (·.ident)), (f.namesAmong (xs.map (·.ident))).card) := by
  have h := foldl_fixOne_nilled f [] xs
  rwa [File.nilled_nil, List.nil_append] at h

/-- Fixing by a list. The count is the number of different listed identifiers that are not `nil`.
These become the nil literal and have no binding, and nothing else changes. A list with the same
identifiers, in any order and any number of times, does the same. A second pass over the list does
nothing, and two lists one after the other do what they do as one. -/
theorem fix_by_identifiers (f : File) (xs : List Finding) :
    (fix f xs).2 = ((xs.map (·.ident)).toFinset.filter fun i => f.isNamed i = true).card ∧
    ((fix f xs).1.path = f.path ∧ (fix f xs).1.source = f.source ∧ (fix f xs).1.decls = f.decls ∧
      (fix f xs).1.bindings = f.bindings) ∧
    (∀ i : Nat, (fix f xs).1.idents[i]? = f.idents[i]?.map fun x =>
      if i ∈ xs.map (·.ident) ∧ x.name ≠ nilName then ⟨nilName, none, x.span⟩ else x) ∧
    (∀ ys : List Finding, (∀ i, i ∈ ys.map (·.ident) ↔ i ∈ xs.map (·.ident)) →
      fix f ys = fix f xs) ∧
    fix (fix f xs).1 xs = ((fix f xs).1, 0) ∧
    ∀ ys, fix f (xs ++ ys) =
      ((fix (fix f xs).1 ys).1, (fix f xs).2 + (fix (fix f xs).1 ys).2) := by
  simp only [fix_eq, List.map_append]
  refine ⟨rfl, ⟨rfl, rfl, rfl, rfl⟩, fun i => ?_, fun ys hys => ?_, ?_, fun ys => ?_⟩
  · rw [File.getElem?_nilled]
    congr 1
    funext x
    by_cases hi : i ∈ xs.map (·.ident) <;> by_cases hnil : x.name = nilName <;>
      simp [hi, hnil, Ident.nilled, Ident.isNil]
  · have hset : (ys.map (·.ident)).toFinset = (xs.map (·.ident)).toFinset := by
      ext i
      rw [List.mem_toFinset, List.mem_toFinset, hys i]
    simp only [File.nilled, File.namesAmong, hys, hset]
  · rw [File.nilled_nilled, File.namesAmong_nilled_self, Finset.card_empty]
    simp [File.nilled]
  · rw [File.nilled_nilled, File.card_namesAmong_append]

/-- Two reads of the sample in a list that has them in the wrong order, one of them twice, and the
literal beside them. -/
theorem fix_by_identifiers_sampleFile :
    let xs := [sampleFinding 3 ⟨31, 32, 3, 1⟩, sampleFinding 1 ⟨15, 18, 1, 16⟩,
      sampleFinding 2 ⟨27, 28, 2, 1⟩, sampleFinding 3 ⟨31, 32, 3, 1⟩]
    let ys := [sampleFinding 1 ⟨15, 18, 1, 16⟩, sampleFinding 2 ⟨27, 28, 2, 1⟩,
      sampleFinding 3 ⟨31, 32, 3, 1⟩]
    fix (sampleFile false false) xs = (sampleFile true true, 2) ∧
      fix (sampleFile false false) ys = fix (sampleFile false false) xs ∧
      fix (sampleFile true true) xs = (sampleFile true true, 0) := by
  intro xs ys
  have hfix : fix (sampleFile false false) xs = (sampleFile true true, 2) := by cbv
  obtain ⟨-, -, -, hsame, hagain, -⟩ := fix_by_identifiers (sampleFile false false) xs
  rw [hfix] at hagain
  refine ⟨hfix, hsame ys fun i => ?_, hagain⟩
  simp only [xs, ys, sampleFinding, List.map_cons, List.map_nil, List.mem_cons, List.not_mem_nil]
  tauto

end NilGuard
