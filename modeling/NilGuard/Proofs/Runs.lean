import Mathlib.Data.List.Sort

/-!
Sorting by a number and keeping the first of every run. The findings of a file and the edits of its
text are both put in order this way, so what such a list holds is said here once.

`filter_mergeSort` is stability: the sort changes nothing among the elements of one key. When equal
keys have equal numbers, a run of the sorted list is a class of the whole list, and what is kept of
it is the element that came first before sorting (`mem_firsts_sort_iff`).
-/

namespace NilGuard

open List

variable {α : Type} (key : α → Nat)

/-- The first element of every run of elements with one key. -/
abbrev firsts (l : List α) : List α :=
  l.eraseRepsBy fun x y => key x == key y

/-- The elements in the order of a number. -/
abbrev sortedBy (number : α → Nat) (l : List α) : List α :=
  l.mergeSort fun x y => number x ≤ number y

theorem eraseRepsBy_loop (r : α → α → Bool) (a : α) (l acc : List α) :
    eraseRepsBy.loop r a l acc = acc.reverse ++ eraseRepsBy.loop r a l [] := by
  induction l generalizing a acc with
  | nil => simp [eraseRepsBy.loop]
  | cons b l ih =>
    simp only [eraseRepsBy.loop]
    split
    · exact ih a acc
    · rw [ih b (a :: acc), ih b [a]]
      simp

theorem eraseRepsBy_cons_cons (r : α → α → Bool) (a b : α) (l : List α) :
    (a :: b :: l).eraseRepsBy r =
      if r a b then (a :: l).eraseRepsBy r else a :: (b :: l).eraseRepsBy r := by
  simp only [eraseRepsBy, eraseRepsBy.loop]
  split
  · next h => rw [if_pos h]
  · next h =>
    rw [if_neg (by simp [h]), eraseRepsBy_loop]
    rfl

theorem eraseRepsBy_sublist (r : α → α → Bool) : ∀ l : List α, l.eraseRepsBy r <+ l
  | [] => .slnil
  | [a] => .refl [a]
  | a :: b :: l => by
    rw [eraseRepsBy_cons_cons]
    split
    · exact (eraseRepsBy_sublist r (a :: l)).trans (.cons_cons a (.cons b (.refl l)))
    · exact (eraseRepsBy_sublist r (b :: l)).cons_cons a
termination_by l => l.length

/-- In a sorted list related elements stand together, so no two that are left are related. -/
theorem eraseRepsBy_pairwise {r le : α → α → Bool}
    (hr : ∀ a b c, le a b = true → le b c = true → r a c = true → r a b = true) : ∀ {l : List α},
    l.Pairwise (fun a b => le a b = true) →
      (l.eraseRepsBy r).Pairwise fun a b => le a b = true ∧ r a b = false
  | [], _ => .nil
  | [a], _ => pairwise_singleton ..
  | a :: b :: l, hl => by
    rw [eraseRepsBy_cons_cons]
    split
    · exact eraseRepsBy_pairwise hr (hl.sublist (.cons_cons a (.cons b (.refl l))))
    · next hab =>
      refine pairwise_cons.mpr ⟨fun c hc => ?_, eraseRepsBy_pairwise hr hl.tail⟩
      have hc := (eraseRepsBy_sublist r _).subset hc
      refine ⟨rel_of_pairwise_cons hl hc, ?_⟩
      rcases mem_cons.mp hc with rfl | hc
      · simpa using hab
      · by_contra hac
        exact hab (hr a b c (rel_of_pairwise_cons hl mem_cons_self)
          (rel_of_pairwise_cons hl.tail hc)
          (by simpa using hac))
termination_by l => l.length

/-- What is left out is related to something that is kept. -/
theorem exists_mem_eraseRepsBy {r : α → α → Bool} (hrefl : ∀ a, r a a = true)
    (htrans : ∀ a b c, r a b = true → r b c = true → r a c = true) : ∀ {l : List α} {x : α}, x ∈ l →
      ∃ y ∈ l.eraseRepsBy r, r y x = true
  | [a], x, hx => by
    obtain rfl := mem_singleton.mp hx
    exact ⟨x, mem_singleton_self x, hrefl x⟩
  | a :: b :: l, x, hx => by
    rw [eraseRepsBy_cons_cons]
    split
    · next hab =>
      -- `b` is left out, and stands behind whatever stands for `a`
      have hcases : x ∈ a :: l ∨ x = b := by grind
      rcases hcases with hx | rfl
      · exact exists_mem_eraseRepsBy hrefl htrans hx
      · obtain ⟨y, hy, hya⟩ := exists_mem_eraseRepsBy hrefl htrans (l := a :: l) mem_cons_self
        exact ⟨y, hy, htrans y a x hya hab⟩
    · rcases mem_cons.mp hx with rfl | hx
      · exact ⟨x, mem_cons_self, hrefl x⟩
      · obtain ⟨y, hy, hyx⟩ := exists_mem_eraseRepsBy hrefl htrans hx
        exact ⟨y, mem_cons_of_mem _ hy, hyx⟩
termination_by l => l.length

theorem firsts_cons_cons (a b : α) (l : List α) :
    firsts key (a :: b :: l) =
      if key a = key b then firsts key (a :: l) else a :: firsts key (b :: l) := by
  simp only [firsts, eraseRepsBy_cons_cons, beq_iff_eq]

theorem firsts_sublist (l : List α) : firsts key l <+ l :=
  eraseRepsBy_sublist _ l

theorem firsts_map {β : Type} (key : β → Nat) (φ : α → β) : ∀ l : List α,
    firsts key (l.map φ) = (firsts (fun x => key (φ x)) l).map φ
  | [] => rfl
  | [a] => rfl
  | a :: b :: l => by
    have hskip := firsts_map key φ (a :: l)
    have hkeep := firsts_map key φ (b :: l)
    simp only [List.map_cons] at hskip hkeep ⊢
    rw [firsts_cons_cons, firsts_cons_cons]
    split
    · exact hskip
    · rw [hkeep, List.map_cons]
termination_by l => l.length

theorem exists_mem_firsts {l : List α} {x : α} (h : x ∈ l) :
    ∃ y ∈ firsts key l, key y = key x := by
  have hrep := exists_mem_eraseRepsBy (r := fun x y => key x == key y) (by simp)
    (fun a b c hab hbc => by simp_all) h
  simpa using hrep

theorem sortedBy_pairwise (number : α → Nat) (l : List α) :
    (sortedBy number l).Pairwise fun x y => number x ≤ number y := by
  have h : (sortedBy number l).Pairwise fun x y => decide (number x ≤ number y) = true := by
    refine pairwise_mergeSort (fun a b c hab hbc => ?_) (fun a b => ?_) l
    · simp only [decide_eq_true_eq] at *; omega
    · simp only [Bool.or_eq_true, decide_eq_true_eq]; omega
  simpa using h

theorem firsts_sort_pairwise (number : α → Nat) (l : List α) :
    (firsts key (sortedBy number l)).Pairwise fun x y => number x ≤ number y :=
  (sortedBy_pairwise number l).sublist (firsts_sublist key _)

/-- Elements with one number keep their order. -/
theorem filter_mergeSort {number : α → Nat} {l : List α} {p : α → Bool}
    (h : ∀ x ∈ l, ∀ y ∈ l, p x → p y → number x = number y) :
    (sortedBy number l).filter p = l.filter p := by
  have hsub : l.filter p <+ sortedBy number l := by
    refine sublist_mergeSort (fun a b c hab hbc => ?_) (fun a b => ?_) ?_ filter_sublist
    · simp only [decide_eq_true_eq] at *; omega
    · simp only [Bool.or_eq_true, decide_eq_true_eq]; omega
    · refine pairwise_of_forall_mem_list fun x hx y hy => ?_
      rw [mem_filter] at hx hy
      simpa using (h x hx.1 y hy.1 hx.2 hy.2).le
  have hsub' : l.filter p <+ (sortedBy number l).filter p := by
    simpa using hsub.filter p
  exact (hsub'.eq_of_length ((mergeSort_perm l _).filter p).length_eq.symm).symm

/-- In a sorted list all elements of one key stand together, so what is kept is in strict order and
is the first of its key. -/
theorem firsts_of_pairwise (key number : α → Nat) : ∀ {l : List α},
    (∀ x ∈ l, ∀ y ∈ l, key x = key y ↔ number x = number y) →
    l.Pairwise (fun x y => number x ≤ number y) →
    (firsts key l).Pairwise (fun x y => number x < number y) ∧
      ∀ x, x ∈ firsts key l ↔ l.find? (key · == key x) = some x
  | [], _, _ => ⟨.nil, fun x => by simp [firsts, eraseRepsBy]⟩
  | [a], _, _ => by
    refine ⟨pairwise_singleton .., fun x => ?_⟩
    simp only [firsts, eraseRepsBy, eraseRepsBy.loop, reverse_singleton, mem_singleton, find?_cons]
    by_cases h : key a = key x <;> grind
  | a :: b :: l, hkey, hl => by
    rw [firsts_cons_cons]
    have hab : number a ≤ number b := rel_of_pairwise_cons hl mem_cons_self
    split
    · next h =>
      -- `b` belongs to the run of `a`, and no search stops at it.
      obtain ⟨hlt, hiff⟩ := firsts_of_pairwise key number (l := a :: l)
        (fun x hx y hy => hkey x (by grind) y (by grind))
        (hl.sublist (.cons_cons a (.cons b (.refl l))))
      refine ⟨hlt, fun x => ?_⟩
      rw [hiff x]
      simp only [find?_cons, ← h]
      split <;> rfl
    · next h =>
      have hne : number a ≠ number b := fun hn => h ((hkey a (by simp) b (by simp)).mpr hn)
      obtain ⟨hlt, hiff⟩ := firsts_of_pairwise key number (l := b :: l)
        (fun x hx y hy => hkey x (mem_cons_of_mem _ hx) y (mem_cons_of_mem _ hy)) hl.tail
      have hafter : ∀ y ∈ b :: l, number a < number y := by
        intro y hy
        rcases mem_cons.mp hy with rfl | hy
        · omega
        · have := rel_of_pairwise_cons hl.tail hy
          omega
      refine ⟨pairwise_cons.mpr ⟨fun y hy => hafter y ((firsts_sublist key _).subset hy), hlt⟩,
        fun x => ?_⟩
      rw [mem_cons, hiff x]
      by_cases hx : key a = key x
      · have hnone : (b :: l).find? (key · == key x) ≠ some x := by
          intro hf
          have hmem := mem_of_find?_eq_some hf
          have := (hkey a (by simp) x (mem_cons_of_mem _ hmem)).mp hx
          have := hafter x hmem
          omega
        rw [or_iff_left hnone, find?_cons_of_pos (by simpa using hx), Option.some_inj, eq_comm]
      · have hne' : x ≠ a := fun h => hx (h ▸ rfl)
        rw [or_iff_right hne', find?_cons_of_neg (a := a) (by simpa using hx)]
termination_by l => l.length

/-- What sorting by a number and thinning out leaves of a list whose keys and numbers go together:
the first element of every key. -/
theorem mem_firsts_sort_iff {key number : α → Nat} {l : List α}
    (hkey : ∀ x ∈ l, ∀ y ∈ l, key x = key y ↔ number x = number y) {x : α} :
    x ∈ firsts key (sortedBy number l) ↔ l.find? (key · == key x) = some x := by
  have hkey' : ∀ x ∈ sortedBy number l, ∀ y ∈ sortedBy number l,
      key x = key y ↔ number x = number y := by
    intro x hx y hy
    exact hkey x (mem_mergeSort.mp hx) y (mem_mergeSort.mp hy)
  rw [(firsts_of_pairwise key number hkey' (sortedBy_pairwise number l)).2 x, ← head?_filter,
    ← head?_filter, filter_mergeSort]
  intro y hy z hz hyx hzx
  exact (hkey y hy z hz).mp (by simp only [beq_iff_eq] at hyx hzx; omega)

theorem firsts_sort_pairwise_lt {key number : α → Nat} {l : List α}
    (hkey : ∀ x ∈ l, ∀ y ∈ l, key x = key y ↔ number x = number y) :
    (firsts key (sortedBy number l)).Pairwise fun x y => number x < number y := by
  refine (firsts_of_pairwise key number (fun x hx y hy => ?_) (sortedBy_pairwise number l)).1
  exact hkey x (mem_mergeSort.mp hx) y (mem_mergeSort.mp hy)

end NilGuard
