/-!
Texts are lists of characters, measured in the bytes of their UTF-8 form. An offset is usable only
where a character begins, so cutting a text at an offset may fail.
-/

namespace NilGuard.Text

/-- Number of bytes of a text. -/
def byteLength (cs : List Char) : Nat :=
  cs.foldr (fun c n => c.utf8Size + n) 0

/-- Cuts a text after its first `n` bytes, unless that is inside a character or past the end. -/
def splitAtByte : List Char → Nat → Option (List Char × List Char)
  | cs, 0 => some ([], cs)
  | [], _ + 1 => none
  | c :: cs, n + 1 =>
    if c.utf8Size ≤ n + 1 then
      (splitAtByte cs (n + 1 - c.utf8Size)).map fun (left, right) => (c :: left, right)
    else none

/-- The part of a text after its first `n` bytes. -/
def dropBytes (cs : List Char) (n : Nat) : Option (List Char) :=
  (splitAtByte cs n).map (·.2)

/-- The first `n` bytes of a text. -/
def takeBytes (cs : List Char) (n : Nat) : Option (List Char) :=
  (splitAtByte cs n).map (·.1)

/-- The bytes from offset `start` up to offset `stop`. -/
def slice (cs : List Char) (start stop : Nat) : Option (List Char) :=
  if start ≤ stop then (dropBytes cs start).bind (takeBytes · (stop - start)) else none

/-- Whether `needle` occurs somewhere in a text. -/
def contains (needle : List Char) : List Char → Bool
  | [] => needle.isEmpty
  | c :: cs => needle.isPrefixOf (c :: cs) || contains needle cs

@[simp] theorem byteLength_nil : byteLength [] = 0 := rfl

@[simp] theorem byteLength_cons (c : Char) (cs : List Char) :
    byteLength (c :: cs) = c.utf8Size + byteLength cs := rfl

@[simp] theorem byteLength_append (xs ys : List Char) :
    byteLength (xs ++ ys) = byteLength xs + byteLength ys := by
  induction xs with
  | nil => simp
  | cons c xs ih => simp only [List.cons_append, byteLength_cons, ih, Nat.add_assoc]

theorem append_of_splitAtByte {cs left right : List Char} {n : Nat}
    (h : splitAtByte cs n = some (left, right)) : left ++ right = cs ∧ byteLength left = n := by
  fun_induction splitAtByte cs n generalizing left right with
  | case1 cs => simp_all
  | case2 => simp at h
  | case3 c cs n hle ih =>
    simp only [Option.map_eq_some_iff, Prod.mk.injEq, Prod.exists] at h
    obtain ⟨l, r, hlr, rfl, rfl⟩ := h
    obtain ⟨happ, hlen⟩ := ih hlr
    exact ⟨by simp [happ], by simp [hlen]; omega⟩
  | case4 => simp at h

theorem splitAtByte_append (left right : List Char) :
    splitAtByte (left ++ right) (byteLength left) = some (left, right) := by
  induction left with
  | nil => simp [splitAtByte]
  | cons c left ih =>
    have hc : 0 < c.utf8Size := c.utf8Size_pos
    obtain ⟨n, hn⟩ : ∃ n, c.utf8Size + byteLength left = n + 1 :=
      ⟨_, (Nat.succ_pred (by omega)).symm⟩
    simp only [List.cons_append, byteLength_cons, hn, splitAtByte]
    rw [if_pos (by omega), show n + 1 - c.utf8Size = byteLength left by omega, ih]
    rfl

/-- Where a text is cut decides what the parts are. -/
theorem append_inj_of_byteLength {a b c d : List Char} (h : a ++ b = c ++ d)
    (hlength : byteLength a = byteLength c) : a = c ∧ b = d := by
  have hleft := splitAtByte_append a b
  rw [h, hlength, splitAtByte_append] at hleft
  simpa [eq_comm] using hleft

/-- Of two cuts of a text the first one is in front of the second. -/
theorem exists_between {a b c d : List Char} (h : a ++ b = c ++ d)
    (hlength : byteLength a ≤ byteLength c) : ∃ mid, c = a ++ mid ∧ b = mid ++ d := by
  rcases List.append_eq_append_iff.mp h with ⟨mid, rfl, rfl⟩ | ⟨mid, rfl, rfl⟩
  · exact ⟨mid, rfl, rfl⟩
  · have hzero : byteLength mid = byteLength [] := by
      simp only [byteLength_append, byteLength_nil] at hlength ⊢
      omega
    obtain ⟨rfl, -⟩ := append_inj_of_byteLength (a := mid) (b := []) (c := []) (d := mid)
      (by simp) hzero
    exact ⟨[], by simp⟩

end NilGuard.Text
