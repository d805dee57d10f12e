import Mathlib.Data.List.TakeDrop
import NilGuard.Json.Reader
import NilGuard.Json.Writer

/-!
JSON text that was written is read back (`parse?_write`). A value is read from the front of a longer
text, and only a number has to know what follows it. Numbers with a fraction or an exponent are left
out: they are kept as texts, and not every text is such a number.
-/

namespace NilGuard.Json

/-! ### Blanks -/

theorem skip_newline (level : Nat) (cs : List Char) : skip (newline level ++ cs) = skip cs := by
  refine List.dropWhile_append_of_pos fun c hc => ?_
  rcases List.mem_cons.mp hc with rfl | hc
  · rfl
  · rw [List.eq_of_mem_replicate hc]
    rfl

theorem skip_cons {c : Char} (hc : isSpace c = false) (cs : List Char) :
    skip (c :: cs) = c :: cs := by
  simp [skip, hc]

/-! ### Quoted texts -/

theorem hexValue?_hexDigit : ∀ n < 16, hexValue? (hexDigit n) = some n := by
  decide

/-- A control character is written with four digits and read back from them. -/
theorem unicode?_control {c : Char} (h : c.toNat < 32) (cs : List Char) :
    unicode? ('0' :: '0' :: hexDigit (c.toNat / 16) :: hexDigit (c.toNat % 16) :: cs)
      = some (c, cs) := by
  have hzero : hexValue? '0' = some 0 := rfl
  have hunit : ((0 * 16 + 0) * 16 + c.toNat / 16) * 16 + c.toNat % 16 = c.toNat := by omega
  have hhigh : ¬ 0xD800 ≤ c.toNat := by omega
  have hlow : ¬ 0xDC00 ≤ c.toNat := by omega
  simp only [unicode?, unit?, hzero, hexValue?_hexDigit (c.toNat / 16) (by omega),
    hexValue?_hexDigit (c.toNat % 16) (by omega), Option.bind_eq_bind, Option.bind_some,
    Option.pure_def, hunit]
  simp [hhigh, hlow]

/-- A character is written as it is, or behind a backslash as an escape that stands for it. -/
theorem escape_cases (c : Char) :
    escape c = [c] ∧ c ≠ '"' ∧ c ≠ '\\' ∧ 32 ≤ c.toNat ∨
      ∃ name, escape c = '\\' :: name ∧ ∀ cs, unescape? (name ++ cs) = some (c, cs) := by
  unfold escape
  split_ifs with hquote hbackslash hnewline hreturn htab hback hfeed hcontrol
  · obtain rfl := eq_of_beq hquote
    exact .inr ⟨_, rfl, fun _ => rfl⟩
  · obtain rfl := eq_of_beq hbackslash
    exact .inr ⟨_, rfl, fun _ => rfl⟩
  · obtain rfl := eq_of_beq hnewline
    exact .inr ⟨_, rfl, fun _ => rfl⟩
  · obtain rfl := eq_of_beq hreturn
    exact .inr ⟨_, rfl, fun _ => rfl⟩
  · obtain rfl := eq_of_beq htab
    exact .inr ⟨_, rfl, fun _ => rfl⟩
  · obtain rfl : c = '\x08' := Char.toNat_inj.mp (eq_of_beq hback)
    exact .inr ⟨_, rfl, fun _ => rfl⟩
  · obtain rfl : c = '\x0c' := Char.toNat_inj.mp (eq_of_beq hfeed)
    exact .inr ⟨_, rfl, fun _ => rfl⟩
  · exact .inr ⟨_, rfl, fun cs => unicode?_control hcontrol cs⟩
  · exact .inl ⟨rfl, by simpa using hquote, by simpa using hbackslash, by omega⟩

/-- Reading a text takes one step for each character, however that is written. -/
theorem text?_escape (fuel : Nat) (c : Char) (cs : List Char) :
    text? (fuel + 1) (escape c ++ cs) = (text? fuel cs).map fun (text, rest) =>
      (c :: text, rest) := by
  obtain ⟨hc, hquote, hbackslash, hcontrol⟩ | ⟨name, hc, hname⟩ := escape_cases c
  · rw [hc]
    cases h : text? fuel cs <;> simp [text?, Nat.not_lt.mpr hcontrol, h]
  · rw [hc]
    cases h : text? fuel cs <;> simp [text?, hname, h]

theorem length_le_flatMap_escape (s : List Char) : s.length ≤ (s.flatMap escape).length := by
  induction s with
  | nil => simp
  | cons c s ih =>
    have hc : 1 ≤ (escape c).length := by
      obtain ⟨hc, -⟩ | ⟨name, hc, -⟩ := escape_cases c <;> simp [hc]
    simp only [List.flatMap_cons, List.length_append, List.length_cons]
    omega

/-- A text is read back from its escaped characters up to the closing quote. -/
theorem text?_quoted {fuel : Nat} (s : List Char) (h : s.length < fuel) (rest : List Char) :
    text? fuel (s.flatMap escape ++ '"' :: rest) = some (s, rest) := by
  induction s generalizing fuel with
  | nil =>
    obtain ⟨fuel, rfl⟩ := Nat.exists_eq_add_of_lt h
    simp [text?]
  | cons c s ih =>
    obtain ⟨fuel, rfl⟩ : ∃ n, fuel = n + 1 := ⟨fuel - 1, by grind⟩
    rw [List.flatMap_cons, List.append_assoc, text?_escape, ih (by simpa using h)]
    rfl

theorem length_lt_quoted (s : String) : s.toList.length < (quoted s).length := by
  have := length_le_flatMap_escape s.toList
  simp only [quoted, List.length_append, List.length_cons]
  omega

theorem after?_quoted (s : String) (cs : List Char) :
    after? "\"" (skip (quoted s ++ cs)) = some (s.toList.flatMap escape ++ '"' :: cs) := by
  have hskip : skip (quoted s ++ cs) = '"' :: (s.toList.flatMap escape ++ '"' :: cs) := by
    simp [quoted, skip_cons (c := '"') rfl]
  rw [hskip]
  rfl

/-! ### Numbers -/

/-- Whether a number ends before a character. -/
def endsNumber (c : Char) : Bool :=
  !c.isDigit && c != '.' && c != 'e' && c != 'E'

/-- A text that does not carry on a number in front of it. -/
def Ends (rest : List Char) : Prop :=
  ∀ c ∈ rest.head?, endsNumber c = true

theorem ends_cons {c : Char} (h : endsNumber c = true) (cs : List Char) : Ends (c :: cs) := by
  rintro _ ⟨⟩
  exact h

theorem ends_newline (level : Nat) (cs : List Char) : Ends (newline level ++ cs) :=
  ends_cons rfl _

/-- Digits are read up to what ends a number. -/
theorem digits_append {ds rest : List Char} (hds : ∀ d ∈ ds, d.isDigit = true) (hrest : Ends rest) :
    digits (ds ++ rest) = (ds, rest) := by
  rw [digits, List.span_eq_takeWhile_dropWhile, List.takeWhile_append_of_pos hds,
    List.dropWhile_append_of_pos hds]
  cases rest with
  | nil => simp
  | cons c cs =>
    have hc : c.isDigit = false := by
      have := hrest c rfl
      simp_all [endsNumber]
    simp [hc]

theorem tail?_of_ends {mark : Char → Bool} {rest : List Char} (hrest : Ends rest)
    (hmark : ∀ c, mark c = true → endsNumber c = false) (signed : Bool) :
    tail? mark signed rest = some ([], rest) := by
  cases rest with
  | nil => rfl
  | cons c cs =>
    have hc : mark c = false := by
      by_contra h
      exact absurd (hrest c rfl) (by simp [hmark c (by simpa using h)])
    simp [tail?, hc]

/-- The digits of a number have its value. -/
theorem natOf_toDigits (n : Nat) : natOf (Nat.toDigits 10 n) = n := by
  conv_rhs => rw [← Nat.ofDigitChars_ten_toDigits (n := n), Nat.ofDigitChars_eq_foldl]
  simp only [natOf, Nat.mul_comm 10]

theorem digitChar_ne_zero : ∀ n < 10, n ≠ 0 → n.digitChar ≠ '0' := by
  decide

theorem head?_toDigits {n : Nat} (hn : n ≠ 0) : (Nat.toDigits 10 n).head? ≠ some '0' := by
  induction n using Nat.strongRecOn with
  | ind n ih =>
    rw [Nat.toDigits_eq_if (by decide)]
    split_ifs with hlt
    · simpa using digitChar_ne_zero n hlt hn
    · have hdiv := ih (n / 10) (by omega) (by omega)
      rw [List.head?_append]
      cases h : (Nat.toDigits 10 (n / 10)).head? with
      | none => simp [Nat.toDigits_ne_nil] at h
      | some d => simpa [h] using hdiv

theorem ne_of_isDigit {c d : Char} (hc : c.isDigit = true) (hd : d.isDigit = false) : c ≠ d := by
  rintro rfl
  simp_all

theorem toDigits_eq_cons (n : Nat) : ∃ c cs, Nat.toDigits 10 n = c :: cs ∧ c.isDigit = true := by
  obtain ⟨c, cs, h⟩ := List.exists_cons_of_ne_nil (Nat.toDigits_ne_nil (n := n) (b := 10))
  exact ⟨c, cs, h, Nat.isDigit_of_mem_toDigits (n := n) (b := 10) (by decide) (by decide)
    (by simp [h])⟩

/-- A whole number is read back, with a sign if it is not zero. -/
theorem number?_toDigits (negative : Bool) (n : Nat) (hn : negative = true → n ≠ 0)
    {rest : List Char} (hrest : Ends rest) :
    number? negative (Nat.toDigits 10 n ++ rest)
      = some (.int (if negative then -(n : Int) else n), rest) := by
  have hdigits : digits (Nat.toDigits 10 n ++ rest) = (Nat.toDigits 10 n, rest) :=
    digits_append (fun d hd => Nat.isDigit_of_mem_toDigits (by decide) (by decide) hd) hrest
  have hfraction : tail? (· == '.') false rest = some ([], rest) :=
    tail?_of_ends hrest (by simp [endsNumber]) false
  have hexponent : tail? (fun c => c == 'e' || c == 'E') true rest = some ([], rest) :=
    tail?_of_ends hrest (by simp [endsNumber]) true
  have hzero : (Nat.toDigits 10 n).isEmpty = false := by simp [Nat.toDigits_ne_nil]
  have hlead : ((Nat.toDigits 10 n).head? == some '0' && (Nat.toDigits 10 n).length != 1) =
      false := by
    by_cases h : n = 0
    · subst h
      rfl
    · simp [head?_toDigits h]
  have hsign : (negative && n == 0) = false := by
    cases negative <;> simp_all
  simp only [number?, hdigits, hzero, hlead, hfraction, hexponent, natOf_toDigits, hsign,
    Option.bind_eq_bind, Option.bind_some]
  rfl

/-! ### Values -/

/-- A value whose numbers are all whole. -/
inductive Whole : Json → Prop
  | null : Whole .null
  | bool (b : Bool) : Whole (.bool b)
  | int (n : Int) : Whole (.int n)
  | string (s : String) : Whole (.string s)
  | array {items : List Json} (h : ∀ j ∈ items, Whole j) : Whole (.array items)
  | object {members : List (String × Json)} (h : ∀ m ∈ members, Whole m.2) : Whole (.object members)

attribute [simp] Whole.null Whole.bool Whole.int Whole.string

@[simp]
theorem whole_array {items : List Json} : (array items).Whole ↔ ∀ j ∈ items, j.Whole :=
  ⟨fun (.array h) => h, .array⟩

@[simp]
theorem whole_object {members : List (String × Json)} :
    (object members).Whole ↔ ∀ m ∈ members, m.2.Whole :=
  ⟨fun (.object h) => h, .object⟩

@[simp]
theorem whole_ofOption {f : α → Json} {o : Option α} :
    (ofOption f o).Whole ↔ ∀ a ∈ o, (f a).Whole := by
  cases o <;> simp [ofOption]

/-- A value is read off the front of a text that goes on behind it. -/
def ReadsBack (j : Json) : Prop :=
  ∀ (level fuel : Nat) (rest : List Char), (write level j).length ≤ fuel → Ends rest →
    value? (fuel + 1) (write level j ++ rest) = some (j, rest)

/-- A written value begins with neither a blank nor a closing bracket. -/
theorem write_eq_cons {j : Json} (hj : j.Whole) (level : Nat) :
    ∃ c cs, write level j = c :: cs ∧ isSpace c = false ∧ c ≠ ']' := by
  cases hj with
  | null => exact ⟨_, _, rfl, rfl, by decide⟩
  | bool b => cases b <;> exact ⟨_, _, rfl, rfl, by decide⟩
  | int n =>
    cases n with
    | ofNat n =>
      obtain ⟨c, cs, h, hc⟩ := toDigits_eq_cons n
      refine ⟨c, cs, by rw [write, number, h], ?_, ne_of_isDigit hc rfl⟩
      simp only [isSpace, Bool.or_eq_false_iff, beq_eq_false_iff_ne]
      exact ⟨⟨⟨ne_of_isDigit hc rfl, ne_of_isDigit hc rfl⟩, ne_of_isDigit hc rfl⟩,
        ne_of_isDigit hc rfl⟩
    | negSucc n => exact ⟨_, _, rfl, rfl, by decide⟩
  | string s => exact ⟨_, _, rfl, rfl, by decide⟩
  | @array items _ =>
    cases items <;> exact ⟨_, _, rfl, rfl, by decide⟩
  | @object members _ =>
    cases members <;> exact ⟨_, _, rfl, rfl, by decide⟩

/-- A written value does not begin with a blank. -/
theorem skip_write {j : Json} (hj : j.Whole) (level : Nat) (cs : List Char) :
    skip (write level j ++ cs) = write level j ++ cs := by
  obtain ⟨c, _, hw, hc, -⟩ := write_eq_cons hj level
  rw [hw, List.cons_append, skip_cons hc]

theorem readsBack_int (n : Int) : ReadsBack (.int n) := by
  intro level fuel rest _ hrest
  cases n with
  | ofNat n =>
    obtain ⟨c, cs, h, hc⟩ := toDigits_eq_cons n
    have hread := number?_toDigits false n (by simp) hrest
    rw [write, number]
    rw [h, List.cons_append] at hread ⊢
    -- a digit opens no text, list or object, and it is no sign
    rw [value?]
    · simpa [hc] using hread
    all_goals exact ne_of_isDigit hc rfl
  | negSucc n =>
    have hread := number?_toDigits true (n + 1) (by simp) hrest
    rw [write, number, List.cons_append, value?]
    simpa [Int.negSucc_eq] using hread

theorem readsBack_string (s : String) : ReadsBack (.string s) := by
  intro level fuel rest hfuel _
  rw [write] at hfuel ⊢
  have hlength := Nat.lt_of_lt_of_le (length_lt_quoted s) hfuel
  simp [quoted, value?, text?_quoted _ hlength]

theorem items?_newline (fuel level : Nat) (cs : List Char) :
    items? fuel (newline level ++ cs) = items? fuel cs := by
  cases fuel <;> simp only [items?, skip_newline]

theorem members?_newline (fuel level : Nat) (cs : List Char) :
    members? fuel (newline level ++ cs) = members? fuel cs := by
  cases fuel <;> simp only [members?, skip_newline]

theorem after?_colon (cs : List Char) : after? ":" (skip (':' :: cs)) = some cs :=
  rfl

theorem skip_blank (cs : List Char) : skip (' ' :: cs) = skip cs :=
  rfl

/-! The reader of a list or an object takes one part, and what follows the part decides how it goes
on. -/

section Parts

variable {j : Json} (hj : j.Whole) (h : j.ReadsBack) (level fuel : Nat)

include hj h

theorem items?_last (hfuel : (write level j).length ≤ fuel) (below : Nat) (rest : List Char) :
    items? (fuel + 2) (write level j ++ (newline below ++ ']' :: rest)) = some ([j], rest) := by
  have hread := h level fuel _ hfuel (ends_newline below (']' :: rest))
  rw [items?, skip_write hj, hread, Option.bind_eq_bind, Option.bind_some]
  simp only [skip_newline, skip_cons (c := ']') rfl]
  rfl

theorem items?_next (hfuel : (write level j).length ≤ fuel) (rest : List Char) :
    items? (fuel + 2) (write level j ++ ',' :: rest)
      = (items? (fuel + 1) rest).map fun (items, rest) => (j :: items, rest) := by
  have hread := h level fuel _ hfuel (ends_cons (c := ',') rfl rest)
  rw [items?, skip_write hj, hread, Option.bind_eq_bind, Option.bind_some]
  simp only [skip_cons (c := ',') rfl]
  cases items? (fuel + 1) rest <;> rfl

variable (name : String)

theorem members?_last (hfuel : (quoted name).length + (write level j).length ≤ fuel) (below : Nat)
    (rest : List Char) :
    members? (fuel + 2)
        (quoted name ++ ':' :: ' ' :: (write level j ++ (newline below ++ '\x7d' :: rest)))
      = some ([(name, j)], rest) := by
  have hread := h level fuel _ (by omega) (ends_newline below ('\x7d' :: rest))
  have hname : name.toList.length < fuel + 1 := by have := length_lt_quoted name; omega
  rw [members?]
  simp only [after?_quoted, text?_quoted _ hname, after?_colon, skip_blank, skip_write hj, hread,
    skip_newline, skip_cons (c := '\x7d') rfl, Option.bind_eq_bind, Option.bind_some,
    String.ofList_toList]
  rfl

theorem members?_next (hfuel : (quoted name).length + (write level j).length ≤ fuel)
    (rest : List Char) :
    members? (fuel + 2) (quoted name ++ ':' :: ' ' :: (write level j ++ ',' :: rest))
      = (members? (fuel + 1) rest).map fun (members, rest) => ((name, j) :: members, rest) := by
  have hread := h level fuel _ (by omega) (ends_cons (c := ',') rfl rest)
  have hname : name.toList.length < fuel + 1 := by have := length_lt_quoted name; omega
  rw [members?]
  simp only [after?_quoted, text?_quoted _ hname, after?_colon, skip_blank, skip_write hj, hread,
    skip_cons (c := ',') rfl, Option.bind_eq_bind, Option.bind_some, String.ofList_toList]
  cases members? (fuel + 1) rest <;> rfl

end Parts

/-- The items of a list are read up to the bracket, if each of them is read back. -/
theorem items?_write (level below : Nat) {item : Json} {items : List Json}
    (hwhole : ∀ j ∈ item :: items, j.Whole) (h : ∀ j ∈ item :: items, j.ReadsBack) (fuel : Nat)
    (hfuel : (write level item).length + (writeItems level items).length ≤ fuel)
    (rest : List Char) :
    items? (fuel + 2)
      (write level item ++ (writeItems level items ++ (newline below ++ ']' :: rest)))
      = some (item :: items, rest) := by
  induction items generalizing item fuel with
  | nil => exact items?_last (hwhole _ (.head _)) (h _ (.head _)) level fuel (by omega) below rest
  | cons next items ih =>
    simp only [writeItems, List.cons_append, List.append_assoc, List.length_append,
      List.length_cons] at hfuel ⊢
    rw [items?_next (hwhole _ (.head _)) (h _ (.head _)) level fuel (by omega), items?_newline]
    obtain ⟨fuel, rfl⟩ : ∃ m, fuel = m + 1 := ⟨fuel - 1, by omega⟩
    rw [ih (fun j hj => hwhole j (.tail _ hj)) (fun j hj => h j (.tail _ hj)) fuel (by omega)]
    rfl

/-- The members of an object are read up to the brace, if each of their values is read back. -/
theorem members?_write (level below : Nat) {name : String} {value : Json}
    {members : List (String × Json)} (hwhole : ∀ m ∈ (name, value) :: members, m.2.Whole)
    (h : ∀ m ∈ (name, value) :: members, m.2.ReadsBack) (fuel : Nat)
    (hfuel : (quoted name).length + (write level value).length + (writeMembers level members).length
      ≤ fuel) (rest : List Char) :
    members? (fuel + 2) (quoted name ++ ':' :: ' ' :: (write level value
        ++ (writeMembers level members ++ (newline below ++ '\x7d' :: rest))))
      = some ((name, value) :: members, rest) := by
  induction members generalizing name value fuel with
  | nil =>
    exact members?_last (j := value) (hwhole _ (.head _)) (h _ (.head _)) level fuel name (by omega)
      below rest
  | cons next members ih =>
    simp only [writeMembers, List.cons_append, List.append_assoc, List.length_append,
      List.length_cons, List.nil_append] at hfuel ⊢
    rw [members?_next (j := value) (hwhole _ (.head _)) (h _ (.head _)) level fuel name (by omega),
      members?_newline]
    obtain ⟨fuel, rfl⟩ : ∃ m, fuel = m + 1 := ⟨fuel - 1, by omega⟩
    rw [ih (fun m hm => hwhole m (.tail _ hm)) (fun m hm => h m (.tail _ hm)) fuel (by omega)]
    rfl

/-- A value without fractions is read back from what is written for it, with the length of the text
as fuel. -/
theorem readsBack {j : Json} (hj : j.Whole) : j.ReadsBack := by
  induction hj with
  | null => exact fun _ _ _ _ _ => rfl
  | bool b => cases b <;> exact fun _ _ _ _ _ => rfl
  | int n => exact readsBack_int n
  | string s => exact readsBack_string s
  | @array items hwhole ih =>
    intro level fuel rest hfuel _
    cases items with
    | nil => rfl
    | cons item items =>
      obtain ⟨c, cs, hcons, hspace, hc⟩ := write_eq_cons (hwhole item (by simp)) (level + 1)
      simp only [write, List.length_append, List.length_cons, List.cons_append, List.append_assoc,
        List.nil_append] at hfuel ⊢
      obtain ⟨fuel, rfl⟩ : ∃ m, fuel = m + 2 := ⟨fuel - 2, by omega⟩
      have hitems := items?_write (level + 1) level hwhole ih fuel (by omega) rest
      rw [hcons, List.cons_append] at hitems ⊢
      rw [value?, skip_newline, skip_cons hspace]
      -- the first item does not begin with a bracket, so the list is not taken for an empty one
      split
      · simp_all
      · rw [hitems]
        rfl
  | @object members hwhole ih =>
    intro level fuel rest hfuel _
    cases members with
    | nil => rfl
    | cons member members =>
      simp only [write, List.length_append, List.length_cons, List.cons_append, List.append_assoc,
        List.nil_append] at hfuel ⊢
      obtain ⟨fuel, rfl⟩ : ∃ m, fuel = m + 2 := ⟨fuel - 2, by omega⟩
      have hmembers := members?_write (level + 1) level hwhole ih fuel (by omega) rest
      rw [quoted, List.cons_append, List.cons_append] at hmembers ⊢
      rw [value?, skip_newline, skip_cons rfl]
      split
      · simp_all
      · rw [hmembers]
        rfl

/-- A written value is read back. -/
theorem parse?_write {j : Json} (hj : j.Whole) :
    parse? (String.ofList (write 0 j ++ ['\n'])) = some j := by
  have hread := readsBack hj 0 (write 0 j ++ ['\n']).length ['\n'] (by simp) (ends_cons rfl [])
  simp only [parse?, String.toList_ofList, skip_write hj, hread]
  rfl

end NilGuard.Json
