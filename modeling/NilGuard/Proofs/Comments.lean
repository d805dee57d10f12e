import Mathlib
import NilGuard.Suppression

/-!
Comments of lines. When the literals of a line are complete, its comment begins at the first `//`
that stands in none of them (`CodeLine.commentStart?_eq_some_iff`). Lines of any other kind are
scanned as well: the offset that is found is always the beginning of a character, and whether the
line is suppressed is decided by the text behind it.

A scan over the bytes of a line finds the same (`scanBytes_utf8`), although it takes an escape to be
one byte long: what is left of an escaped character are bytes that no ASCII character has, and they
are passed over one by one.
-/

namespace NilGuard

/-! ### Occurrences -/

namespace Text

theorem contains_iff (needle cs : List Char) : contains needle cs = true ↔ needle <:+: cs := by
  induction cs with
  | nil => simp [contains]
  | cons c cs ih =>
    rw [contains, Bool.or_eq_true, List.isPrefixOf_iff_prefix, ih, List.infix_cons_iff]

/-- A text occurs behind a cut when it occurs in the whole text at the cut or behind it. -/
theorem infix_iff_exists {needle front back : List Char} : needle <:+: back ↔
    ∃ before after, front ++ back = before ++ (needle ++ after) ∧
      byteLength front ≤ byteLength before := by
  constructor
  · rintro ⟨before, after, rfl⟩
    exact ⟨front ++ before, after, by simp, by simp⟩
  · rintro ⟨before, after, h, hle⟩
    obtain ⟨mid, rfl, rfl⟩ := exists_between h hle
    exact ⟨mid, after, by simp⟩

end Text

/-! ### Lines of code and literals -/

namespace LineState

/-- The inside of a literal between two quotes, where a backslash escapes any character. -/
inductive Inside (quote : Char) : List Char → Prop where
  | nil : Inside quote []
  | plain {c : Char} {cs : List Char} (hquote : c ≠ quote) (hescape : c ≠ '\\')
    (h : Inside quote cs) :
      Inside quote (c :: cs)
  | escape (c : Char) {cs : List Char} (h : Inside quote cs) : Inside quote ('\\' :: c :: cs)

/-- A complete literal: a string, a rune or a raw string. -/
inductive IsLiteral : List Char → Prop where
  | quoted {quote : Char} {body : List Char} (hquote : quote = '"' ∨ quote = '\'')
      (h : Inside quote body) : IsLiteral (quote :: (body ++ [quote]))
  | raw {body : List Char} (h : '\x60' ∉ body) : IsLiteral ('\x60' :: (body ++ ['\x60']))

/-- A part of a line. -/
inductive Part where
  | code (text : List Char) (plain : ∀ c ∈ text, isQuote c = false)
  | literal (text : List Char) (complete : IsLiteral text)

/-- The characters of a part, each with whether it stands in a literal. -/
def Part.marks : Part → List (Char × Bool)
  | .code text _ => text.map (·, false)
  | .literal text _ => text.map (·, true)

end LineState

open LineState

/-- A line of code and complete literals, with a comment or none at its end. -/
structure CodeLine where
  parts : List Part
  comment : List Char
  comment_eq : comment = [] ∨ "//".toList <+: comment

/-- There is a `//` outside of literals at an offset. -/
def Opens (marks : List (Char × Bool)) (n : Nat) : Prop :=
  ∃ before after, marks = before ++ ('/', false) :: ('/', false) :: after ∧
    Text.byteLength (before.map (·.1)) = n

/-- The first offset with a `//` outside of literals. -/
def firstOpening? : List (Char × Bool) → Option Nat
  | [] => none
  | mark :: marks =>
    if mark = ('/', false) ∧ marks.head? = some ('/', false) then some 0
    else (firstOpening? marks).map (mark.1.utf8Size + ·)

theorem opens_cons {mark : Char × Bool} {marks : List (Char × Bool)} {n : Nat} :
    Opens (mark :: marks) n ↔
    (mark = ('/', false) ∧ marks.head? = some ('/', false)) ∧ n = 0 ∨
      ∃ m, Opens marks m ∧ mark.1.utf8Size + m = n := by
  constructor
  · rintro ⟨before, after, hmarks, rfl⟩
    cases before with
    | nil =>
      obtain ⟨rfl, rfl⟩ := List.cons.inj hmarks
      exact .inl ⟨⟨rfl, rfl⟩, rfl⟩
    | cons first before =>
      obtain ⟨rfl, rfl⟩ := List.cons.inj hmarks
      exact .inr ⟨_, ⟨before, after, rfl, rfl⟩, rfl⟩
  · rintro (⟨⟨rfl, hhead⟩, rfl⟩ | ⟨m, ⟨before, after, rfl, rfl⟩, rfl⟩)
    · obtain ⟨after, rfl⟩ := List.head?_eq_some_iff.mp hhead
      exact ⟨[], after, rfl, rfl⟩
    · exact ⟨mark :: before, after, rfl, rfl⟩

theorem firstOpening?_eq_some_iff {marks : List (Char × Bool)} {n : Nat} :
    firstOpening? marks = some n ↔ IsLeast {m | Opens marks m} n := by
  induction marks generalizing n with
  | nil =>
    have hnone : ∀ m, ¬ Opens [] m := by
      rintro m ⟨before, after, hmarks, -⟩
      simp at hmarks
    simp [firstOpening?, IsLeast, hnone]
  | cons mark marks ih =>
    have hpos := mark.1.utf8Size_pos
    rw [firstOpening?]
    split
    · next hopen =>
      have hzero : IsLeast {m | Opens (mark :: marks) m} 0 :=
        ⟨opens_cons.mpr (.inl ⟨hopen, rfl⟩), fun m _ => Nat.zero_le m⟩
      constructor
      · rintro ⟨⟩
        exact hzero
      · exact fun h => congrArg some (hzero.unique h)
    · next hopen =>
      have hmem : ∀ m, Opens (mark :: marks) m ↔ ∃ k, Opens marks k ∧ mark.1.utf8Size + k = m := by
        intro m
        rw [opens_cons, or_iff_right fun h => hopen h.1]
      simp only [Option.map_eq_some_iff, ih, IsLeast, lowerBounds, Set.mem_ofPred_eq, hmem]
      constructor
      · rintro ⟨k, ⟨hk, hleast⟩, rfl⟩
        refine ⟨⟨k, hk, rfl⟩, ?_⟩
        rintro m ⟨k', hk', rfl⟩
        exact Nat.add_le_add_left (hleast hk') _
      · rintro ⟨⟨k, hk, rfl⟩, hleast⟩
        refine ⟨k, ⟨hk, fun k' hk' => ?_⟩, rfl⟩
        exact Nat.le_of_add_le_add_left (hleast ⟨k', hk', rfl⟩)

theorem firstOpening?_literal (text : List Char) (marks : List (Char × Bool)) :
    firstOpening? (text.map (·, true) ++ marks) =
      (firstOpening? marks).map (Text.byteLength text + ·) := by
  induction text with
  | nil => simp
  | cons c text ih =>
    rw [List.map_cons, List.cons_append, firstOpening?, if_neg (by simp), ih, Option.map_map]
    simp [Function.comp_def, Nat.add_assoc]

/-! ### Scanning such a line -/

namespace LineState

theorem slashes_prefix_iff {c : Char} {cs : List Char} :
    "//".toList <+: c :: cs ↔ c = '/' ∧ cs.head? = some '/' := by
  cases cs <;> simp [List.cons_prefix_cons, eq_comm]

/-- In front of what is left to scan, the state says whether a comment can begin. -/
theorem commentStart?_cons_of_ne {state : LineState} (h : state ≠ .code) (c : Char)
    (cs : List Char) :
    state.commentStart? (c :: cs) = ((state.next c).commentStart? cs).map (c.utf8Size + ·) := by
  rw [commentStart?, if_neg fun hc => h hc.1]

theorem commentStart?_inside {quote : Char} (hquote : quote ≠ '\x60') (hne : quote ≠ '\\')
    {body : List Char} (h : Inside quote body) (cs : List Char) :
    (literal quote).commentStart? (body ++ quote :: cs) =
      (code.commentStart? cs).map (Text.byteLength (body ++ [quote]) + ·) := by
  induction h with
  | nil =>
    rw [List.nil_append, commentStart?_cons_of_ne (by simp), next, if_neg (by simp [hne]),
      if_pos rfl]
    simp
  | @plain c body hc hescape _ ih =>
    rw [List.cons_append, commentStart?_cons_of_ne (by simp), next, if_neg (by simp [hescape]),
      if_neg hc, ih]
    simp [Function.comp_def, Nat.add_assoc]
  | @escape c body _ ih =>
    rw [List.cons_append, List.cons_append, commentStart?_cons_of_ne (by simp), next,
      if_pos ⟨rfl, hquote⟩, commentStart?_cons_of_ne (by simp), next, ih]
    simp [Function.comp_def, Nat.add_assoc]

theorem commentStart?_raw {body : List Char} (h : '\x60' ∉ body) (cs : List Char) :
    (literal '\x60').commentStart? (body ++ '\x60' :: cs) =
      (code.commentStart? cs).map (Text.byteLength (body ++ ['\x60']) + ·) := by
  induction body with
  | nil =>
    rw [List.nil_append, commentStart?_cons_of_ne (by simp), next, if_neg (by simp), if_pos rfl]
    simp
  | cons c body ih =>
    obtain ⟨hc, hbody⟩ := not_or.mp (List.mem_cons.not.mp h)
    rw [List.cons_append, commentStart?_cons_of_ne (by simp), next, if_neg (by simp),
      if_neg (Ne.symm hc), ih hbody]
    simp [Function.comp_def, Nat.add_assoc]

/-- A complete literal is passed over, whatever is in it. -/
theorem commentStart?_literal {text : List Char} (h : IsLiteral text) (cs : List Char) :
    code.commentStart? (text ++ cs) = (code.commentStart? cs).map (Text.byteLength text + ·) := by
  have hopen : ∀ {quote : Char} {rest : List Char}, isQuote quote = true →
      code.commentStart? (quote :: rest) =
        ((literal quote).commentStart? rest).map (quote.utf8Size + ·) := by
    intro quote rest hquote
    have hslash : quote ≠ '/' := by
      rintro rfl
      exact absurd hquote (by decide)
    rw [commentStart?, if_neg fun hc => hslash (slashes_prefix_iff.mp hc.2).1, next, if_pos hquote]
  cases h with
  | @quoted quote body hquote h =>
    have hne : quote ≠ '\x60' ∧ quote ≠ '\\' ∧ isQuote quote = true := by
      rcases hquote with rfl | rfl <;> decide
    rw [List.cons_append, List.append_assoc, List.singleton_append, hopen hne.2.2,
      commentStart?_inside hne.1 hne.2.1 h]
    simp [Function.comp_def, Nat.add_assoc]
  | @raw body h =>
    rw [List.cons_append, List.append_assoc, List.singleton_append, hopen rfl, commentStart?_raw h]
    simp [Function.comp_def, Nat.add_assoc]

end LineState

namespace CodeLine

/-- The characters of a line, each with whether it stands in a literal. -/
def marks (l : CodeLine) : List (Char × Bool) :=
  l.parts.flatMap Part.marks ++ l.comment.map (·, false)

/-- The text of a line. -/
def text (l : CodeLine) : List Char :=
  l.marks.map (·.1)

/-- No literal begins with a slash, so a slash in front is not in a literal. -/
theorem head?_marks (l : CodeLine) : l.marks.head? = some ('/', false) ↔
    l.text.head? = some '/' := by
  obtain ⟨parts, comment, hcomment⟩ := l
  induction parts with
  | nil => cases comment <;> simp [marks, text]
  | cons part parts ih =>
    cases part with
    | code body plain =>
      cases body with
      | nil => exact ih
      | cons c body => simp [marks, text, Part.marks]
    | literal body complete =>
      cases complete with
      | @quoted quote body hquote h =>
        rcases hquote with rfl | rfl <;> simp [marks, text, Part.marks]
      | raw h => simp [marks, text, Part.marks]

theorem commentStart?_text (l : CodeLine) :
    NilGuard.commentStart? l.text = firstOpening? l.marks := by
  obtain ⟨parts, comment, hcomment⟩ := l
  induction parts with
  | nil =>
    rcases hcomment with rfl | ⟨rest, rfl⟩
    · rfl
    · simp [marks, text, NilGuard.commentStart?, LineState.commentStart?, firstOpening?]
  | cons part parts ih =>
    cases part with
    | literal body complete =>
      have htext : text ⟨.literal body complete :: parts, comment, hcomment⟩ =
          body ++ text ⟨parts, comment, hcomment⟩ := by
        simp [text, marks, Part.marks, Function.comp_def]
      have hmarks : marks ⟨.literal body complete :: parts, comment, hcomment⟩ =
          body.map (·, true) ++ marks ⟨parts, comment, hcomment⟩ := by
        simp [marks, Part.marks]
      rw [htext, hmarks, firstOpening?_literal, ← ih]
      exact commentStart?_literal complete _
    | code body plain =>
      induction body with
      | nil => exact ih
      | cons c body ihbody =>
        obtain ⟨hc, hbody⟩ := List.forall_mem_cons.mp plain
        let rest : CodeLine := ⟨.code body hbody :: parts, comment, hcomment⟩
        have htext : text ⟨.code (c :: body) plain :: parts, comment, hcomment⟩ = c :: rest.text :=
          rfl
        have hmarks : marks ⟨.code (c :: body) plain :: parts, comment, hcomment⟩ =
            (c, false) :: rest.marks := rfl
        have hnext : LineState.code.next c = .code := by simp [next, hc]
        have hrest : LineState.code.commentStart? rest.text = firstOpening? rest.marks :=
          ihbody hbody
        rw [htext, hmarks, firstOpening?, NilGuard.commentStart?, LineState.commentStart?,
          hnext, hrest]
        refine if_congr ?_ rfl rfl
        rw [slashes_prefix_iff, rest.head?_marks]
        simp

/-- The comment of a line begins at the first `//` outside of its literals. -/
theorem commentStart?_eq_some_iff (l : CodeLine) {n : Nat} :
    NilGuard.commentStart? l.text = some n ↔ IsLeast {m | Opens l.marks m} n := by
  rw [commentStart?_text, firstOpening?_eq_some_iff]

/-- A line without a comment has no `//` outside of its literals. -/
theorem commentStart?_eq_none_iff (l : CodeLine) :
    NilGuard.commentStart? l.text = none ↔ ∀ m, ¬ Opens l.marks m := by
  constructor
  · intro hnone m hm
    classical
    have hleast : IsLeast {m | Opens l.marks m} (Nat.find ⟨m, hm⟩) :=
      ⟨Nat.find_spec ⟨m, hm⟩, fun k hk => Nat.find_min' ⟨m, hm⟩ hk⟩
    rw [← l.commentStart?_eq_some_iff, hnone] at hleast
    cases hleast
  · intro hnone
    refine Option.eq_none_iff_forall_ne_some.mpr fun n hn => ?_
    exact hnone n (l.commentStart?_eq_some_iff.mp hn).1

end CodeLine

/-! ### Scanning bytes -/

/-- The bytes of a text. -/
def utf8 (cs : List Char) : List UInt8 :=
  cs.flatMap String.utf8EncodeChar

/-- What a scan does at a byte, with the quote of the literal that it is in and with the next byte:
nothing more where a comment begins, or else the new quote and how many of the next bytes are passed
over. In a literal an escape is a backslash and one byte. -/
def scanByte? (quote : Option UInt8) (b : UInt8) (ahead : Option UInt8) :
    Option (Option UInt8 × Nat) :=
  match quote with
  | some q =>
    if q ≠ '\x60'.toUInt8 ∧ b = '\\'.toUInt8 then some (some q, 1)
    else if b = q then some (none, 0)
    else some (some q, 0)
  | none =>
    if b = '"'.toUInt8 ∨ b = '\''.toUInt8 ∨ b = '\x60'.toUInt8 then some (some b, 0)
    else if b = '/'.toUInt8 ∧ ahead = some '/'.toUInt8 then none
    else some (none, 0)

/-- The offset where a comment begins in the bytes of a line, from the given offset on. -/
def scanBytes (bytes : List UInt8) (quote : Option UInt8) (i : Nat) : Option Nat :=
  if h : i < bytes.length then
    match scanByte? quote bytes[i] bytes[i + 1]? with
    | none => some i
    | some (quote, skipped) => scanBytes bytes quote (i + 1 + skipped)
  else none
termination_by bytes.length - i

theorem toNat_toUInt8 {c : Char} (h : c.val ≤ 127) : c.toUInt8.toNat = c.val.toNat ∧
    c.val.toNat < 128 := by
  have h127 : (127 : UInt32).toNat = 127 := rfl
  rw [UInt32.le_iff_toNat_le] at h
  simp only [Char.toUInt8, UInt32.toNat_toUInt8]
  omega

/-- Only the first byte of a character can be that of an ASCII character, and then it is one. -/
theorem exists_utf8_cons (c : Char) : ∃ b high, String.utf8EncodeChar c = b :: high ∧
    (∀ x ∈ high, 128 ≤ x.toNat) ∧ ∀ d : Char, d.val ≤ 127 → (b = d.toUInt8 ↔ c = d) := by
  have hsize := String.length_utf8EncodeChar c
  by_cases hc : c.val ≤ 127
  · refine ⟨c.toUInt8, [], String.utf8EncodeChar_eq_singleton
      (Char.utf8Size_eq_one_iff.mpr hc), by simp, fun d hd => ⟨fun h => ?_, fun h => h ▸ rfl⟩⟩
    have hnat := congrArg UInt8.toNat h
    rw [(toNat_toUInt8 hc).1, (toNat_toUInt8 hd).1] at hnat
    exact Char.ext (UInt32.toNat_inj.mp hnat)
  · have hhigh : ∀ x ∈ String.utf8EncodeChar c, 128 ≤ x.toNat := by
      rw [UInt32.le_iff_toNat_le] at hc
      unfold String.utf8EncodeChar
      simp only
      split
      · exact absurd ‹_› hc
      split
      · simp; omega
      split
      · simp; omega
      · simp; omega
    obtain ⟨b, high, hb⟩ := List.exists_cons_of_ne_nil (l := String.utf8EncodeChar c) (by
      have := c.utf8Size_pos
      rintro hnil
      simp [hnil] at hsize
      omega)
    rw [hb] at hhigh
    obtain ⟨hb', hhigh⟩ := List.forall_mem_cons.mp hhigh
    refine ⟨b, high, hb, hhigh, fun d hd => ⟨fun h => ?_, fun h => ?_⟩⟩
    · have hlt := toNat_toUInt8 hd
      rw [← h] at hlt
      omega
    · exact absurd (h ▸ hd) hc

theorem head?_utf8 (cs : List Char) : (utf8 cs).head? = some '/'.toUInt8 ↔ cs.head? = some '/' := by
  cases cs with
  | nil => simp [utf8]
  | cons c cs =>
    obtain ⟨b, high, hb, -, hascii⟩ := exists_utf8_cons c
    simp [utf8, hb, hascii '/' (by decide)]

theorem scanBytes_cons (before rest : List UInt8) (quote : Option UInt8) (b : UInt8) :
    scanBytes (before ++ b :: rest) quote before.length =
      match scanByte? quote b rest.head? with
      | none => some before.length
      | some (quote, skipped) => scanBytes (before ++ b :: rest) quote
        (before.length + 1 + skipped) := by
  have hlt : before.length < (before ++ b :: rest).length := by simp
  have hat : (before ++ b :: rest)[before.length] = b := by simp
  have hnext : (before ++ b :: rest)[before.length + 1]? = rest.head? := by
    rw [List.getElem?_append_right (by omega), Nat.add_sub_cancel_left, List.getElem?_cons_succ,
      List.head?_eq_getElem?]
  rw [scanBytes, dif_pos hlt, hat, hnext]

namespace LineState

/-- The quote of the literal that a scan is in. -/
def quote? : LineState → Option Char
  | .code => none
  | .literal q | .escaped q => some q

/-- Whether the next character is passed over. -/
def skips : LineState → Nat
  | .escaped _ => 1
  | _ => 0

/-- What is open is a quote. -/
def Quoted (state : LineState) : Prop :=
  ∀ q, state.quote? = some q → isQuote q = true

theorem val_le_of_isQuote {q : Char} (h : isQuote q = true) : q.val ≤ 127 := by
  simp only [isQuote, Bool.or_eq_true, beq_iff_eq] at h
  rcases h with (rfl | rfl) | rfl <;> decide

theorem Quoted.next {state : LineState} (h : state.Quoted) (c : Char) : (state.next c).Quoted := by
  cases state with
  | code =>
    rw [LineState.next]
    split
    · rintro q ⟨⟩
      assumption
    · rintro q ⟨⟩
  | literal q =>
    rw [LineState.next]
    split
    · exact h
    · split
      · rintro q ⟨⟩
      · exact h
  | escaped q => exact h

/-- Only a backslash has the next character passed over. -/
theorem eq_of_skips_next {state : LineState} (h : state.skips = 0) {c : Char}
    (hc : (state.next c).skips ≠ 0) : c = '\\' := by
  cases state with
  | code =>
    rw [LineState.next] at hc
    split at hc <;> exact absurd rfl hc
  | literal q =>
    rw [LineState.next] at hc
    split at hc
    · next hescape => exact hescape.1
    · split at hc <;> exact absurd rfl hc
  | escaped q => cases h

/-- A byte that is the first one of a character is scanned as the character is. -/
theorem scanByte?_eq {state : LineState} (h : state.Quoted) (hskips : state.skips = 0) {c : Char}
    {b : UInt8} (hb : ∀ d : Char, d.val ≤ 127 → (b = d.toUInt8 ↔ c = d)) (ahead : Option UInt8) :
    scanByte? (state.quote?.map Char.toUInt8) b ahead =
      if state = .code ∧ c = '/' ∧ ahead = some '/'.toUInt8 then none
      else some ((state.next c).quote?.map Char.toUInt8, (state.next c).skips) := by
  cases state with
  | code =>
    have hquote : (b = '"'.toUInt8 ∨ b = '\''.toUInt8 ∨ b = '\x60'.toUInt8) ↔ isQuote c = true := by
      rw [hb '"' (by decide), hb '\'' (by decide), hb '\x60' (by decide)]
      simp [isQuote, or_assoc]
    simp only [quote?, Option.map_none, scanByte?, hquote, hb '/' (by decide), true_and,
      LineState.next]
    by_cases hc : isQuote c = true
    · have hslash : c ≠ '/' := by
        rintro rfl
        exact absurd hc (by decide)
      have hbyte : b = c.toUInt8 := (hb c (val_le_of_isQuote hc)).mpr rfl
      simp [hc, hslash, hbyte, skips]
    · simp [hc, skips]
  | literal q =>
    have hq := h q rfl
    have hraw : q.toUInt8 = '\x60'.toUInt8 ↔ q = '\x60' := by
      simp only [isQuote, Bool.or_eq_true, beq_iff_eq] at hq
      rcases hq with (rfl | rfl) | rfl <;> decide
    simp only [quote?, Option.map_some, scanByte?, ne_eq, hraw, hb '\\' (by decide),
      hb q (val_le_of_isQuote hq), LineState.next, and_comm, reduceCtorEq, false_and, if_false]
    split
    · rfl
    · split <;> rfl
  | escaped q => cases hskips

end LineState

/-- Bytes of no ASCII character are passed over. -/
theorem scanBytes_high (before : List UInt8) {high : List UInt8} (rest : List UInt8)
    (hhigh : ∀ b ∈ high, 128 ≤ b.toNat) {quote : Option UInt8}
    (hquote : ∀ q ∈ quote, q.toNat < 128) :
    scanBytes (before ++ (high ++ rest)) quote before.length =
      scanBytes (before ++ (high ++ rest)) quote (before.length + high.length) := by
  induction high generalizing before with
  | nil => rfl
  | cons b high ih =>
    obtain ⟨hb, hhigh⟩ := List.forall_mem_cons.mp hhigh
    have hne : ∀ x : UInt8, x.toNat < 128 → b ≠ x := by
      rintro x hx rfl
      omega
    have hstep : scanByte? quote b (high ++ rest).head? = some (quote, 0) := by
      cases quote with
      | none =>
        simp [scanByte?, hne '"'.toUInt8 (by decide), hne '\''.toUInt8 (by decide),
          hne '\x60'.toUInt8 (by decide), hne '/'.toUInt8 (by decide)]
      | some q => simp [scanByte?, hne '\\'.toUInt8 (by decide), hne q (hquote q rfl)]
    have hrest := ih (before ++ [b]) hhigh
    simp only [List.append_assoc, List.singleton_append, List.length_append,
      List.length_singleton] at hrest
    rw [List.cons_append, scanBytes_cons, hstep, List.length_cons]
    simp only [Nat.add_zero]
    rw [hrest, Nat.add_assoc, Nat.add_comm 1]

/-- Behind the first byte of a character the others are passed over. A byte is skipped only behind a
character that has no others. -/
theorem scanBytes_behind {state : LineState} (h : state.Quoted) (before : List UInt8) (b : UInt8)
    {high : List UInt8} (rest : List UInt8) (hhigh : ∀ x ∈ high, 128 ≤ x.toNat)
    (hskips : state.skips ≠ 0 → high = []) :
    scanBytes (before ++ b :: (high ++ rest)) (state.quote?.map Char.toUInt8)
        (before.length + 1 + state.skips) =
      scanBytes (before ++ b :: high ++ rest) (state.quote?.map Char.toUInt8)
        ((before ++ b :: high).length + state.skips) := by
  by_cases hzero : state.skips = 0
  · have hquote : ∀ q ∈ state.quote?.map Char.toUInt8, q.toNat < 128 := by
      intro q hq
      obtain ⟨d, hd, rfl⟩ := Option.map_eq_some_iff.mp hq
      have hlt := toNat_toUInt8 (val_le_of_isQuote (h d hd))
      omega
    have hpass := scanBytes_high (before ++ [b]) rest hhigh hquote
    simpa [hzero, Nat.add_assoc, Nat.add_comm 1] using hpass
  · simp [hskips hzero]

/-- A scan over the bytes of a line stops where the scan over its characters does. -/
theorem scanBytes_utf8 {state : LineState} (h : state.Quoted) (before : List UInt8)
    (cs : List Char) :
    scanBytes (before ++ utf8 cs) (state.quote?.map Char.toUInt8) (before.length + state.skips) =
      (state.commentStart? cs).map (before.length + ·) := by
  induction cs generalizing state before with
  | nil =>
    rw [scanBytes, dif_neg (by simp [utf8])]
    rfl
  | cons c cs ih =>
    obtain ⟨b, high, hbytes, hhigh, hb⟩ := exists_utf8_cons c
    have hutf8 : utf8 (c :: cs) = b :: (high ++ utf8 cs) := by simp [utf8, hbytes]
    have hsize : c.utf8Size = 1 + high.length := by
      rw [← String.length_utf8EncodeChar, hbytes, List.length_cons, Nat.add_comm]
    -- behind the character the induction hypothesis is about the state that it leads to
    have hbehind : ∀ {state' : LineState}, state'.Quoted → (state'.skips ≠ 0 → high = []) →
        scanBytes (before ++ utf8 (c :: cs)) (state'.quote?.map Char.toUInt8)
          (before.length + 1 + state'.skips) =
            ((state'.commentStart? cs).map (c.utf8Size + ·)).map (before.length + ·) := by
      intro state' hquoted hskips
      rw [hutf8, scanBytes_behind hquoted before b (utf8 cs) hhigh hskips, ih hquoted,
        Option.map_map]
      congr 1
      funext n
      simp [hsize]
      omega
    have hascii : c.val ≤ 127 → high = [] := by
      intro hc
      rw [Char.utf8Size_eq_one_iff.mpr hc] at hsize
      exact List.length_eq_zero_iff.mp (by omega)
    by_cases hskips : state.skips = 0
    · have hopen : (state = .code ∧ c = '/' ∧ (high ++ utf8 cs).head? = some '/'.toUInt8) ↔
          state = .code ∧ "//".toList <+: c :: cs := by
        rw [slashes_prefix_iff]
        refine and_congr_right fun _ => and_congr_right fun hc => ?_
        rw [hascii (hc ▸ by decide), List.nil_append, head?_utf8]
      rw [hskips, Nat.add_zero, LineState.commentStart?, hutf8, scanBytes_cons,
        scanByte?_eq h hskips hb]
      by_cases hcomment : state = .code ∧ "//".toList <+: c :: cs
      · rw [if_pos (hopen.mpr hcomment), if_pos hcomment, Option.map_some]
        rfl
      · rw [if_neg (hopen.not.mpr hcomment), if_neg hcomment, ← hutf8]
        exact hbehind (h.next c) fun hnext => hascii (eq_of_skips_next hskips hnext ▸ by decide)
    · cases state with
      | code | literal q => exact absurd rfl hskips
      | escaped q =>
        rw [commentStart?_cons_of_ne (by simp), next]
        exact @hbehind (.literal q) h (absurd rfl ·)

/-! ### Suppressed lines -/

/-- Where a comment begins the line can be cut. -/
theorem exists_cut {line : List Char} {n : Nat} (h : commentStart? line = some n) :
    ∃ before comment, line = before ++ ("//".toList ++ comment) ∧ Text.byteLength before = n ∧
      Text.dropBytes line n = some ("//".toList ++ comment) := by
  obtain ⟨before, comment, rfl, rfl⟩ := LineState.exists_of_commentStart? h
  refine ⟨before, comment, List.append_assoc .., rfl, ?_⟩
  rw [List.append_assoc, Text.dropBytes, Text.splitAtByte_append, Option.map_some]

theorem suppressed_iff {marker line : List Char} : suppressed marker line = true ↔
    marker ≠ [] ∧ ∃ n, commentStart? line = some n ∧
      ∃ before after, line = before ++ (marker ++ after) ∧ n ≤ Text.byteLength before := by
  rw [suppressed, Bool.and_eq_true, Bool.not_eq_true', List.isEmpty_eq_false_iff,
    Option.any_eq_true]
  refine and_congr_right fun _ => ?_
  simp only [Option.bind_eq_some_iff, Text.contains_iff]
  constructor
  · rintro ⟨rest, ⟨n, hn, hrest⟩, hmarker⟩
    obtain ⟨before, comment, rfl, rfl, hdrop⟩ := exists_cut hn
    rw [hdrop, Option.some.injEq] at hrest
    exact ⟨_, hn, Text.infix_iff_exists.mp (hrest ▸ hmarker)⟩
  · rintro ⟨n, hn, hmarker⟩
    obtain ⟨before, comment, rfl, rfl, hdrop⟩ := exists_cut hn
    exact ⟨_, ⟨_, hn, hdrop⟩, Text.infix_iff_exists.mpr hmarker⟩

/-- In a line of code and complete literals, the comment begins at the least offset of a `//`
outside of the literals. In any line, a scan over the bytes finds what the scan over the characters
does, the line can be cut there, and it is suppressed when a marker that is not empty occurs at that
offset or behind it. -/
theorem comment_begins_outside_literals :
    (∀ l : CodeLine, (∀ n, commentStart? l.text = some n ↔ IsLeast {m | Opens l.marks m} n) ∧
      (commentStart? l.text = none ↔ ∀ m, ¬ Opens l.marks m)) ∧
    ∀ marker line : List Char,
      scanBytes (utf8 line) none 0 = commentStart? line ∧
      (∀ n ∈ commentStart? line, ∃ before comment, line = before ++ ("//".toList ++ comment) ∧
        Text.byteLength before = n ∧ Text.dropBytes line n = some ("//".toList ++ comment)) ∧
      (suppressed marker line = true ↔ marker ≠ [] ∧ ∃ n, commentStart? line = some n ∧
        ∃ before after, line = before ++ (marker ++ after) ∧ n ≤ Text.byteLength before) := by
  refine ⟨fun l => ⟨fun n => l.commentStart?_eq_some_iff, l.commentStart?_eq_none_iff⟩,
    fun marker line => ⟨?_, fun n hn => exists_cut hn, suppressed_iff⟩⟩
  have hscan := @scanBytes_utf8 .code (by rintro q ⟨⟩) [] line
  simpa [quote?, skips, NilGuard.commentStart?] using hscan

/-- A line with slashes in a string behind an escaped quote and in a raw string, and with quotes in
its comment. -/
def sampleLine : CodeLine where
  parts := [.code ['f', '('] (by simp [isQuote]),
    .literal _ (@IsLiteral.quoted '"' ['\\', '"', '/', '/'] (.inl rfl)
      (.escape '"' (.plain (by decide) (by decide) (.plain (by decide) (by decide) .nil)))),
    .code [','] (by simp [isQuote]), .literal _ (@IsLiteral.raw ['/', '/'] (by decide)),
    .code [')', ' '] (by simp [isQuote])]
  comment := "// it's \"é".toList
  comment_eq := .inr (by decide)

theorem comment_begins_outside_literals_sampleLine :
    sampleLine.text = "f(\"\\\"//\",\x60//\x60) // it's \"é".toList ∧
      IsLeast {m | Opens sampleLine.marks m} 15 ∧
      suppressed "it's".toList sampleLine.text = true ∧
      scanBytes (utf8 sampleLine.text) none 0 = some 15 := by
  have hstart : commentStart? sampleLine.text = some 15 := by decide
  obtain ⟨hline, hevery⟩ := comment_begins_outside_literals
  refine ⟨rfl, ((hline sampleLine).1 15).mp hstart, by decide, ?_⟩
  rw [(hevery [] sampleLine.text).1, hstart]

end NilGuard
