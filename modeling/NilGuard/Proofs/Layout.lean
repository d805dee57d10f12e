import Mathlib.Data.List.DropRight
import NilGuard.Proofs.Reading

/-!
Tokens in their text. `Laid` ties tokens to the text they were cut from: each spells what stands at
its span, behind whatever stands in between. So tokens have their order in the text by offset and by
line and column alike, and cutting the text at a span gives back the token.
-/

namespace NilGuard.Go

open Lexeme (isNamePart)

/-! ### Points -/

namespace Position

variable (p : Position)

@[simp] theorem after_nil : p.after [] = p := rfl

@[simp] theorem after_append (cs ds : List Char) : p.after (cs ++ ds) = (p.after cs).after ds :=
  List.foldl_append

@[simp] theorem after_cons (c : Char) (cs : List Char) : p.after (c :: cs) = (p.next c).after cs :=
  rfl

/-- A point is on an earlier line than another, or further left. -/
def Before (p q : Position) : Prop :=
  p.line < q.line ∨ p.line = q.line ∧ p.column < q.column

theorem Before.trans {p q r : Position} (h : p.Before q) (h' : q.Before r) : p.Before r := by
  unfold Before at *
  omega

theorem before_next (c : Char) : p.Before (p.next c) := by
  have hsize := c.utf8Size_pos
  unfold Before next
  split
  · exact .inl (Nat.lt_succ_self _)
  · exact .inr ⟨rfl, Nat.lt_add_of_pos_right hsize⟩

theorem before_after {cs : List Char} (h : cs ≠ []) : p.Before (p.after cs) := by
  induction cs generalizing p with
  | nil => exact absurd rfl h
  | cons c cs ih =>
    cases cs with
    | nil => exact p.before_next c
    | cons d cs => exact (p.before_next c).trans (ih (p.next c) (by simp))

end Position

/-- What stands behind the last newline. -/
def lastLine (cs : List Char) : List Char :=
  cs.rtakeWhile (· != '\n')

/-- Lines are counted by the newlines in front, and columns by the bytes behind the last of them. -/
theorem Position.after_eq (cs : List Char) : ({} : Position).after cs =
    { offset := Text.byteLength cs, line := 1 + cs.count '\n',
      column := 1 + Text.byteLength (lastLine cs) } := by
  induction cs using List.reverseRecOn with
  | nil => rfl
  | append_singleton cs c ih =>
    rw [after_append, ih, after_cons, after_nil, next]
    split
    · next h => simp [lastLine, h, Nat.add_assoc]
    · next h => simp [lastLine, h, Nat.add_assoc]

/-! ### Slices -/

theorem slice_append (a b c : List Char) :
    Text.slice (a ++ (b ++ c)) (Text.byteLength a) (Text.byteLength a + Text.byteLength b) =
      some b := by
  rw [Text.slice, if_pos (Nat.le_add_right _ _), Text.dropBytes, Text.splitAtByte_append,
    Nat.add_sub_cancel_left]
  simp [Text.takeBytes, Text.splitAtByte_append]

/-! ### Tokens in a text -/

/-- A name has no line ending in it. -/
theorem not_mem_of_isNamePart {word : List Char} (h : ∀ c ∈ word, isNamePart c = true) :
    '\n' ∉ word ∧ '\r' ∉ word :=
  ⟨fun hmem => absurd (h _ hmem) (by decide), fun hmem => absurd (h _ hmem) (by decide)⟩

/-- Tokens in a text that begins at a point. Each stands behind a gap, spells the text behind the
gap, and has the span of that text. A name is made of the characters of names. -/
inductive Laid : Position → List Char → List Token → Prop where
  | nil (p : Position) (cs : List Char) : Laid p cs []
  | cons {p : Position} (gap word rest : List Char) {t : Token} {ts : List Token}
      (htext : t.text = String.ofList word) (hspan : t.span = (p.after gap).spanOf word)
      (hword : word ≠ []) (hname : t.kind = .name → ∀ c ∈ word, isNamePart c = true)
      (h : Laid ((p.after gap).after word) rest ts) : Laid p (gap ++ (word ++ rest)) (t :: ts)

namespace Laid

variable {p : Position} {cs : List Char} {ts : List Token}

theorem behind (gap : List Char) (h : Laid (p.after gap) cs ts) : Laid p (gap ++ cs) ts := by
  cases h with
  | nil => exact .nil p _
  | cons gap' word rest htext hspan hword hname h =>
    rw [← List.append_assoc]
    refine .cons (gap ++ gap') word rest htext ?_ hword hname ?_
    · rwa [Position.after_append]
    · rwa [Position.after_append]

/-- Tokens that are left out belong to the gaps. -/
theorem sublist (h : Laid p cs ts) {ts' : List Token} (hsub : ts'.Sublist ts) : Laid p cs ts' := by
  induction h generalizing ts' with
  | nil p cs => rw [List.sublist_nil.mp hsub]; exact .nil p cs
  | cons gap word rest htext hspan hword hname _ ih =>
    cases hsub with
    | cons _ hsub => exact ((ih hsub).behind word).behind gap
    | cons_cons _ hsub => exact .cons gap word rest htext hspan hword hname (ih hsub)

/-- Where a token stands. -/
theorem exists_of_mem (h : Laid p cs ts) {t : Token} (ht : t ∈ ts) :
    ∃ before word after, cs = before ++ (word ++ after) ∧ t.text = String.ofList word ∧
      t.span = (p.after before).spanOf word ∧ word ≠ [] ∧
        (t.kind = .name → ∀ c ∈ word, isNamePart c = true) := by
  induction h with
  | nil => cases ht
  | @cons p gap word rest t' ts htext hspan hword hname _ ih =>
    rcases List.mem_cons.mp ht with rfl | ht
    · exact ⟨gap, word, rest, rfl, htext, hspan, hword, hname⟩
    · obtain ⟨before, word', after, rfl, htext', hspan', hrest⟩ := ih ht
      exact ⟨gap ++ (word ++ before), word', after, by simp, htext', by simpa using hspan', hrest⟩

theorem le_start (h : Laid p cs ts) {t : Token} (ht : t ∈ ts) : p.offset ≤ t.span.start := by
  obtain ⟨before, word, after, -, -, hspan, -⟩ := h.exists_of_mem ht
  simp [hspan, Position.spanOf]

/-- Tokens begin one after the other, by offset and by line and column. -/
theorem pairwise (h : Laid p cs ts) : ts.Pairwise fun t u => t.span.start < u.span.start ∧
    (t.span.line < u.span.line ∨ t.span.line = u.span.line ∧ t.span.column < u.span.column) := by
  induction h with
  | nil => exact .nil
  | @cons p gap word rest t ts htext hspan hword hname h ih =>
    refine .cons (fun u hu => ?_) ih
    obtain ⟨before, word', after, -, -, hspan', -⟩ := h.exists_of_mem hu
    rw [← Position.after_append] at hspan'
    have hne : word ++ before ≠ [] := by simp [hword]
    have hbefore := (p.after gap).before_after hne
    have hpos : 0 < Text.byteLength word := by
      cases word with
      | nil => exact absurd rfl hword
      | cons c cs => have := c.utf8Size_pos; simp only [Text.byteLength_cons]; omega
    rw [hspan, hspan']
    refine ⟨?_, hbefore⟩
    simp only [Position.spanOf, Position.offset_after, Text.byteLength_append]
    omega

/-- Tokens end before the next ones begin. -/
theorem pairwise_stop (h : Laid p cs ts) : ts.Pairwise fun t u => t.span.stop ≤ u.span.start := by
  induction h with
  | nil => exact .nil
  | cons gap word rest htext hspan hword hname h ih =>
    refine .cons (fun u hu => ?_) ih
    have hstart := h.le_start hu
    rw [hspan]
    simpa [Position.spanOf] using hstart

theorem start_lt_stop (h : Laid p cs ts) {t : Token} (ht : t ∈ ts) :
    t.span.start < t.span.stop := by
  obtain ⟨before, word, after, -, -, hspan, hword, -⟩ := h.exists_of_mem ht
  obtain ⟨c, word, rfl⟩ := List.exists_cons_of_ne_nil hword
  have := c.utf8Size_pos
  simp only [hspan, Position.spanOf, Text.byteLength_cons]
  omega

theorem pairwise_stop_lt (h : Laid p cs ts) : ts.Pairwise fun t u => t.span.stop < u.span.stop :=
  h.pairwise_stop.imp_of_mem fun _ hu hle => Nat.lt_of_le_of_lt hle (h.start_lt_stop hu)

/-- Every token ends behind where the first one begins. -/
theorem first_lt_stop {t : Token} (h : Laid p cs (t :: ts)) {u : Token} (hu : u ∈ t :: ts) :
    t.span.start < u.span.stop := by
  have hfirst := h.start_lt_stop List.mem_cons_self
  rcases List.mem_cons.mp hu with rfl | hu
  · exact hfirst
  · exact hfirst.trans (List.rel_of_pairwise_cons h.pairwise_stop_lt hu)

/-- What stands between the beginning of a token and the end of it or of a later one. -/
theorem exists_of_spansIn (h : Laid p cs ts) {s : Span} (hs : Surface.SpansIn ts s) :
    ∃ before word after, cs = before ++ (word ++ after) ∧
      s.start = p.offset + Text.byteLength before ∧
      s.stop = s.start + Text.byteLength word := by
  obtain ⟨skipped, first, rest, rfl, last, hlast, rfl⟩ := hs
  have h := h.sublist (List.sublist_append_right skipped (first :: rest))
  cases h with
  | cons gap word after htext hspan hword hname h =>
    rcases List.mem_cons.mp hlast with rfl | hlast
    · exact ⟨gap, word, after, rfl, by simp [hspan, Span.upTo, Position.spanOf],
        by simp [hspan, Span.upTo, Position.spanOf]⟩
    · obtain ⟨before', word', after', rfl, -, hspan', -⟩ := h.exists_of_mem hlast
      refine ⟨gap, word ++ (before' ++ word'),
        after', by simp, by simp [hspan, Span.upTo, Position.spanOf], ?_⟩
      simp [hspan, hspan', Span.upTo, Position.spanOf]
      omega

/-- No span between tokens is empty. -/
theorem start_lt_stop_of_spansIn (h : Laid p cs ts) {s : Span} (hs : Surface.SpansIn ts s) :
    s.start < s.stop := by
  obtain ⟨skipped, first, rest, rfl, last, hlast, rfl⟩ := hs
  exact (h.sublist (List.sublist_append_right skipped (first :: rest))).first_lt_stop hlast

end Laid

/-! ### Lexemes -/

namespace Lexeme

/-- A lexeme that can stand in a text: it is not empty, and a name is made of the characters of
names. -/
def Fits (l : Lexeme) : Prop :=
  l.text ≠ [] ∧ (l.kind = .name → ∀ c ∈ l.text, isNamePart c = true)

theorem measure_name {c : Char} {cs : List Char} {n : Nat} (h : measure c cs = some (.name, n)) :
    isNameStart c = true ∧ n = (cs.takeWhile isNamePart).length := by
  unfold measure at h
  split at h
  · cases h
  split at h
  · cases h
  split at h
  · simp at h
  split at h
  · next hstart =>
    simp only [Option.some.injEq, Prod.mk.injEq] at h
    exact ⟨hstart, h.2.symm⟩
  split at h
  · simp at h
  split at h
  · simp at h
  split at h
  · simp at h
  split at h
  · cases h
  · simp at h

theorem isNamePart_of_name {c : Char} {cs : List Char} {n : Nat}
    (h : measure c cs = some (.name, n)) :
    ∀ d ∈ c :: cs.take n, isNamePart d = true := by
  obtain ⟨hstart, rfl⟩ := measure_name h
  have htake : cs.take (cs.takeWhile isNamePart).length = cs.takeWhile isNamePart :=
    (List.prefix_iff_eq_take.mp (List.takeWhile_prefix isNamePart)).symm
  rw [htake]
  refine List.forall_mem_cons.mpr ⟨?_, List.all_eq_true.mp List.all_takeWhile⟩
  simp [isNamePart, hstart]

theorem fits_of_lexemes {cs : List Char} {ls : List Lexeme} (h : lexemes cs = some ls) :
    ∀ l ∈ ls, l.Fits := by
  fun_induction lexemes cs generalizing ls with
  | case1 => cases h; simp
  | case2 c cs ih =>
    simp only [Option.bind_eq_bind, Option.pure_def, Option.bind_eq_some_iff, Prod.exists,
      Option.some.injEq] at h
    obtain ⟨kind, more, hm, rest, hrest, rfl⟩ := h
    refine List.forall_mem_cons.mpr ⟨⟨by simp, ?_⟩, ih more hrest⟩
    rintro rfl
    exact isNamePart_of_name hm

end Lexeme

theorem Token.ofLexemes_cons {l : Lexeme} (hblank : l.kind ≠ .blank) (hcomment : l.kind ≠ .comment)
    (p : Position) (fresh : Bool) (ls : List Lexeme) :
    ofLexemes p fresh (l :: ls) = ⟨l.kind, String.ofList l.text, p.spanOf l.text, fresh⟩ ::
      ofLexemes (p.after l.text) false ls := by
  rw [ofLexemes]
  split
  · exact absurd ‹_› hblank
  · exact absurd ‹_› hcomment
  · rfl

theorem laid_ofLexemes (p : Position) (fresh : Bool) {ls : List Lexeme} (h : ∀ l ∈ ls, l.Fits) :
    Laid p (ls.map (·.text)).flatten (Token.ofLexemes p fresh ls) := by
  induction ls generalizing p fresh with
  | nil => exact .nil p _
  | cons l ls ih =>
    obtain ⟨⟨hne, hname⟩, hls⟩ := List.forall_mem_cons.mp h
    have hskip : ∀ fresh', Laid p (l.text ++ (ls.map (·.text)).flatten)
        (Token.ofLexemes (p.after l.text) fresh' ls) :=
      fun fresh' => (ih (p.after l.text) fresh' hls).behind l.text
    have htoken : ∀ kind, l.kind = kind → Laid p (l.text ++ (ls.map (·.text)).flatten)
        (⟨kind, String.ofList l.text, p.spanOf l.text, fresh⟩ ::
          Token.ofLexemes (p.after l.text) false ls) := by
      rintro kind rfl
      exact .cons [] l.text _ rfl rfl hne hname (ih (p.after l.text) false hls)
    rw [List.map_cons, List.flatten_cons, Token.ofLexemes]
    split
    · exact hskip _
    · exact hskip _
    · exact htoken _ rfl

/-- The tokens of a source stand in it. -/
theorem laid_of_tokens {source : List Char} {ts : List Token} (h : tokens source = some ts) :
    Laid {} source ts := by
  unfold tokens at h
  split at h
  · next cs =>
    obtain ⟨ls, hls, rfl⟩ := Option.map_eq_some_iff.mp h
    have hlaid := laid_ofLexemes (({} : Position).next '\ufeff') false (Lexeme.fits_of_lexemes hls)
    rw [flatten_text_of_lexemes hls] at hlaid
    exact hlaid.behind ['\ufeff']
  · obtain ⟨ls, hls, rfl⟩ := Option.map_eq_some_iff.mp h
    have hlaid := laid_ofLexemes {} false (Lexeme.fits_of_lexemes hls)
    rwa [flatten_text_of_lexemes hls] at hlaid

end NilGuard.Go
