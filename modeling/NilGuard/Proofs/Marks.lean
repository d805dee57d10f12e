import NilGuard.Proofs.LineEdits
import NilGuard.Report.Drawing

/-!
Marks in a drawing. A diagnostic gives its place by lines and columns, and a drawing marks it by
offsets. Whatever the place is, the mark takes at least one byte of the text and stays inside it.
The place of a finding comes from a span of the source, and the way back gives the offsets of that
span: the lines in front add up to where the line begins, and since a brace stands behind the
finding the last byte of the text is never reached.
-/

namespace NilGuard

open Go Report

/-! ### Lines in front -/

namespace Text

theorem byteLength_pos {cs : List Char} (h : cs ≠ []) : 0 < byteLength cs :=
  (List.length_pos_of_ne_nil h).trans_le (length_le_byteLength cs)

/-- The lines in front of a point and what stands in front of it in its own line. -/
theorem flatten_take_pieces (before : List Char) {rest : List Char} (hne : rest ≠ []) :
    ((pieces (before ++ rest)).take (before.count '\n')).flatten ++ lastLine before = before := by
  cases hpieces : pieces rest with
  | nil => exact absurd (by simpa [hpieces] using (flatten_pieces rest).symm) hne
  | cons piece back =>
    obtain ⟨front, happend, hlength, hflatten⟩ := exists_front before hpieces
    rw [happend, List.take_left' hlength, hflatten]

end Text

/-! ### Places and offsets -/

namespace Report

variable {text : List Char}

theorem offsetOf_lt (h : text ≠ []) (line column : Nat) :
    offsetOf text line column < Text.byteLength text := by
  have hpos := Text.byteLength_pos h
  unfold offsetOf
  dsimp only
  omega

/-- A mark takes at least one byte, and ends no later than the text. -/
theorem markRange_within (h : text ≠ []) (l : Location) :
    (markRange text l).1 < (markRange text l).2 ∧ (markRange text l).2 ≤ Text.byteLength text := by
  have hstart := offsetOf_lt h l.line l.column
  unfold markRange
  dsimp only
  omega

/-- The line and column of a point lead back to it, and columns behind it to what stands behind it,
as long as the last byte of the text is not passed. -/
theorem offsetOf_append (before : List Char) {rest : List Char} (hne : rest ≠ []) (n : Nat) :
    offsetOf (before ++ rest) (before.count '\n' + 1) (Text.byteLength (lastLine before) + 1 + n) =
      min (Text.byteLength before + n) (Text.byteLength (before ++ rest) - 1) := by
  have hfront := congrArg Text.byteLength (Text.flatten_take_pieces before hne)
  rw [Text.byteLength_append] at hfront
  unfold offsetOf
  dsimp only
  rw [Nat.add_sub_cancel]
  omega

/-- The place of a span is marked by its offsets. -/
theorem markRange_of_marks {s : Span} {before word after : List Char}
    (h : s.Marks text before word after) (hne : word ≠ []) (hstop : s.stop < Text.byteLength text)
    (file : String) :
    markRange text ⟨file, s.line, s.column, s.line, s.column + (s.stop - s.start)⟩ =
      (s.start, s.stop) := by
  have hpos := Text.byteLength_pos hne
  have hrest : word ++ after ≠ [] := List.append_ne_nil_of_left_ne_nil hne after
  have hstart := h.start_eq
  have hend := h.stop_eq
  have hfirst := offsetOf_append before hrest 0
  have hlast := offsetOf_append before hrest (s.stop - s.start)
  rw [← h.source_eq, ← h.line_eq, Nat.add_zero, ← h.column_eq] at hfirst
  rw [← h.source_eq, ← h.line_eq, ← h.column_eq] at hlast
  simp only [markRange, hfirst, hlast, Prod.mk.injEq]
  omega

end Report

/-- A mark lies in the text, if that is not empty, and takes at least one byte of it, whatever place
a diagnostic gives. What is found in a file, after any passes, is marked in the source by the bytes
of the identifier that was found. -/
theorem mark_covers_identifier :
    (∀ (text : List Char) (l : Location), text ≠ [] →
      (markRange text l).1 < (markRange text l).2 ∧ (markRange text l).2 ≤ Text.byteLength text) ∧
    ∀ (path source : String) (f : File), File.ofSource? path source = some f →
      ∀ (rounds : List (List Finding)) (xs : List Finding), findings (fixRounds f rounds) = .ok xs →
        ∀ x ∈ xs, ∃ y, f.idents[x.ident]? = some y ∧ y.name = x.name ∧
          Text.slice source.toList y.span.start y.span.stop = some y.name.toList ∧
          markRange source.toList (x.diagnostic (fixRounds f rounds)).location =
            (y.span.start, y.span.stop) := by
  refine ⟨fun text l h => markRange_within h l, fun path source f hf rounds xs hxs x hx => ?_⟩
  obtain ⟨decls, ts, es, h⟩ := File.exists_origin hf
  obtain ⟨ids, hg, hagree⟩ := exists_renamed_fixRounds (.refl f) (File.namesAgree_of_ofSource? hf)
    rounds
  obtain ⟨y, t, ht, hxt, -⟩ := h.exists_traced hg hagree (mem_raw_of_findings hxs hx)
  obtain ⟨before, word, after, hmarks, hne, -⟩ := hxt.exists_marks h.laid ht
  have hspelled := h.inSource (Array.mem_of_getElem? hxt.ident_eq)
  rw [File.inSource, beq_iff_eq] at hspelled
  refine ⟨y, hxt.ident_eq, hxt.name_eq.symm, hspelled, ?_⟩
  rw [location_diagnostic, ← hxt.span_eq]
  exact markRange_of_marks hmarks hne (hxt.stop_lt h) x.file

/-- A place that is nowhere in a text with one letter of two bytes, and a read behind a line with
such a letter, found again once another read is replaced. -/
theorem mark_covers_identifier_silencedSource :
    (markRange ['é'] ⟨"p.go", 0, 0, 4294967295, 4294967295⟩).1 <
        (markRange ['é'] ⟨"p.go", 0, 0, 4294967295, 4294967295⟩).2 ∧
      ∃ x, findings (silencedFile true) = .ok [x] ∧ x.name = "e" ∧
        markRange (silencedSource false).toList (x.diagnostic (silencedFile true)).location =
        (45, 46) := by
  have hfix : fixRounds (silencedFile false)
      [[⟨"p.go", 5, "d", 2, ⟨72, 73, 4, 1⟩, ⟨30, 36, 2, 4⟩⟩]] = silencedFile true := by cbv
  have hfound : findings (silencedFile true) =
      .ok [⟨"p.go", 4, "e", 1, ⟨45, 46, 3, 1⟩, ⟨12, 18, 1, 13⟩⟩] := by cbv
  obtain ⟨hwithin, hidentifier⟩ := mark_covers_identifier
  obtain ⟨y, hy, -, -, hmark⟩ := hidentifier _ _ _ ofSource?_silencedSource _ _
    (hfix.symm ▸ hfound) _ (List.mem_singleton_self _)
  rw [hfix] at hmark
  obtain rfl : ⟨"e", some 1, ⟨45, 46, 3, 1⟩⟩ = y := Option.some.inj hy
  exact ⟨(hwithin _ _ (List.cons_ne_nil _ _)).1, _, hfound, rfl, hmark⟩

end NilGuard
