import NilGuard.Proofs.RoundTrip

/-!
Suppressed lines and fixing. A finding is suppressed by the number of its line, and a read is
replaced by its offset. Both count lines by newlines, and a replaced read has no newline and is not
empty, so the fixed text has the lines of the source, and a line changes only if a diagnostic is on
it. In every round what is open is on lines that are not suppressed, so a suppressed line stays,
also where a guard keeps pointing at it (`suppressed_lines_stay`).
-/

namespace NilGuard

open Go Report

/-! ### How many lines there are -/

namespace Text

theorem length_pieces_cons {c : Char} (hc : c ≠ '\n') (cs : List Char) :
    (pieces (c :: cs)).length = max 1 (pieces cs).length := by
  rw [pieces, if_neg hc]
  cases pieces cs with
  | nil => rfl
  | cons piece rest => simp

/-- A word on one line belongs to the first line, and makes one if there is none. -/
theorem length_pieces_word {word : List Char} (hne : word ≠ []) (hword : '\n' ∉ word)
    (cs : List Char) :
    (pieces (word ++ cs)).length = max 1 (pieces cs).length := by
  induction word with
  | nil => exact absurd rfl hne
  | cons c word ih =>
    rw [List.mem_cons, not_or] at hword
    rw [List.cons_append, length_pieces_cons (Ne.symm hword.1)]
    cases word with
    | nil => rfl
    | cons d word => rw [ih (List.cons_ne_nil d word) hword.2, ← Nat.max_assoc, Nat.max_self]

theorem length_pieces_append {xs ys : List Char} (h : (pieces ys).length = (pieces xs).length)
    (kept : List Char) : (pieces (kept ++ ys)).length = (pieces (kept ++ xs)).length := by
  induction kept with
  | nil => exact h
  | cons c kept ih =>
    by_cases hc : c = '\n'
    · simp only [List.cons_append, pieces, if_pos hc, List.length_cons, ih]
    · rw [List.cons_append, List.cons_append, length_pieces_cons hc, length_pieces_cons hc, ih]

end Text

/-- Replacing places that are not empty keeps the number of lines. -/
theorem Replaces.length_pieces {p : Position} {cs out : List Char} {ds : List Diagnostic}
    (h : Replaces p cs ds out) (hds : ∀ d ∈ ds, d.location.column < d.location.endColumn) :
    (Text.pieces out).length = (Text.pieces cs).length := by
  induction h with
  | nil => rfl
  | @cons p kept word rest d ds out hline hcolumn hendLine hendColumn hword h ih =>
    obtain ⟨hd, hds⟩ := List.forall_mem_cons.mp hds
    have hne : word ≠ [] := by
      rintro rfl
      rw [hendColumn, Text.byteLength_nil] at hd
      exact Nat.lt_irrefl _ hd
    refine Text.length_pieces_append ?_ kept
    rw [Text.length_pieces_word (by decide) (by decide), Text.length_pieces_word hne hword, ih hds]

/-! ### What is reported -/

/-- What is reported when a text is fixed is on lines that are not suppressed, and is not empty. -/
theorem place_of_fixed {path source text : String} {settings : Settings} {r : FileReport} {n : Nat}
    (h : checkSource path source settings true = .ok r) (hfixed : r.fixed = some (text, n))
    {d : Diagnostic} (hd : d ∈ r.diagnostics) :
    (Text.line? source.toList d.location.line).any
        (suppressed settings.suppressMarker.toList) = false ∧
      d.location.column < d.location.endColumn := by
  obtain ⟨f, xs, fixed, hf, hxs, -, hfix, hds, -, -⟩ := exists_fixed_of_checkSource h hfixed
  obtain ⟨decls, ts, es, horigin⟩ := File.exists_origin hf
  obtain ⟨all, -, htraced, -, hall, -, hunsuppressed⟩ :=
    exists_replaced horigin (File.namesAgree_of_ofSource? hf) hxs hfix
  rw [hds, hall] at hd
  obtain ⟨x, hx, rfl⟩ := List.mem_map.mp (List.mem_mergeSort.mp hd)
  obtain ⟨y, t, ht, hxt⟩ := htraced.traced x hx
  rw [location_diagnostic]
  refine ⟨horigin.source_eq ▸ hunsuppressed x hx, ?_⟩
  have hpos := horigin.laid.start_lt_stop ht
  rw [hxt.token_span, ← hxt.span_eq] at hpos
  dsimp only
  omega

/-- Fixing leaves suppressed lines alone: the fixed text has as many lines as the source, and a line
that is suppressed in the source is the same in it, with its ending, and has no diagnostic. -/
theorem suppressed_lines_stay {path source text : String} {settings : Settings} {r : FileReport}
    {n : Nat} (h : checkSource path source settings true = .ok r)
    (hfixed : r.fixed = some (text, n)) :
    (Text.lines text.toList).length = (Text.lines source.toList).length ∧
    ∀ k line, Text.line? source.toList k = some line →
      suppressed settings.suppressMarker.toList line = true →
      Text.line? text.toList k = some line ∧
        (Text.pieces text.toList)[k - 1]? = (Text.pieces source.toList)[k - 1]? ∧
        ∀ d ∈ r.diagnostics, d.location.line ≠ k := by
  obtain ⟨f, xs, fixed, hf, hxs, -, hfix, hds, rfl, -⟩ := exists_fixed_of_checkSource h hfixed
  obtain ⟨decls, ts, es, horigin⟩ := File.exists_origin hf
  obtain ⟨-, -, hreplaces⟩ :=
    replaces_of_fixAll horigin (File.namesAgree_of_ofSource? hf) hxs hfix hds
  refine ⟨?_, fun k line hline hsuppressed => ?_⟩
  · rw [Text.lines, Text.lines, List.length_map, List.length_map]
    exact hreplaces.length_pieces fun d hd => (place_of_fixed h hfixed hd).2
  · have hnone : ∀ d ∈ r.diagnostics, d.location.line ≠ k := by
      rintro d hd rfl
      have hopen := (place_of_fixed h hfixed hd).1
      rw [hline, Option.any_some, hsuppressed] at hopen
      cases hopen
    refine ⟨(hreplaces.line?_eq hnone).trans hline, ?_, hnone⟩
    cases k with
    | zero => cases hline
    | succ k => exact hreplaces.getElem?_pieces fun d hd => by rw [Nat.add_comm]; exact hnone d hd

/-! ### A suppressed read between others -/

/-- A source with two guards. The read behind the first one is suppressed, in a line that ends with
a carriage return and has a letter of two bytes, and the read behind the second one is not. -/
def silencedSource (fixed : Bool) : String :=
  if fixed then
    "func f()\x7bif e!=nil\x7breturn\x7d\nif d!=nil\x7breturn\x7d\ne() // é afternil:ignore\r\nnil()\x7d"
  else "func f()\x7bif e!=nil\x7breturn\x7d\nif d!=nil\x7breturn\x7d\ne() // é afternil:ignore\r\nd()\x7d"

/-- Its tokens. -/
def silencedTokens : List Token :=
  [⟨.keyword, "func", ⟨0, 4, 1, 1⟩, false⟩, ⟨.name, "f", ⟨5, 6, 1, 6⟩, false⟩,
   ⟨.operator, "(", ⟨6, 7, 1, 7⟩, false⟩, ⟨.operator, ")", ⟨7, 8, 1, 8⟩, false⟩,
   ⟨.operator, "\x7b", ⟨8, 9, 1, 9⟩, false⟩, ⟨.keyword, "if", ⟨9, 11, 1, 10⟩, false⟩,
   ⟨.name, "e", ⟨12, 13, 1, 13⟩, false⟩, ⟨.operator, "!=", ⟨13, 15, 1, 14⟩, false⟩,
   ⟨.name, "nil", ⟨15, 18, 1, 16⟩, false⟩, ⟨.operator, "\x7b", ⟨18, 19, 1, 19⟩, false⟩,
   ⟨.keyword, "return", ⟨19, 25, 1, 20⟩, false⟩, ⟨.operator, "\x7d", ⟨25, 26, 1, 26⟩, false⟩,
   ⟨.keyword, "if", ⟨27, 29, 2, 1⟩, true⟩, ⟨.name, "d", ⟨30, 31, 2, 4⟩, false⟩,
   ⟨.operator, "!=", ⟨31, 33, 2, 5⟩, false⟩, ⟨.name, "nil", ⟨33, 36, 2, 7⟩, false⟩,
   ⟨.operator, "\x7b", ⟨36, 37, 2, 10⟩, false⟩, ⟨.keyword, "return", ⟨37, 43, 2, 11⟩, false⟩,
   ⟨.operator, "\x7d", ⟨43, 44, 2, 17⟩, false⟩, ⟨.name, "e", ⟨45, 46, 3, 1⟩, true⟩,
   ⟨.operator, "(", ⟨46, 47, 3, 2⟩, false⟩, ⟨.operator, ")", ⟨47, 48, 3, 3⟩, false⟩,
   ⟨.name, "d", ⟨72, 73, 4, 1⟩, true⟩, ⟨.operator, "(", ⟨73, 74, 4, 2⟩, false⟩,
   ⟨.operator, ")", ⟨74, 75, 4, 3⟩, false⟩, ⟨.operator, "\x7d", ⟨75, 76, 4, 4⟩, false⟩]

theorem tokens_silencedSource : tokens (silencedSource false).toList = some silencedTokens := by
  decide +kernel

/-- Its tree, with the last read replaced or not. -/
def silencedFile (fixed : Bool) : File where
  path := "p.go"
  source := silencedSource false
  decls := [.func ⟨0, 76, 1, 1⟩ "f" (some (.mk ⟨8, 76, 1, 9⟩ [
    .ifStmt ⟨9, 26, 1, 10⟩ none
      (.binary ⟨12, 18, 1, 13⟩ .ne (.ident ⟨12, 13, 1, 13⟩ 0) (.ident ⟨15, 18, 1, 16⟩ 1))
      (.mk ⟨18, 26, 1, 19⟩ [.returnStmt ⟨19, 25, 1, 20⟩ []]) none,
    .ifStmt ⟨27, 44, 2, 1⟩ none
      (.binary ⟨30, 36, 2, 4⟩ .ne (.ident ⟨30, 31, 2, 4⟩ 2) (.ident ⟨33, 36, 2, 7⟩ 3))
      (.mk ⟨36, 44, 2, 10⟩ [.returnStmt ⟨37, 43, 2, 11⟩ []]) none,
    .expr ⟨45, 48, 3, 1⟩ (.call ⟨45, 48, 3, 1⟩ (.ident ⟨45, 46, 3, 1⟩ 4) []),
    .expr ⟨72, 75, 4, 1⟩ (.call ⟨72, 75, 4, 1⟩ (.ident ⟨72, 73, 4, 1⟩ 5) [])]))]
  idents := #[⟨"e", some 1, ⟨12, 13, 1, 13⟩⟩, ⟨nilName, none, ⟨15, 18, 1, 16⟩⟩,
    ⟨"d", some 2, ⟨30, 31, 2, 4⟩⟩, ⟨nilName, none, ⟨33, 36, 2, 7⟩⟩, ⟨"e", some 1, ⟨45, 46, 3, 1⟩⟩,
    if fixed then ⟨nilName, none, ⟨72, 73, 4, 1⟩⟩ else ⟨"d", some 2, ⟨72, 73, 4, 1⟩⟩]
  bindings := #[⟨"f", .func, some ⟨5, 6, 1, 6⟩⟩, ⟨"e", .external, none⟩, ⟨"d", .external, none⟩]

theorem ofSource?_silencedSource :
    File.ofSource? "p.go" (silencedSource false) = some (silencedFile false) := by
  rw [File.ofSource?, Surface.Decl.ofSource?, tokens_silencedSource]
  cbv

/-- Only the read that is not suppressed is open, and once it is replaced nothing is. -/
theorem fixAll_silencedFile :
    ∃ xs ds, openFindings "afternil:ignore" (silencedFile false) = .ok xs ∧ xs ≠ [] ∧
    fixAll "afternil:ignore" (silencedFile false) xs = .ok ⟨silencedFile true, 1, ds⟩ := by
  have hopen : openFindings "afternil:ignore" (silencedFile false) =
      .ok [⟨"p.go", 5, "d", 2, ⟨72, 73, 4, 1⟩, ⟨30, 36, 2, 4⟩⟩] := by cbv
  have hfix : fix (silencedFile false) [⟨"p.go", 5, "d", 2, ⟨72, 73, 4, 1⟩, ⟨30, 36, 2, 4⟩⟩] =
      (silencedFile true, 1) := by cbv
  have hclosed : openFindings "afternil:ignore" (silencedFile true) = .ok [] := by cbv
  have hlast : fixAll "afternil:ignore" (silencedFile true) [] =
      .ok ⟨silencedFile true, 0, []⟩ := by
    rw [fixAll]; rfl
  exact ⟨_, _, hopen, List.cons_ne_nil _ _, fixAll_of_pass hfix hclosed hlast⟩

/-- The suppressed line stays as it is, and the one behind it changes. -/
theorem suppressed_lines_stay_silencedSource : ∃ r,
    checkSource "p.go" (silencedSource false) {} true = .ok r ∧
      r.fixed = some (silencedSource true, 1) ∧
      (Text.lines (silencedSource true).toList).length = 4 ∧
      (Text.pieces (silencedSource true).toList)[2]? = some "e() // é afternil:ignore\r\n".toList ∧
      ∀ d ∈ r.diagnostics, d.location.line ≠ 3 := by
  obtain ⟨xs, ds, hxs, hne, hfixed⟩ := fixAll_silencedFile
  have hgenerated : isGenerated (silencedSource false) = false := by decide +kernel
  have hrender : (silencedFile true).render = silencedSource true := by cbv
  obtain ⟨r, hr, htext⟩ := checkSource_of_fixAll {} hgenerated ofSource?_silencedSource hxs
    hne hfixed
  rw [hrender] at htext
  obtain ⟨hlength, hlines⟩ := suppressed_lines_stay hr htext
  have hsource : (Text.lines (silencedSource false).toList).length = 4 ∧
      Text.line? (silencedSource false).toList 3 = some "e() // é afternil:ignore".toList ∧
      (Text.pieces (silencedSource false).toList)[2]? = some "e() // é afternil:ignore\r\n".toList ∧
      suppressed "afternil:ignore".toList "e() // é afternil:ignore".toList = true := by
    decide +kernel
  obtain ⟨-, hpiece, hnone⟩ := hlines 3 _ hsource.2.1 hsource.2.2.2
  exact ⟨r, hr, htext, hlength.trans hsource.1, hpiece.trans hsource.2.2.1, hnone⟩

end NilGuard
