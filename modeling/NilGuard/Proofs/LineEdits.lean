import NilGuard.Proofs.Bodies
import NilGuard.Proofs.Confluence
import NilGuard.Proofs.Suppressed

/-!
Fixes as edits of lines. A diagnostic has the line of a finding with the name replaced by `nil`, cut
out by column and width after the line ending was taken off. A file with the identifier renamed has
the same name replaced by its offsets. Both give one text, whatever the line endings are and
whatever else stands in the line (`Text.replaceLine_append`).
-/

namespace NilGuard

open Go Report

/-! ### Lines and their endings -/

namespace Text

/-- The line ending of a piece. -/
def ending (piece : List Char) : List Char :=
  match piece.reverse with
  | '\n' :: '\r' :: _ => ['\r', '\n']
  | '\n' :: _ => ['\n']
  | _ => []

/-- A text with the content of a line replaced and its ending kept. Lines are counted from one. -/
def replaceLine (cs new : List Char) : Nat → List Char
  | 0 => cs
  | n + 1 => ((pieces cs).modify n fun piece => new ++ ending piece).flatten

theorem length_le_byteLength (cs : List Char) : cs.length ≤ byteLength cs := by
  induction cs with
  | nil => rfl
  | cons c cs ih =>
    have hsize := c.utf8Size_pos
    rw [List.length_cons, byteLength_cons]
    omega

theorem chomp_append_ending (piece : List Char) : chomp piece ++ ending piece = piece := by
  unfold chomp ending
  split
  · next rest h => rw [← List.reverse_reverse piece, h]; simp
  · next rest _ h => rw [← List.reverse_reverse piece, h]; simp
  · simp

section
variable (cs : List Char) {c : Char}

theorem chomp_concat (hc : c ≠ '\n') : chomp (cs ++ [c]) = cs ++ [c] ∧ ending (cs ++ [c]) = [] := by
  constructor
  · unfold chomp
    rw [List.reverse_concat]
    split <;> simp_all
  · unfold ending
    rw [List.reverse_concat]
    split <;> simp_all

theorem chomp_newline (hc : c ≠ '\r') :
    chomp (cs ++ [c, '\n']) = cs ++ [c] ∧ ending (cs ++ [c, '\n']) = ['\n'] := by
  have hreverse : (cs ++ [c, '\n']).reverse = '\n' :: c :: cs.reverse := by simp
  constructor
  · unfold chomp
    rw [hreverse]
    split <;> simp_all
  · unfold ending
    rw [hreverse]
    split <;> simp_all

theorem chomp_return :
    chomp (cs ++ ['\r', '\n']) = cs ∧ ending (cs ++ ['\r', '\n']) = ['\r', '\n'] := by
  simp [chomp, ending]

end

/-- What stands in front of a word belongs to the line, and so does the word. -/
theorem chomp_append {word : List Char} (hne : word ≠ []) (hnewline : '\n' ∉ word)
    (hreturn : '\r' ∉ word) (before head : List Char) :
    chomp (before ++ (word ++ head)) = before ++ (word ++ chomp head) ∧
      ending (before ++ (word ++ head)) = ending head := by
  obtain ⟨word, d, rfl⟩ := word.eq_nil_or_concat.resolve_left hne
  have hd : d ≠ '\n' ∧ d ≠ '\r' := by grind
  rcases head.eq_nil_or_concat with rfl | ⟨head, c, rfl⟩
  · have h := chomp_concat (before ++ word) hd.1
    have hhead : chomp [] = [] ∧ ending [] = [] := ⟨rfl, rfl⟩
    simpa [hhead] using h
  by_cases hc : c = '\n'
  · subst hc
    rcases head.eq_nil_or_concat with rfl | ⟨head, c, rfl⟩
    · have h := chomp_newline (before ++ word) hd.2
      have hhead : chomp ['\n'] = [] ∧ ending ['\n'] = ['\n'] := ⟨rfl, rfl⟩
      simpa [hhead] using h
    by_cases hc : c = '\r'
    · subst hc
      have h := chomp_return (before ++ (word ++ d :: head))
      have hhead := chomp_return head
      simp_all
    · have h := chomp_newline (before ++ (word ++ d :: head)) hc
      have hhead := chomp_newline head hc
      simp_all
  · have h := chomp_concat (before ++ (word ++ d :: head)) hc
    have hhead := chomp_concat head hc
    simp_all

/-- The first piece behind a word on one line, and the pieces behind it. -/
theorem exists_head (after : List Char) : ∃ head tail, head ++ tail.flatten = after ∧
    ∀ word : List Char, word ≠ [] → '\n' ∉ word →
      pieces (word ++ after) = (word ++ head) :: tail := by
  have hflatten := flatten_pieces after
  have hword : ∀ {head : List Char} {tail : List (List Char)},
      (∀ c, c ≠ '\n' → pieces (c :: after) = (c :: head) :: tail) →
        ∀ word : List Char, word ≠ [] → '\n' ∉ word →
        pieces (word ++ after) = (word ++ head) :: tail := by
    intro head tail hone word hne hnewline
    induction word with
    | nil => exact absurd rfl hne
    | cons c word ih =>
      obtain ⟨hc, hnewline⟩ := not_or.mp (List.mem_cons.not.mp hnewline)
      cases word with
      | nil => exact hone c (Ne.symm hc)
      | cons d word =>
        rw [List.cons_append, pieces, if_neg (Ne.symm hc), ih (List.cons_ne_nil _ _) hnewline]
        rfl
  cases hpieces : pieces after with
  | nil =>
    refine ⟨[], [], by simpa [hpieces] using hflatten, hword fun c hc => ?_⟩
    rw [pieces, if_neg hc, hpieces]
  | cons head tail =>
    refine ⟨head, tail, by simpa [hpieces] using hflatten, hword fun c hc => ?_⟩
    rw [pieces, if_neg hc, hpieces]

/-- The pieces of a text around a point: those of the lines in front, and what stands in front of
the point in its line. -/
theorem exists_front (before : List Char) {rest piece : List Char} {back : List (List Char)}
    (h : pieces rest = piece :: back) : ∃ front,
      pieces (before ++ rest) = front ++ (lastLine before ++ piece) :: back ∧
      front.length = before.count '\n' ∧ front.flatten ++ lastLine before = before := by
  induction before using List.reverseRecOn generalizing rest piece back with
  | nil => exact ⟨[], by simpa [lastLine] using h, rfl, rfl⟩
  | append_singleton before c ih =>
    rw [List.append_assoc, List.singleton_append]
    by_cases hc : c = '\n'
    · subst hc
      have hrest : pieces ('\n' :: rest) = ['\n'] :: piece :: back := by rw [pieces, if_pos rfl, h]
      obtain ⟨front, hpieces, hlength, hflatten⟩ := ih hrest
      have hlast : lastLine (before ++ ['\n']) = [] := by simp [lastLine]
      refine ⟨front ++ [lastLine before ++ ['\n']], ?_, ?_, ?_⟩
      · simpa [hlast, h] using hpieces
      · simp [hlength]
      · rw [hlast, List.append_nil, List.flatten_concat, ← List.append_assoc, hflatten]
    · have hrest : pieces (c :: rest) = (c :: piece) :: back := by rw [pieces, if_neg hc, h]
      obtain ⟨front, hpieces, hlength, hflatten⟩ := ih hrest
      have hlast : lastLine (before ++ [c]) = lastLine before ++ [c] := by simp [lastLine, hc]
      refine ⟨front, ?_, ?_, ?_⟩
      · simpa [hlast] using hpieces
      · simp [hlength, List.count_cons_of_ne hc]
      · rw [hlast, ← List.append_assoc, hflatten]

/-- The line of a word, and the text with the word replaced in that line. -/
theorem replaceLine_append (before after : List Char) {word : List Char} (hne : word ≠ [])
    (hnewline : '\n' ∉ word) (hreturn : '\r' ∉ word) : ∃ rest,
      line? (before ++ (word ++ after)) (before.count '\n' + 1) = some (lastLine before ++
        (word ++ rest)) ∧
      ∀ new : List Char, replaceLine (before ++ (word ++ after)) (lastLine before ++ (new ++ rest))
        (before.count '\n' + 1) = before ++ (new ++ after) := by
  obtain ⟨head, tail, rfl, hhead⟩ := exists_head after
  obtain ⟨front, hpieces, hlength, hflatten⟩ := exists_front before (hhead word hne hnewline)
  obtain ⟨hchomp, hending⟩ := chomp_append hne hnewline hreturn (lastLine before) head
  refine ⟨chomp head, ?_, fun new => ?_⟩
  · rw [line?, lines, hpieces, ← hlength]
    simp [hchomp]
  · rw [replaceLine, hpieces, ← hlength]
    have hmodify : (front ++ (lastLine before ++ (word ++ head)) :: tail).modify front.length
        (fun piece => lastLine before ++ (new ++ chomp head) ++ ending piece) =
          front ++ (lastLine before ++ (new ++ head)) :: tail := by
      simp [List.modify_eq_take_drop, hending, chomp_append_ending]
    rw [hmodify]
    simp only [List.flatten_append, List.flatten_cons]
    rw [List.append_assoc, ← List.append_assoc _ (lastLine before), hflatten, List.append_assoc]

end Text

/-! ### Findings in the source -/

/-- A span of a text with what stands in front of it, on it and behind it. -/
structure Go.Span.Marks (s : Span) (source before word after : List Char) : Prop where
  source_eq : source = before ++ (word ++ after)
  start_eq : s.start = Text.byteLength before
  stop_eq : s.stop = Text.byteLength before + Text.byteLength word
  line_eq : s.line = before.count '\n' + 1
  column_eq : s.column = Text.byteLength (lastLine before) + 1

/-- Neither the line nor the column of a span is farther from the first one than its offset. -/
theorem Go.Span.Marks.line_column_le {s : Span} {source before word after : List Char}
    (h : s.Marks source before word after) : s.line ≤ s.start + 1 ∧ s.column ≤ s.start + 1 := by
  have hcount : before.count '\n' ≤ Text.byteLength before :=
    List.count_le_length.trans (Text.length_le_byteLength before)
  obtain ⟨front, hfront⟩ := before.rtakeWhile_suffix (· != '\n')
  have hlast : Text.byteLength (lastLine before) ≤ Text.byteLength before := by
    conv_rhs => rw [← hfront, Text.byteLength_append]
    exact Nat.le_add_left _ _
  rw [h.line_eq, h.column_eq, h.start_eq]
  omega

section
variable {f : File} {path source : String} {decls : List Surface.Decl} {ts : List Token}
  {es : List Event} {x : Finding} {y : Ident} {t : Token}

/-- A finding marks a name, which has no line ending in it. -/
theorem Traced.exists_marks (hxt : Traced f x y t) (hlaid : Laid {} source.toList ts)
    (ht : t ∈ ts) :
    ∃ before word after, x.span.Marks source.toList before word after ∧ word ≠ [] ∧ '\n' ∉ word ∧
      '\r' ∉ word := by
  obtain ⟨before, word, after, hsource, -, hspan, hne, hname⟩ := hlaid.exists_of_mem ht
  have hspan : x.span = (({} : Position).after before).spanOf word := by
    rw [← hspan, hxt.token_span, hxt.span_eq]
  rw [Position.after_eq] at hspan
  refine ⟨before, word, after, ⟨hsource, ?_, ?_, ?_, ?_⟩, hne,
    not_mem_of_isNamePart (hname hxt.token_kind)⟩
  · exact congrArg Span.start hspan
  · exact congrArg Span.stop hspan
  · exact (congrArg Span.line hspan).trans (Nat.add_comm 1 _)
  · exact (congrArg Span.column hspan).trans (Nat.add_comm 1 _)

/-- A brace stands behind a finding, so it ends before the source does. -/
theorem Traced.stop_lt (hxt : Traced f x y t) (h : f.Origin path source decls ts es) :
    x.span.stop < Text.byteLength source.toList := by
  obtain ⟨root, hroot, b, hb, hi⟩ := hxt.inBlock
  obtain ⟨u, hu, hstop⟩ := h.exists_behind hroot hb hi hxt.ident_eq
  obtain ⟨before, word, after, hsource, -, hspan, hne, -⟩ := h.laid.exists_of_mem hu
  have hlt := h.laid.start_lt_stop hu
  have hlength := congrArg Text.byteLength hsource
  simp only [hspan, Position.spanOf, Position.offset_after, Text.byteLength_append]
    at hlt hlength hstop
  rw [hxt.span_eq]
  omega

/-- A file with one name replaced has one edit. -/
theorem Go.File.Origin.edits_rename (h : f.Origin path source decls ts es) {i : IdentId}
    (hy : f.idents[i]? = some y) (hnil : y.isNil = false) :
    (f.rename i nilName).edits = [{ y with name := nilName, binding := none }] := by
  have hg : Renamed f [i] (f.rename i nilName) := (Renamed.refl f).rename i
  have hsource : (f.rename i nilName).source = source := h.source_eq
  have hall : ∀ e ∈ (f.rename i nilName).edits,
      e = { y with name := nilName, binding := none } := by
    intro e he
    obtain ⟨hmem, hin⟩ := mem_edits he
    obtain ⟨j, hj, z, hz, rfl⟩ := mem_edits_cases h hg hmem (hsource ▸ hin)
    obtain rfl := List.mem_singleton.mp hj
    rw [hy, Option.some.injEq] at hz
    rw [hz]
  have hlt : (f.rename i nilName).edits.Pairwise fun x y => x.span.start < y.span.start :=
    firsts_sort_pairwise_lt fun _ _ _ _ => Iff.rfl
  obtain ⟨e, he, -⟩ := exists_mem_edits h hg (List.mem_singleton_self i) hy hnil
  cases hedits : (f.rename i nilName).edits with
  | nil => simp [hedits] at he
  | cons e es =>
    rw [hedits] at hall hlt
    obtain ⟨rfl, hes⟩ := List.forall_mem_cons.mp hall
    cases es with
    | nil => rfl
    | cons e' es =>
      have := List.rel_of_pairwise_cons hlt List.mem_cons_self
      rw [hes e' List.mem_cons_self] at this
      exact absurd this (Nat.lt_irrefl _)

/-- The text of such a file has the new name on the span and all else as it was. -/
theorem Go.File.Origin.render_rename (h : f.Origin path source decls ts es) {i : IdentId}
    (hy : f.idents[i]? = some y) (hnil : y.isNil = false) {before word after : List Char}
    (hmarks : y.span.Marks source.toList before word after) :
    (f.rename i nilName).render = String.ofList (before ++ (nilName.toList ++ after)) := by
  have hsource : (f.rename i nilName).source.toList = before ++ (word ++ after) := by
    rw [← hmarks.source_eq, ← h.source_eq]
    rfl
  have hslice : Text.slice (before ++ (word ++ after)) 0 y.span.start = some before := by
    have hslice := slice_append [] before (word ++ after)
    rwa [Text.byteLength_nil, Nat.zero_add, ← hmarks.start_eq] at hslice
  have hdrop : Text.dropBytes (before ++ (word ++ after)) y.span.stop = some after := by
    rw [← List.append_assoc, hmarks.stop_eq, ← Text.byteLength_append, Text.dropBytes,
      Text.splitAtByte_append, Option.map_some]
  rw [File.render, h.edits_rename hy hnil, hsource, File.applyEdits, if_neg, File.applyEdits,
    hslice, hdrop]
  · simp
  · simp [hmarks.stop_eq]

/-- Cut by column and width, a line has the new name on the span and all else as it was. -/
theorem Finding.fixedLine?_eq {before word after : List Char}
    (hmarks : x.span.Marks source.toList before word after) (rest : List Char) :
    x.fixedLine? (lastLine before ++ (word ++ rest)) =
      some (lastLine before ++ (nilName.toList ++ rest)) := by
  have hcolumn : x.column = Text.byteLength (lastLine before) + 1 := hmarks.column_eq
  have hwidth : x.width = Text.byteLength word := by
    rw [Finding.width, hmarks.stop_eq, hmarks.start_eq, Nat.add_sub_cancel_left]
  have htake : Text.takeBytes (lastLine before ++ (word ++ rest))
      (Text.byteLength (lastLine before)) = some (lastLine before) := by
    rw [Text.takeBytes, Text.splitAtByte_append, Option.map_some]
  have hdrop : Text.dropBytes (lastLine before ++ (word ++ rest))
      (Text.byteLength (lastLine before) + Text.byteLength word) = some rest := by
    rw [← List.append_assoc, ← Text.byteLength_append, Text.dropBytes, Text.splitAtByte_append,
      Option.map_some]
  simp [Finding.fixedLine?, hcolumn, hwidth, htake, hdrop]

/-- The line of a finding, edited in the text, is the identifier of the finding, renamed in the
file. -/
theorem Traced.exists_edit (hxt : Traced f x y t) (h : f.Origin path source decls ts es)
    (ht : t ∈ ts) {g : File} (hsource : g.source = source) :
    ∃ old new, Text.line? source.toList x.line = some old ∧
      Text.replaceLine source.toList old x.line = source.toList ∧
      x.edit? g = some ⟨x.file, x.line, x.line, some (String.ofList old), String.ofList new⟩ ∧
      String.ofList (Text.replaceLine source.toList new x.line) =
      (f.rename x.ident nilName).render := by
  obtain ⟨before, word, after, hmarks, hne, hnewline, hreturn⟩ := hxt.exists_marks h.laid ht
  obtain ⟨rest, hline, hreplace⟩ := Text.replaceLine_append before after hne hnewline hreturn
  rw [← hmarks.source_eq, ← hmarks.line_eq] at hline hreplace
  refine ⟨_, lastLine before ++ (nilName.toList ++ rest), hline, ?_, ?_, ?_⟩
  · rw [Finding.line, hreplace, hmarks.source_eq]
  · rw [Finding.edit?, hsource, Finding.line, hline, Option.bind_eq_bind, Option.bind_some,
      Finding.fixedLine?_eq hmarks]
    rfl
  · rw [Finding.line, hreplace, h.render_rename hxt.ident_eq hxt.not_nil (hxt.span_eq ▸ hmarks)]

end

/-- A file after passes over any lists of findings, one behind the other. -/
def fixRounds (f : File) (rounds : List (List Finding)) : File :=
  rounds.foldl (fun g xs => (fix g xs).1) f

/-- Passes rename identifiers, and keep the names that share a binding alike. -/
theorem exists_renamed_fixRounds {f g : File} {ids : List IdentId} (hg : Renamed f ids g)
    (hagree : g.NamesAgree) (rounds : List (List Finding)) :
    ∃ ids', Renamed f ids' (fixRounds g rounds) ∧ (fixRounds g rounds).NamesAgree := by
  induction rounds generalizing g ids with
  | nil => exact ⟨ids, hg, hagree⟩
  | cons xs rounds ih =>
    obtain ⟨new, -, hnext⟩ := hg.exists_foldl_fixOne 0 xs
    exact ih hnext (hagree.fix xs)

/-- What is found in a file, after any passes, has a fix with one edit. The end column fits into 32
bits whenever the length of the source does. The edit replaces a line of the source, without its
ending, and the source with that line replaced is the text of the file with only this identifier
renamed. -/
theorem line_edit_is_renaming {path source : String} {f : File}
    (hf : File.ofSource? path source = some f) (hsize : Text.byteLength source.toList < UInt32.size)
    (rounds : List (List Finding)) {xs : List Finding}
    (hxs : findings (fixRounds f rounds) = .ok xs) {x : Finding} (hx : x ∈ xs) :
    x.span.start ≤ x.span.stop ∧ x.span.stop < UInt32.size ∧ x.line < UInt32.size ∧
      x.column + (x.span.stop - x.span.start) < UInt32.size ∧
      (x.diagnostic (fixRounds f rounds)).location =
        ⟨path, x.line, x.column, x.line, x.column + (x.span.stop - x.span.start)⟩ ∧
      ∃ description edit old,
        (x.diagnostic (fixRounds f rounds)).fix = some ⟨description, [edit]⟩ ∧
        edit.file = path ∧ edit.startLine = x.line ∧ edit.endLine = x.line ∧
        Text.line? source.toList edit.startLine = some old ∧
        edit.oldText = some (String.ofList old) ∧
        Text.replaceLine source.toList old edit.startLine = source.toList ∧
        String.ofList (Text.replaceLine source.toList edit.newText.toList edit.startLine) =
          (f.rename x.ident nilName).render := by
  obtain ⟨decls, ts, es, h⟩ := File.exists_origin hf
  obtain ⟨ids, hg, hagree⟩ := exists_renamed_fixRounds (.refl f) (File.namesAgree_of_ofSource? hf)
    rounds
  obtain ⟨y, t, ht, hxt, -⟩ := h.exists_traced hg hagree (mem_raw_of_findings hxs hx)
  generalize fixRounds f rounds = g at hg hagree hxs
  have hsource : g.source = source := hg.source_eq.trans h.source_eq
  have hfile : x.file = path := hxt.file_eq.trans h.path_eq
  obtain ⟨old, new, hline, hsame, hedit, hrender⟩ := hxt.exists_edit h ht hsource
  obtain ⟨before, word, after, hmarks, -⟩ := hxt.exists_marks h.laid ht
  have hstop := hxt.stop_lt h
  have hle : x.span.start ≤ x.span.stop := by
    rw [hmarks.start_eq, hmarks.stop_eq]
    exact Nat.le_add_right _ _
  obtain ⟨hlines, hcolumns⟩ : x.line ≤ x.span.start + 1 ∧ x.column ≤ x.span.start + 1 :=
    hmarks.line_column_le
  refine ⟨hle, by omega, by omega, by omega, ?_, ?_⟩
  · rw [Finding.diagnostic, hedit, ← hfile]
    rfl
  · refine ⟨_, _,
      old, by rw [Finding.diagnostic, hedit]; rfl, hfile, rfl, rfl, hline, rfl, hsame, ?_⟩
    rw [String.toList_ofList]
    exact hrender

/-- A read in a line with a carriage return and a letter of two bytes, found again once another read
is replaced. -/
theorem line_edit_is_renaming_silencedSource : ∃ description edit old,
    ((⟨"p.go", 4, "e", 1, ⟨45, 46, 3, 1⟩, ⟨12, 18, 1, 13⟩⟩ : Finding).diagnostic
      (silencedFile true)).fix =
        some ⟨description, [edit]⟩ ∧
      edit.startLine = 3 ∧ Text.line? (silencedSource false).toList 3 = some old ∧
      edit.oldText = some (String.ofList old) ∧
      String.ofList (Text.replaceLine (silencedSource false).toList edit.newText.toList 3) =
        ((silencedFile false).rename 4 nilName).render ∧
      ((silencedFile false).rename 4 nilName).render ≠ silencedSource false := by
  have hsize : Text.byteLength (silencedSource false).toList < UInt32.size := by decide +kernel
  have hfix : fixRounds (silencedFile false)
      [[⟨"p.go", 5, "d", 2, ⟨72, 73, 4, 1⟩, ⟨30, 36, 2, 4⟩⟩]] = silencedFile true := by cbv
  have hfound : findings (silencedFile true) =
      .ok [⟨"p.go", 4, "e", 1, ⟨45, 46, 3, 1⟩, ⟨12, 18, 1, 13⟩⟩] := by cbv
  have hchanged : ((silencedFile false).rename 4 nilName).render ≠ silencedSource false := by
    decide +kernel
  obtain ⟨-, -, -, -, -, description, edit, old, hdiagnostic, -, hstart, -, hold, htext, -,
    hrender⟩ :=
    line_edit_is_renaming ofSource?_silencedSource hsize _ (hfix.symm ▸ hfound)
    (List.mem_singleton_self _)
  have hstart : edit.startLine = 3 := hstart
  rw [hfix] at hdiagnostic
  rw [hstart] at hold hrender
  exact ⟨description, edit, old, hdiagnostic, hstart, hold, htext, hrender, hchanged⟩

end NilGuard
