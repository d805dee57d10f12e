import NilGuard.Proofs.Rounds

/-!
The text of a fixed file. The edits of a file that was fixed are the identifiers that were replaced,
in the order of the source, and so are the diagnostics that were reported: one for each replaced
name token. So the text is the source with exactly the places of the diagnostics replaced.
-/

namespace NilGuard

open Go Report

/-- The second text is the first one with the place of each diagnostic replaced by `nil`. Both texts
begin at the given point, and the diagnostics are in the order of the text. -/
inductive Replaces : Position → List Char → List Diagnostic → List Char → Prop where
  | nil (p : Position) (cs : List Char) : Replaces p cs [] cs
  | cons {p : Position} (kept word rest : List Char) {d : Diagnostic} {ds : List Diagnostic}
      {out : List Char} (hline : d.location.line = (p.after kept).line)
      (hcolumn : d.location.column = (p.after kept).column)
      (hendLine : d.location.endLine = d.location.line)
      (hendColumn : d.location.endColumn = d.location.column + Text.byteLength word)
      (hword : '\n' ∉ word) (h : Replaces ((p.after kept).after word) rest ds out) :
      Replaces p (kept ++ (word ++ rest)) (d :: ds) (kept ++ (nilName.toList ++ out))

/-! ### Marked tokens -/

theorem eq_of_start {ts : List Token} (hts : ts.Pairwise fun t u => t.span.start < u.span.start)
    {t u : Token} (ht : t ∈ ts) (hu : u ∈ ts) (h : t.span.start = u.span.start) : t = u := by
  have hnodup : (ts.map (·.span.start)).Nodup := List.pairwise_map.mpr (hts.imp Nat.ne_of_lt)
  exact List.inj_on_of_nodup_map hnodup ht hu h

/-- What begins at the marked tokens, in order, is one thing for each of them. -/
theorem forall₂_marked {α : Type} {ts : List Token} {as : List α} {span : α → Span}
    {marks : Nat → Bool} (hts : ts.Pairwise fun t u => t.span.start < u.span.start)
    (has : as.Pairwise fun a b => (span a).start < (span b).start)
    (hspan : ∀ a ∈ as, ∃ t ∈ ts, t.span = span a)
    (hmarks : ∀ n, marks n = true ↔ ∃ a ∈ as, (span a).start = n) :
    List.Forall₂ (fun t a => t.span = span a) (ts.filter (marks ·.span.start)) as := by
  have hstarts : (ts.filter (marks ·.span.start)).map (·.span.start) =
      as.map fun a => (span a).start := by
    have hleft : ((ts.filter (marks ·.span.start)).map (·.span.start)).Pairwise (· < ·) :=
      List.pairwise_map.mpr (hts.sublist List.filter_sublist)
    have hright : (as.map fun a => (span a).start).Pairwise (· < ·) := List.pairwise_map.mpr has
    have hperm :=
      (List.perm_ext_iff_of_nodup (hleft.imp Nat.ne_of_lt) (hright.imp Nat.ne_of_lt)).mpr
      fun n => by
        simp only [List.mem_map, List.mem_filter]
        constructor
        · rintro ⟨t, ⟨-, hmark⟩, rfl⟩
          exact (hmarks _).mp hmark
        · rintro ⟨a, ha, rfl⟩
          obtain ⟨t, ht, hta⟩ := hspan a ha
          exact ⟨t, ⟨ht, (hmarks _).mpr ⟨a, ha, by rw [hta]⟩⟩, by rw [hta]⟩
    exact hperm.eq_of_pairwise (fun a b _ _ hab hba => absurd hba (Nat.lt_asymm hab)) hleft hright
  have hall : List.Forall₂ (fun (t : Token) a => t.span.start = (span a).start)
      (ts.filter (marks ·.span.start)) as := by
    have hsame : List.Forall₂ (· = ·) ((ts.filter (marks ·.span.start)).map (·.span.start))
        (as.map fun a => (span a).start) := by
      rw [hstarts]
      exact List.forall₂_same.mpr fun _ _ => rfl
    simpa only [List.forall₂_map_left_iff, List.forall₂_map_right_iff] using hsame
  rw [List.forall₂_iff_zip] at hall ⊢
  refine ⟨hall.1, fun {t a} hta => ?_⟩
  obtain ⟨ht, ha⟩ := List.of_mem_zip hta
  obtain ⟨u, hu, hua⟩ := hspan a ha
  rw [eq_of_start hts (List.mem_of_mem_filter ht) hu (by rw [hua]; exact hall.2 hta), hua]

/-- A diagnostic is about the text of a token. -/
def IsAbout (t : Token) (d : Diagnostic) : Prop :=
  d.location.line = t.span.line ∧ d.location.column = t.span.column ∧
    d.location.endLine = t.span.line ∧
    d.location.endColumn = t.span.column + (t.span.stop - t.span.start)

/-- Edits at the places of names put their new names there. -/
theorem replaces_of_laid {p : Position} {before cs : List Char} {ms : List Token} (h : Laid p cs ms)
    (hp : p.offset = Text.byteLength before) (hkind : ∀ t ∈ ms, t.kind = .name) {es : List Ident}
    (hes : List.Forall₂ (fun t x => t.span = x.span) ms es) (hnil : ∀ x ∈ es, x.name = nilName)
    {ds : List Diagnostic} (hds : List.Forall₂ IsAbout ms ds) :
    Replaces p cs ds (File.applyEdits (before ++ cs) p.offset es) := by
  induction h generalizing before es ds with
  | nil p cs =>
    cases hes
    cases hds
    rw [File.applyEdits, hp, Text.dropBytes, Text.splitAtByte_append]
    exact .nil p cs
  | @cons p gap word rest t ts htext hspan hword hname h ih =>
    cases hes with
    | @cons _ x _ xs hx hes =>
    cases hds with
    | @cons _ d _ ds hd hds =>
    obtain ⟨hxname, hnil⟩ := List.forall_mem_cons.mp hnil
    obtain ⟨ht, hkind⟩ := List.forall_mem_cons.mp hkind
    have hsource : before ++ (gap ++ (word ++ rest)) = (before ++ (gap ++ word)) ++ rest := by simp
    have hoffset : ((p.after gap).after word).offset = Text.byteLength
        (before ++ (gap ++ word)) := by
      simp [hp]
      omega
    have hrest := ih hoffset hkind hes hnil hds
    rw [← hsource] at hrest
    have hstart : x.span.start = p.offset + Text.byteLength gap := by
      rw [← hx, hspan]; simp [Position.spanOf]
    have hstop : x.span.stop = ((p.after gap).after word).offset := by
      rw [← hx, hspan]; simp [Position.spanOf]
    have hslice : Text.slice (before ++ (gap ++ (word ++ rest))) p.offset x.span.start =
        some gap := by
      rw [hstart, hp, slice_append]
    rw [File.applyEdits, if_neg, hslice, hxname, hstop, Option.getD_some, List.append_assoc]
    · refine .cons gap word rest ?_ ?_ ?_ ?_ (not_mem_of_isNamePart (hname ht)).1 hrest
      · rw [hd.1, hspan]; rfl
      · rw [hd.2.1, hspan]; rfl
      · rw [hd.2.2.1, hd.1]
      · rw [hd.2.2.2, hd.2.1, hspan]; simp [Position.spanOf]
    · simp only [Bool.or_eq_true, decide_eq_true_eq, hstop, hstart, hoffset, Text.byteLength_append]
      omega

/-! ### The order of places -/

theorem le_trans_location {a b c : Location} (hab : a.le b = true) (hbc : b.le c = true) :
    a.le c = true := by
  simp only [Location.le, Bool.or_eq_true, Bool.and_eq_true, decide_eq_true_eq, beq_iff_eq] at *
  rcases hab with hab | ⟨hab, h⟩ <;> rcases hbc with hbc | ⟨hbc, h'⟩
  · exact .inl (String.lt_trans hab hbc)
  · exact .inl (hbc ▸ hab)
  · exact .inl (hab ▸ hbc)
  · exact .inr ⟨hab.trans hbc, by omega⟩

theorem le_total_location (a b : Location) : (a.le b || b.le a) = true := by
  simp only [Location.le, Bool.or_eq_true, Bool.and_eq_true, decide_eq_true_eq, beq_iff_eq]
  by_cases hab : a.file < b.file
  · exact .inl (.inl hab)
  by_cases hba : b.file < a.file
  · exact .inr (.inl hba)
  have hfile : a.file = b.file := String.le_antisymm (String.not_lt.mp hba) (String.not_lt.mp hab)
  have hplace : (a.line < b.line ∨ a.line = b.line ∧ a.column ≤ b.column) ∨
      b.line < a.line ∨ b.line = a.line ∧ b.column ≤ a.column := by omega
  exact hplace.imp (fun h => .inr ⟨hfile, h⟩) fun h => .inr ⟨hfile.symm, h⟩

/-- A place is on an earlier line than another, or further left. -/
def Ahead (a b : Location) : Prop :=
  a.line < b.line ∨ a.line = b.line ∧ a.column < b.column

theorem rel_or_eq {α : Type} {R : α → α → Prop} {l : List α} (h : l.Pairwise R) {a b : α}
    (ha : a ∈ l) (hb : b ∈ l) : a = b ∨ R a b ∨ R b a := by
  obtain ⟨i, hi, rfl⟩ := List.mem_iff_getElem.mp ha
  obtain ⟨j, hj, rfl⟩ := List.mem_iff_getElem.mp hb
  have hrel := List.pairwise_iff_getElem.mp h
  rcases Nat.lt_trichotomy i j with hij | rfl | hij
  · exact .inr (.inl (hrel i j hi hj hij))
  · exact .inl rfl
  · exact .inr (.inr (hrel j i hj hi hij))

theorem sorted_pairwise (ds : List Diagnostic) :
    (sorted ds).Pairwise fun d d' => d.location.le d'.location = true := by
  unfold sorted
  refine List.pairwise_mergeSort ?_ ?_ ds
  · exact fun a b c => le_trans_location
  · exact fun a b => le_total_location a.location b.location

/-- Diagnostics of one file whose places follow each other are sorted, and no other order is. -/
theorem sorted_eq_of_ahead {ds ds' : List Diagnostic} (hperm : ds.Perm ds') {file : String}
    (hfile : ∀ d ∈ ds', d.location.file = file)
    (hahead : ds'.Pairwise fun d d' => Ahead d.location d'.location) : sorted ds = ds' := by
  have hsorted : (sorted ds).Perm ds' := (List.mergeSort_perm ds _).trans hperm
  have hle : ∀ d ∈ ds', ∀ d' ∈ ds', (d.location.le d'.location = true ↔
      d.location.line < d'.location.line ∨
        d.location.line = d'.location.line ∧ d.location.column ≤ d'.location.column) := by
    intro d hd d' hd'
    simp [Location.le, hfile d hd, hfile d' hd']
  have hdsle : ds'.Pairwise fun d d' => d.location.le d'.location = true := by
    refine List.Pairwise.imp_of_mem ?_ hahead
    intro d d' hd hd' h
    rw [hle d hd d' hd']
    exact h.imp id fun h => ⟨h.1, Nat.le_of_lt h.2⟩
  refine hsorted.eq_of_pairwise (fun d d' hd hd' h h' => ?_) (sorted_pairwise ds) hdsle
  have hd := hsorted.subset hd
  rw [hle d hd d' hd'] at h
  rw [hle d' hd' d hd] at h'
  rcases rel_or_eq hahead hd hd' with heq | hd | hd
  · exact heq
  all_goals
    unfold Ahead at hd
    omega

/-! ### Diagnostics and edits of what was fixed -/

theorem location_diagnostic (f : File) (x : Finding) : (x.diagnostic f).location =
    ⟨x.file, x.span.line, x.span.column, x.span.line,
      x.span.column + (x.span.stop - x.span.start)⟩ := by
  unfold Finding.diagnostic
  split <;> rfl

/-- Whether one of the findings begins at an offset. -/
def marked (xs : List Finding) (n : Nat) : Bool :=
  xs.any (·.span.start == n)

theorem marked_iff {xs : List Finding} {n : Nat} :
    marked xs n = true ↔ ∃ x ∈ xs, x.span.start = n := by
  simp [marked]

section
variable {f : File} {path source : String} {decls : List Surface.Decl} {ts : List Token}
  {es : List Event} {xs : List Finding}

/-- Findings about different identifiers begin at different offsets. -/
theorem starts_nodup (hf : f.StartsDistinct) (htraced : ∀ x ∈ xs, ∃ y, ∃ t ∈ ts, Traced f x y t)
    (hids : (xs.map (·.ident)).Nodup) : (xs.map (·.span.start)).Nodup := by
  refine List.pairwise_map.mpr ((List.pairwise_map.mp hids).imp_of_mem
    fun {x y} hx hy hne heq => ?_)
  obtain ⟨a, _, -, ha⟩ := htraced x hx
  obtain ⟨b, _, -, hb⟩ := htraced y hy
  exact hne (hf _ _ a b ha.ident_eq hb.ident_eq (by rw [← ha.span_eq, ← hb.span_eq, heq]))

theorem sortedBy_start_pairwise (hstarts : (xs.map (·.span.start)).Nodup) :
    (sortedBy (·.span.start) xs).Pairwise fun x y => x.span.start < y.span.start := by
  have hperm : ((sortedBy (·.span.start) xs).map (·.span.start)).Nodup :=
    ((List.mergeSort_perm xs _).map _).nodup_iff.mpr hstarts
  have hne := List.pairwise_map.mp hperm
  refine ((sortedBy_pairwise (·.span.start) xs).and hne).imp fun h => ?_
  exact Nat.lt_of_le_of_ne h.1 h.2

/-- Findings that begin one after the other have places that follow each other. -/
theorem ahead_of_start (hlaid : Laid {} source.toList ts)
    (htraced : ∀ x ∈ xs, ∃ y, ∃ t ∈ ts, Traced f x y t) {x y : Finding} (hx : x ∈ xs) (hy : y ∈ xs)
    (h : x.span.start < y.span.start) :
    Ahead (x.diagnostic f).location (y.diagnostic f).location := by
  obtain ⟨a, t, ht, hxt⟩ := htraced x hx
  obtain ⟨b, u, hu, hyu⟩ := htraced y hy
  have hxspan : x.span = t.span := hxt.span_eq.trans hxt.token_span.symm
  have hyspan : y.span = u.span := hyu.span_eq.trans hyu.token_span.symm
  rw [hxspan, hyspan] at h
  rw [location_diagnostic, location_diagnostic, hxspan, hyspan]
  rcases rel_or_eq hlaid.pairwise ht hu with rfl | htu | hut
  · exact absurd h (Nat.lt_irrefl _)
  · exact htu.2
  · exact absurd h (Nat.lt_asymm hut.1)

theorem diagnostics_ahead (hlaid : Laid {} source.toList ts)
    (htraced : ∀ x ∈ xs, ∃ y, ∃ t ∈ ts, Traced f x y t) (hstarts : (xs.map (·.span.start)).Nodup) :
    ((sortedBy (·.span.start) xs).map (·.diagnostic f)).Pairwise
      fun d d' => Ahead d.location d'.location := by
  refine List.pairwise_map.mpr ((sortedBy_start_pairwise hstarts).imp_of_mem
    fun {x y} hx hy h => ?_)
  exact ahead_of_start hlaid htraced (List.mem_mergeSort.mp hx) (List.mem_mergeSort.mp hy) h

/-- Sorting the diagnostics of findings sorts the findings by where they begin. -/
theorem sorted_diagnostics (hlaid : Laid {} source.toList ts)
    (htraced : ∀ x ∈ xs, ∃ y, ∃ t ∈ ts, Traced f x y t) (hstarts : (xs.map (·.span.start)).Nodup) :
    sorted (xs.map (·.diagnostic f)) = (sortedBy (·.span.start) xs).map (·.diagnostic f) := by
  have hfile : ∀ d ∈ (sortedBy (·.span.start) xs).map (·.diagnostic f),
      d.location.file = f.path := by
    intro d hd
    obtain ⟨x, hx, rfl⟩ := List.mem_map.mp hd
    obtain ⟨_, _, -, hxt⟩ := htraced x (List.mem_mergeSort.mp hx)
    rw [location_diagnostic, hxt.file_eq]
  exact sorted_eq_of_ahead ((List.mergeSort_perm xs _).map _).symm hfile
    (diagnostics_ahead hlaid htraced hstarts)

theorem diagnostics_marked (hlaid : Laid {} source.toList ts)
    (htraced : ∀ x ∈ xs, ∃ y, ∃ t ∈ ts, Traced f x y t)
    (hstarts : (xs.map (·.span.start)).Nodup) :
    List.Forall₂ IsAbout (ts.filter (marked xs ·.span.start))
      (sorted (xs.map (·.diagnostic f))) := by
  rw [sorted_diagnostics hlaid htraced hstarts, List.forall₂_map_right_iff]
  have hspan : ∀ x ∈ sortedBy (·.span.start) xs, ∃ t ∈ ts, t.span = x.span := by
    intro x hx
    obtain ⟨y, t, ht, hxt⟩ := htraced x (List.mem_mergeSort.mp hx)
    exact ⟨t, ht, hxt.token_span.trans hxt.span_eq.symm⟩
  have hmarks : ∀ n, marked xs n = true ↔ ∃ x ∈ sortedBy (·.span.start) xs, x.span.start = n := by
    intro n
    simp [marked_iff, List.mem_mergeSort]
  refine (forall₂_marked (hlaid.pairwise.imp fun h => h.1) (sortedBy_start_pairwise hstarts) hspan
    hmarks).imp fun t x htx => ?_
  simp [IsAbout, location_diagnostic, ← htx]

/-- The edits of a file that was fixed are the identifiers that were replaced. -/
theorem mem_edits_cases (h : f.Origin path source decls ts es) {g : File} {ids : List IdentId}
    (hg : Renamed f ids g) {x : Ident} (hx : x ∈ g.idents.toList)
    (hsource : File.inSource source.toList x = false) :
    ∃ i ∈ ids, ∃ y, f.idents[i]? = some y ∧ x = { y with name := nilName, binding := none } := by
  obtain ⟨i, hi⟩ := Array.mem_iff_getElem?.mp (Array.mem_toList_iff.mp hx)
  rw [hg.idents_eq] at hi
  split at hi
  · next hmem =>
    obtain ⟨y, hy, rfl⟩ := Option.map_eq_some_iff.mp hi
    exact ⟨i, hmem, y, hy, rfl⟩
  · have hin := h.inSource (Array.mem_iff_getElem?.mpr ⟨i, hi⟩)
    rw [hsource] at hin
    cases hin

theorem mem_edits {g : File} {x : Ident} (hx : x ∈ g.edits) :
    x ∈ g.idents.toList ∧ File.inSource g.source.toList x = false := by
  have hmem := List.mem_mergeSort.mp ((firsts_sublist _ _).subset hx)
  simpa using List.mem_filter.mp hmem

/-- What was replaced is an edit, since the source has another name there. -/
theorem exists_mem_edits (h : f.Origin path source decls ts es) {g : File} {ids : List IdentId}
    (hg : Renamed f ids g) {i : IdentId} (hi : i ∈ ids) {y : Ident} (hy : f.idents[i]? = some y)
    (hnil : y.isNil = false) : ∃ e ∈ g.edits, e.span.start = y.span.start := by
  have hmem : { y with name := nilName, binding := none } ∈ g.idents.toList := by
    refine Array.mem_toList_iff.mpr (Array.mem_iff_getElem?.mpr ⟨i, ?_⟩)
    rw [hg.idents_eq, if_pos hi, hy, Option.map_some]
  have hsource : g.source = source := hg.source_eq.trans h.source_eq
  have hslice := h.inSource (Array.mem_iff_getElem?.mpr ⟨i, hy⟩)
  have hin : File.inSource g.source.toList { y with name := nilName, binding := none } = false := by
    rw [hsource]
    simp only [File.inSource, beq_iff_eq] at hslice
    simpa [File.inSource, hslice, Ident.isNil, String.toList_inj] using hnil
  have hedit : { y with name := nilName, binding := none } ∈
      g.idents.toList.filter (!File.inSource g.source.toList ·) :=
    List.mem_filter.mpr ⟨hmem, by rw [hin]; rfl⟩
  obtain ⟨e, he, hstart⟩ := exists_mem_firsts (fun x : Ident => x.span.start)
    (List.mem_mergeSort.mpr hedit)
  exact ⟨e, he, hstart⟩

theorem edits_marked (h : f.Origin path source decls ts es) {g : File}
    (hg : Renamed f (xs.map (·.ident)) g) (htraced : ∀ x ∈ xs, ∃ y, ∃ t ∈ ts, Traced f x y t) :
    List.Forall₂ (fun t x => t.span = x.span) (ts.filter (marked xs ·.span.start)) g.edits ∧
      ∀ x ∈ g.edits, x.name = nilName := by
  have hsource : g.source = source := hg.source_eq.trans h.source_eq
  have hedit : ∀ e ∈ g.edits, ∃ x ∈ xs, ∃ y, ∃ t ∈ ts, Traced f x y t ∧
      e = { y with name := nilName, binding := none } := by
    intro e he
    obtain ⟨hmem, hin⟩ := mem_edits he
    obtain ⟨i, hi, y, hy, rfl⟩ := mem_edits_cases h hg hmem (hsource ▸ hin)
    obtain ⟨x, hx, rfl⟩ := List.mem_map.mp hi
    obtain ⟨y', t, ht, hxt⟩ := htraced x hx
    obtain rfl : y' = y := by simpa [hxt.ident_eq] using hy
    exact ⟨x, hx, y', t, ht, hxt, rfl⟩
  have hlt : g.edits.Pairwise fun x y => x.span.start < y.span.start :=
    firsts_sort_pairwise_lt fun _ _ _ _ => Iff.rfl
  refine ⟨forall₂_marked (h.laid.pairwise.imp fun ht => ht.1) hlt (fun e he => ?_) fun n => ?_,
    fun e he => ?_⟩
  · obtain ⟨x, -, y, t, ht, hxt, rfl⟩ := hedit e he
    exact ⟨t, ht, hxt.token_span⟩
  · rw [marked_iff]
    constructor
    · rintro ⟨x, hx, rfl⟩
      obtain ⟨y, t, -, hxt⟩ := htraced x hx
      obtain ⟨e, he, hstart⟩ := exists_mem_edits h hg (List.mem_map_of_mem hx) hxt.ident_eq
        hxt.not_nil
      exact ⟨e, he, by rw [hstart, hxt.span_eq]⟩
    · rintro ⟨e, he, rfl⟩
      obtain ⟨x, hx, y, t, -, hxt, rfl⟩ := hedit e he
      exact ⟨x, hx, by rw [hxt.span_eq]⟩
  · obtain ⟨_, _, _, _, _, _, rfl⟩ := hedit e he
    rfl

/-- What fixing gives: one diagnostic for each replaced read, in the order of the source, and the
source with the places of the diagnostics replaced. -/
theorem replaces_of_fixAll (h : f.Origin path source decls ts es) (hagree : f.NamesAgree)
    {marker : String} (hxs : openFindings marker f = .ok xs) {fixed : Fixed}
    (hfixed : fixAll marker f xs = .ok fixed) {ds : List Diagnostic}
    (hds : ds = sorted (xs.map (·.diagnostic f) ++ fixed.diagnostics)) :
    fixed.count = ds.length ∧ (ds.Pairwise fun d d' => Ahead d.location d'.location) ∧
      Replaces {} source.toList ds fixed.file.render.toList := by
  obtain ⟨rounds, fixed', hpasses, hfixed', hcount, hdiagnostics⟩ | ⟨_, _, _, _, -, -, -, hfault⟩ :=
    exists_last_pass hagree hxs
  case inr => rw [hfixed] at hfault; cases hfault
  rw [hfixed] at hfixed'
  cases hfixed'
  obtain ⟨hrenamed, hnodup, hnamed, hfound⟩ :=
    hpasses.renamed (.refl f) .nil h.startsDistinct hagree hxs
  rw [hdiagnostics, ← List.map_append, ← hpasses.flatten] at hds
  generalize rounds.flatten = all at *
  rw [List.nil_append] at hrenamed hnodup
  have htraced : ∀ x ∈ all, ∃ y, ∃ t ∈ ts, Traced f x y t := by
    intro x hx
    obtain ⟨ids, g, hg, hgagree, hraw⟩ := hfound x hx
    obtain ⟨y, t, ht, hxt, -⟩ := h.exists_traced hg hgagree hraw
    exact ⟨y, t, ht, hxt⟩
  have hstarts := starts_nodup h.startsDistinct htraced hnodup
  have habout := diagnostics_marked h.laid htraced hstarts
  obtain ⟨hedits, hnil⟩ := edits_marked h hrenamed htraced
  refine ⟨?_, ?_, ?_⟩
  · rw [hds, sorted, List.length_mergeSort, List.length_map]
    omega
  · rw [hds, sorted_diagnostics h.laid htraced hstarts]
    exact diagnostics_ahead h.laid htraced hstarts
  · have hkind : ∀ t ∈ ts.filter (marked all ·.span.start), t.kind = .name := by
      intro t ht
      obtain ⟨ht, hmarked⟩ := List.mem_filter.mp ht
      obtain ⟨x, hx, hstart⟩ := marked_iff.mp hmarked
      obtain ⟨y, u, hu, hxu⟩ := htraced x hx
      have heq : t.span.start = u.span.start := by rw [← hstart, hxu.token_span, hxu.span_eq]
      rw [eq_of_start (h.laid.pairwise.imp fun h => h.1) ht hu heq]
      exact hxu.token_kind
    have hsource : fixed.file.source = source := hrenamed.source_eq.trans h.source_eq
    rw [File.render, String.toList_ofList, hsource, hds]
    have hstart : ({} : Position).offset = Text.byteLength [] := rfl
    exact replaces_of_laid (h.laid.sublist List.filter_sublist) hstart hkind hedits hnil habout

end

/-- What the reports on a file are, with and without fixing. -/
theorem checkFile_cases {settings : Settings} {f : File} {r : FileReport}
    (h : checkFile settings true f = .ok r) :
    ∃ xs, openFindings settings.suppressMarker f = .ok xs ∧
      ∃ r', checkFile settings false f = .ok r' ∧
      r'.diagnostics = xs.map (·.diagnostic f) ∧
      (xs = [] ∧ r = r' ∧ r.fixed = none ∨
        xs ≠ [] ∧ ∃ fixed, fixAll settings.suppressMarker f xs = .ok fixed ∧
          r.diagnostics = sorted (xs.map (·.diagnostic f) ++ fixed.diagnostics) ∧
          r.fixed = some (fixed.file.render, fixed.count)) := by
  cases hxs : openFindings settings.suppressMarker f with
  | error fault => simp [checkFile, hxs, bind, Except.bind] at h
  | ok xs =>
    refine ⟨xs, rfl, { path := f.path, source := f.source, diagnostics := xs.map (·.diagnostic f) },
      by simp [checkFile, hxs, bind, Except.bind, pure, Except.pure], rfl, ?_⟩
    cases xs with
    | nil =>
      simp [checkFile, hxs, bind, Except.bind, pure, Except.pure] at h
      exact .inl ⟨rfl, h.symm, by rw [← h]⟩
    | cons x xs =>
      cases hfixed : fixAll settings.suppressMarker f (x :: xs) with
      | error fault => simp [checkFile, hxs, hfixed, bind, Except.bind] at h
      | ok fixed =>
        simp [checkFile, hxs, hfixed, bind, Except.bind, pure, Except.pure] at h
        exact .inr ⟨List.cons_ne_nil x xs, fixed, rfl, by rw [← h]; rfl, by rw [← h]⟩

/-- What the report on a source can be: a generated one is passed over, and another one has what is
open in its tree and, when fixing, what comes to light behind it. -/
theorem checkSource_cases {path source : String} {settings : Settings} {fixing : Bool}
    {r : FileReport} (h : checkSource path source settings fixing = .ok r) :
    (settings.skipGenerated && isGenerated source) = true ∧ r = { path, source, skipped := true } ∨
    (settings.skipGenerated && isGenerated source) = false ∧
      ∃ f xs, File.ofSource? path source = some f ∧
      openFindings settings.suppressMarker f = .ok xs ∧
      ((fixing = true → xs = []) ∧ r = { path, source, diagnostics := xs.map (·.diagnostic f) } ∨
        fixing = true ∧ xs ≠ [] ∧ ∃ fixed, fixAll settings.suppressMarker f xs = .ok fixed ∧
          r = { path, source, diagnostics := sorted (xs.map (·.diagnostic f) ++ fixed.diagnostics),
                fixed := some (fixed.file.render, fixed.count) }) := by
  unfold checkSource at h
  split at h
  · next hskip =>
    cases h
    exact .inl ⟨hskip, rfl⟩
  next hskip =>
  refine .inr ⟨Bool.eq_false_iff.mpr hskip, ?_⟩
  cases hf : File.ofSource? path source with
  | none => rw [hf] at h; cases h
  | some f =>
  obtain ⟨_, _, _, horigin⟩ := File.exists_origin hf
  rw [hf] at h
  cases hxs : openFindings settings.suppressMarker f with
  | error fault => simp [checkFile, hxs, bind, Except.bind, Except.mapError] at h
  | ok xs =>
  refine ⟨f, xs, rfl, hxs, ?_⟩
  simp only [checkFile, hxs, bind, Except.bind, pure, Except.pure, horigin.path_eq,
    horigin.source_eq] at h
  split at h
  · next hclean =>
    cases h
    refine .inl ⟨fun hfixing => ?_, rfl⟩
    simpa [hfixing] using hclean
  · next hfound =>
    simp only [Bool.or_eq_true, Bool.not_eq_true', List.isEmpty_iff, not_or,
      Bool.not_eq_false] at hfound
    cases hfixed : fixAll settings.suppressMarker f xs with
    | error fault => rw [hfixed] at h; cases h
    | ok fixed =>
      rw [hfixed] at h
      cases h
      exact .inr ⟨hfound.1, hfound.2, fixed, rfl, rfl⟩

/-- A fixed text is what fixing made of the tree of the source. -/
theorem exists_fixed_of_checkSource {path source text : String} {settings : Settings}
    {r : FileReport} {n : Nat} (h : checkSource path source settings true = .ok r)
    (hfixed : r.fixed = some (text, n)) :
    ∃ f xs fixed, File.ofSource? path source = some f ∧
      openFindings settings.suppressMarker f = .ok xs ∧ xs ≠ [] ∧
      fixAll settings.suppressMarker f xs = .ok fixed ∧
      r.diagnostics = sorted (xs.map (·.diagnostic f) ++ fixed.diagnostics) ∧
      fixed.file.render = text ∧ fixed.count = n := by
  obtain ⟨-, rfl⟩ | ⟨-, f, xs, hf, hxs, ⟨-, rfl⟩ | ⟨-, hne, fixed, hfix, rfl⟩⟩ :=
    checkSource_cases h
  · cases hfixed
  · cases hfixed
  · cases hfixed
    exact ⟨f, xs, fixed, hf, hxs, hne, hfix, rfl, rfl, rfl⟩

/-- A report with a fixed text has a diagnostic for each replaced read, in the order of the source,
and no read twice. They include all that is reported without fixing. The fixed text is the source
with their places replaced by `nil`. A report without a fixed text has the diagnostics that are
reported without fixing. -/
theorem fixed_text_replaces {path source : String} {settings : Settings} {r : FileReport}
    (h : checkSource path source settings true = .ok r) :
    ∃ r', checkSource path source settings false = .ok r' ∧
      (r.fixed = none → r.diagnostics = r'.diagnostics) ∧
      ∀ text n, r.fixed = some (text, n) → 1 ≤ n ∧ n = r.diagnostics.length ∧
        (r.diagnostics.Pairwise fun d d' => Ahead d.location d'.location) ∧
        r'.diagnostics ⊆ r.diagnostics ∧ Replaces {} source.toList r.diagnostics text.toList := by
  unfold checkSource at h ⊢
  split at h
  · next hskip =>
    cases h
    exact ⟨_, by rw [if_pos hskip], fun _ => rfl, by simp⟩
  next hskip =>
  rw [if_neg hskip]
  cases hf : File.ofSource? path source with
  | none => rw [hf] at h; cases h
  | some f =>
  rw [hf] at h
  simp only at h ⊢
  cases hr : checkFile settings true f with
  | error fault => rw [hr] at h; cases h
  | ok report =>
  rw [hr] at h
  cases h
  obtain ⟨xs, hxs, r', hr', hdiagnostics, hcases⟩ := checkFile_cases hr
  refine ⟨r', by rw [hr']; rfl, ?_⟩
  obtain ⟨-, rfl, hnone⟩ | ⟨hne, fixed, hfixed, hds, hsome⟩ := hcases
  · exact ⟨fun _ => rfl, by simp [hnone]⟩
  · obtain ⟨decls, ts, es, horigin⟩ := File.exists_origin hf
    obtain ⟨hcount, hahead, hreplaces⟩ :=
      replaces_of_fixAll horigin (File.namesAgree_of_ofSource? hf) hxs hfixed hds
    have hsubset : r'.diagnostics ⊆ r.diagnostics := by
      intro d hd
      rw [hds]
      exact List.mem_mergeSort.mpr (List.mem_append_left _ (hdiagnostics ▸ hd))
    refine ⟨by simp [hsome], fun text n htext => ?_⟩
    obtain ⟨rfl, rfl⟩ : fixed.file.render = text ∧ fixed.count = n := by simpa [hsome] using htext
    refine ⟨?_, hcount, hahead, hsubset, hreplaces⟩
    obtain ⟨x, hx⟩ := List.exists_mem_of_ne_nil xs hne
    have hpos := List.length_pos_of_mem (hsubset (hdiagnostics ▸ List.mem_map_of_mem hx))
    omega

theorem checkSource_of_fixAll {path source : String} (settings : Settings) {f : File}
    {xs : List Finding} {fixed : Fixed} (hgenerated : isGenerated source = false)
    (hf : File.ofSource? path source = some f)
    (hxs : openFindings settings.suppressMarker f = .ok xs) (hne : xs ≠ [])
    (hfixed : fixAll settings.suppressMarker f xs = .ok fixed) :
    ∃ r, checkSource path source settings true = .ok r ∧
      r.fixed = some (fixed.file.render, fixed.count) := by
  refine ⟨{ path := f.path, source := f.source,
            diagnostics := sorted (xs.map (·.diagnostic f) ++ fixed.diagnostics),
            fixed := some (fixed.file.render, fixed.count) }, ?_, rfl⟩
  simp [checkSource, hgenerated, hf, checkFile, hxs, hne, hfixed, bind, Except.bind, pure,
    Except.pure, Except.mapError]

/-- Both reads of the sample are replaced. -/
theorem checkSource_sampleSource : ∃ r, checkSource "p.go" sampleSource {} true = .ok r ∧
    r.fixed = some ("func f()\x7bif e!=nil\x7breturn\x7d\nnil()\nnil()\x7d", 2) := by
  obtain ⟨ds, hfixed⟩ := fixAll_sampleFile
  have hrender : (sampleFile true true).render =
      "func f()\x7bif e!=nil\x7breturn\x7d\nnil()\nnil()\x7d" := by cbv
  have hgenerated : isGenerated sampleSource = false := by decide +kernel
  obtain ⟨r, hr, htext⟩ := checkSource_of_fixAll {} hgenerated ofSource?_sampleSource
    openFindings_sampleFile (List.cons_ne_nil _ _) hfixed
  exact ⟨r, hr, by rw [htext, hrender]⟩

theorem fixed_text_replaces_sampleSource : ∃ (r r' : FileReport),
    checkSource "p.go" sampleSource {} true = .ok r ∧
    checkSource "p.go" sampleSource {} false = .ok r' ∧
    r.diagnostics.length = 2 ∧ (r.diagnostics.Pairwise fun d d' => Ahead d.location d'.location) ∧
    r'.diagnostics ⊆ r.diagnostics ∧ Replaces {} sampleSource.toList r.diagnostics
      "func f()\x7bif e!=nil\x7breturn\x7d\nnil()\nnil()\x7d".toList := by
  obtain ⟨r, hr, hfixed⟩ := checkSource_sampleSource
  obtain ⟨r', hr', -, hsome⟩ := fixed_text_replaces hr
  obtain ⟨-, hcount, hahead, hsubset, hreplaces⟩ := hsome _ _ hfixed
  exact ⟨r, r', hr, hr', hcount.symm, hahead, hsubset, hreplaces⟩

end NilGuard
