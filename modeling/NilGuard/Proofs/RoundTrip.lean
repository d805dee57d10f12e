import NilGuard.Proofs.Rereading
import NilGuard.Proofs.Respelling

/-!
Checking a fixed text again. The text of a fixed file reads as the fixed file: its tree has the same
outline, and its identifiers are those that fixing left. So nothing is open in it, since lines
without a replaced read are as they were and keep their comments. The exception is a call of `new`
or `make`, whose first argument is a type only as long as the function has its name.
-/

namespace NilGuard

open Go Report

/-! ### Lines that stay -/

namespace Text

theorem getElem?_pieces_cons {c : Char} (hc : c ≠ '\n') (cs : List Char) (k : Nat) :
    (pieces (c :: cs))[k]? =
      if k = 0 then some (c :: (pieces cs)[0]?.getD []) else (pieces cs)[k]? := by
  rw [pieces, if_neg hc]
  cases k with
  | zero => cases pieces cs <;> rfl
  | succ k => cases pieces cs <;> rfl

/-- The lines of two texts behind a common part. -/
theorem getElem?_pieces_append {kept xs ys : List Char} {k : Nat}
    (h : ∀ j, k = kept.count '\n' + j → (pieces ys)[j]? = (pieces xs)[j]?) :
    (pieces (kept ++ ys))[k]? = (pieces (kept ++ xs))[k]? := by
  induction kept generalizing k with
  | nil => exact h k (by simp)
  | cons c kept ih =>
    by_cases hc : c = '\n'
    · subst hc
      simp only [List.cons_append, pieces, if_true]
      cases k with
      | zero => rfl
      | succ k =>
        refine ih fun j hj => h j ?_
        rw [List.count_cons_self]
        omega
    · have hrest := ih (k := k) fun j hj => h j (by rw [hj, List.count_cons_of_ne hc])
      simp only [List.cons_append, getElem?_pieces_cons hc]
      by_cases hk : k = 0
      · subst hk
        rw [hrest]
      · rw [if_neg hk, if_neg hk, hrest]

/-- A word on one line belongs to the first line. -/
theorem getElem?_pieces_word {word : List Char} (hword : '\n' ∉ word) (cs : List Char) (k : Nat) :
    (pieces (word ++ cs))[k + 1]? = (pieces cs)[k + 1]? := by
  induction word with
  | nil => rfl
  | cons c word ih =>
    rw [List.mem_cons, not_or] at hword
    rw [List.cons_append, getElem?_pieces_cons (Ne.symm hword.1), if_neg (Nat.succ_ne_zero k),
      ih hword.2]

end Text

theorem Replaces.getElem?_pieces {p : Position} {cs out : List Char} {ds : List Diagnostic}
    (h : Replaces p cs ds out) {k : Nat} (hk : ∀ d ∈ ds, d.location.line ≠ p.line + k) :
    (Text.pieces out)[k]? = (Text.pieces cs)[k]? := by
  induction h generalizing k with
  | nil => rfl
  | @cons p kept word rest d ds out hline hcolumn hendLine hendColumn hword h ih =>
    obtain ⟨hd, hds⟩ := List.forall_mem_cons.mp hk
    refine Text.getElem?_pieces_append fun j hj => ?_
    rw [hline, Position.line_after] at hd
    cases j with
    | zero => omega
    | succ j =>
      rw [Text.getElem?_pieces_word (by decide), Text.getElem?_pieces_word hword]
      refine ih fun d' hd' => ?_
      have hcount : word.count '\n' = 0 := List.count_eq_zero.mpr hword
      rw [Position.line_after, Position.line_after, hcount]
      have := hds d' hd'
      omega

/-- A line without a diagnostic stays. -/
theorem Replaces.line?_eq {cs out : List Char} {ds : List Diagnostic} (h : Replaces {} cs ds out)
    {n : Nat} (hn : ∀ d ∈ ds, d.location.line ≠ n) : Text.line? out n = Text.line? cs n := by
  cases n with
  | zero => rfl
  | succ k =>
    rw [Text.line?, Text.line?, Text.lines, Text.lines, List.getElem?_map, List.getElem?_map,
      h.getElem?_pieces fun d hd => by rw [Nat.add_comm]; exact hn d hd]

/-! ### Suppressed lines -/

/-- What the passes fix stands on lines that are not suppressed. -/
theorem Passes.not_suppressed {marker : String} {f g : File} {xs ys : List Finding}
    {rounds : List (List Finding)} (h : Passes marker f xs rounds g ys)
    (hxs : openFindings marker f = .ok xs) : ∀ x ∈ rounds.flatten,
      (Text.line? f.source.toList x.line).any (suppressed marker.toList) = false := by
  induction h with
  | refl => simp
  | @pass f g xs ys zs rounds hne hpos hopen hrest ih =>
    rw [List.flatten_cons]
    refine List.forall_mem_append.mpr ⟨fun x hx => ?_, ?_⟩
    · obtain ⟨found, -, rfl⟩ := exists_of_openFindings hxs
      simpa using (List.mem_filter.mp hx).2
    · simpa only [source_fix] using ih hopen

/-! ### The fixed text -/

/-- At a place of a source a call begins whose function takes a type and is given one. -/
def CallsTypeAt (source : String) (line column : Nat) : Prop :=
  ∃ before t after, tokens source.toList = some (before ++ t :: after) ∧ t.span.line = line ∧
    t.span.column = column ∧ Surface.Grammar.CallsType (t :: after)

/-- Findings about names of a source that are used or on the left of `:=`. -/
def AreTraced (f : File) (source : String) (decls : List Surface.Decl) (ts : List Token)
    (xs : List Finding) : Prop :=
  ∀ x ∈ xs, ∃ y, ∃ t ∈ ts, Traced f x y t ∧
    ∃ w ∈ decls.flatMap (Surface.declWords (Resolver.spanText source.toList)),
      w.name = ⟨y.name, y.span⟩ ∧ (w.role = .value ∨ w.role = .target)

section
variable {f : File} {path source : String} {decls : List Surface.Decl} {ts : List Token}
  {es : List Event} {xs : List Finding}

theorem AreTraced.traced (hxs : AreTraced f source decls ts xs) :
    ∀ x ∈ xs, ∃ y, ∃ t ∈ ts, Traced f x y t := by
  intro x hx
  obtain ⟨y, t, ht, hxt, -⟩ := hxs x hx
  exact ⟨y, t, ht, hxt⟩

/-- The finding at a marked token. -/
theorem AreTraced.exists_of_marked (h : f.Origin path source decls ts es)
    (hxs : AreTraced f source decls ts xs) {t : Token} (ht : t ∈ ts)
    (hmarked : marked xs t.span.start = true) : ∃ x ∈ xs, ∃ y, Traced f x y t ∧
      ∃ w ∈ decls.flatMap (Surface.declWords (Resolver.spanText source.toList)),
        w.name = ⟨y.name, y.span⟩ ∧ (w.role = .value ∨ w.role = .target) := by
  obtain ⟨x, hx, hstart⟩ := marked_iff.mp hmarked
  obtain ⟨y, u, hu, hxu, hw⟩ := hxs x hx
  have heq : t.span.start = u.span.start := by rw [← hstart, hxu.token_span, hxu.span_eq]
  rw [eq_of_start (h.laid.pairwise.imp fun h => h.1) ht hu heq]
  exact ⟨x, hx, y, hxu, hw⟩

/-- The finding of a marked identifier. -/
theorem AreTraced.exists_of_ident (h : f.Origin path source decls ts es)
    (hxs : AreTraced f source decls ts xs) {i : Nat} {y : Ident} (hy : f.idents[i]? = some y)
    (hmarked : marked xs y.span.start = true) : ∃ x ∈ xs, x.ident = i ∧ ∃ t, Traced f x y t := by
  obtain ⟨x, hx, hstart⟩ := marked_iff.mp hmarked
  obtain ⟨y', t, -, hxt, -⟩ := hxs x hx
  obtain rfl := h.startsDistinct _ _ y y' hy hxt.ident_eq (by rw [← hxt.span_eq, hstart])
  obtain rfl : y' = y := by simpa [hxt.ident_eq] using hy
  exact ⟨x, hx, rfl, t, hxt⟩

/-- The text of a renamed file has renamed tokens. -/
theorem AreTraced.exists_tokens (h : f.Origin path source decls ts es)
    (hxs : AreTraced f source decls ts xs) :
    ∃ (σ : Renaming) (new : List Char), tokens new = some (ts.map σ.token) ∧
      (∀ s, σ.marked s = marked xs s.start) ∧
      (∀ s, Surface.SpansIn ts s →
        (∀ t ∈ ts, s.start ≤ t.span.start → t.span.start < s.stop →
          marked xs t.span.start = false) →
        Text.slice new (σ.span s).start (σ.span s).stop = Text.slice source.toList s.start s.stop) ∧
      ∀ g, Renamed f (xs.map (·.ident)) g → g.render = String.ofList new := by
  have hkind : ∀ t ∈ ts, marked xs t.span.start = true → t.kind = .name := by
    intro t ht hmarked
    obtain ⟨_, -, _, hxt, -⟩ := hxs.exists_of_marked h ht hmarked
    exact hxt.token_kind
  obtain ⟨new, σ, htokens, hmarks, hslices, hedits⟩ := exists_respelling h.tokens_eq hkind
  refine ⟨σ, new, htokens, hmarks, hslices, fun g hg => ?_⟩
  obtain ⟨hspans, hnil⟩ := edits_marked h hg hxs.traced
  rw [File.render, hg.source_eq, h.source_eq, hedits g.edits hspans hnil]

theorem AreTraced.respelled (h : f.Origin path source decls ts es)
    (hxs : AreTraced f source decls ts xs)
    (hcalls : ∀ before t after, ts = before ++ t :: after → marked xs t.span.start = true →
      ¬ Surface.Grammar.CallsType (t :: after)) :
    ∃ σ new, f.Respelled source decls ts σ new ∧ (∀ s, σ.marked s = marked xs s.start) ∧
      ∀ g, Renamed f (xs.map (·.ident)) g → g.render = String.ofList new := by
  obtain ⟨σ, new, htokens, hmarks, hslices, hrender⟩ := hxs.exists_tokens h
  refine ⟨σ, new, ⟨htokens, ?_, ?_, ?_, ?_, ?_⟩, hmarks, hrender⟩
  · intro before t after hts hmarked
    rw [hmarks] at hmarked
    obtain ⟨_, -, _, hxt, -⟩ := hxs.exists_of_marked h (by simp [hts]) hmarked
    exact ⟨hxt.token_kind, hxt.token_plain, hcalls before t after hts hmarked⟩
  · intro s s' hstart
    rw [hmarks, hmarks, hstart]
  · intro t ht hmarked
    obtain ⟨_, -, y, hxt, w, hw, hname, hrole⟩ := hxs.exists_of_marked h ht (hmarks _ ▸ hmarked)
    exact ⟨w, hw, by rw [hname, hxt.token_span], hrole⟩
  · intro s hs hnone
    exact hslices s hs fun t ht hle hlt => hmarks _ ▸ hnone t ht hle hlt
  · intro i y hy hmarked
    obtain ⟨x, -, rfl, t, hxt⟩ := hxs.exists_of_ident h hy (hmarks _ ▸ hmarked)
    exact hxt.shared

/-- A text that reads as the renamed identifiers is a file like the fixed one. -/
theorem AreTraced.alike (h : f.Origin path source decls ts es)
    (hxs : AreTraced f source decls ts xs) {σ : Renaming}
    (hmarks : ∀ s, σ.marked s = marked xs s.start) {g f' : File}
    (hg : Renamed f (xs.map (·.ident)) g)
    (htrees : ∀ i, (f'.tree? i).map Outline.node = (f.tree? i).map Outline.node)
    (hidents : f'.idents.toList = f.idents.toList.map σ.ident) : g.Alike f' := by
  refine ⟨fun i => by rw [hg.tree?_eq, htrees], fun i => ?_⟩
  have hi : f'.idents[i]? = f.idents[i]?.map σ.ident := by
    rw [← Array.getElem?_toList, hidents, List.getElem?_map, Array.getElem?_toList]
  rw [hi, hg.idents_eq]
  cases hy : f.idents[i]? with
  | none => simp
  | some y =>
    by_cases hmem : i ∈ xs.map (·.ident)
    · obtain ⟨x, hx, rfl⟩ := List.mem_map.mp hmem
      obtain ⟨y', t, -, hxt, -⟩ := hxs x hx
      obtain rfl : y' = y := by simpa [hxt.ident_eq] using hy
      have hmarked : σ.marked y'.span = true := by
        rw [hmarks, marked_iff]
        exact ⟨x, hx, by rw [hxt.span_eq]⟩
      simp [hmem, Renaming.ident, hmarked, Ident.onLine, Renaming.span]
    · have hmarked : σ.marked y.span = false := by
        rw [hmarks, Bool.eq_false_iff]
        intro hmarked
        obtain ⟨x, hx, rfl, -⟩ := hxs.exists_of_ident h hy hmarked
        exact hmem (List.mem_map_of_mem hx)
      simp [hmem, Renaming.ident, hmarked, Ident.onLine, Renaming.span]

/-- Nothing is open in a file like the fixed one, on lines that are as they were where no read was
replaced. -/
theorem openFindings_of_alike {marker : String} {g f' : File} (halike : g.Alike f')
    (hopen : openFindings marker g = .ok [])
    (hlines : ∀ n, (Text.line? g.source.toList n).any (suppressed marker.toList) = true →
      Text.line? f'.source.toList n = Text.line? g.source.toList n) :
    openFindings marker f' = .ok [] := by
  obtain ⟨found, hfound, hnone⟩ := exists_of_openFindings hopen
  obtain ⟨ys, hys, hline⟩ := halike.exists_findings hfound
  have hempty : unsuppressed marker f' ys = [] := by
    refine List.filter_eq_nil_iff.mpr fun y hy => ?_
    obtain ⟨x, hx, hxy⟩ := hline y hy
    have hsuppressed : (Text.line? g.source.toList x.line).any (suppressed marker.toList) =
        true := by
      simpa using List.filter_eq_nil_iff.mp hnone x hx
    rw [← hxy, hlines x.line hsuppressed, hsuppressed]
    decide
  rw [openFindings, hys, ← hempty]
  rfl

/-- All that fixing replaces: what was open, and what came to light on the way. -/
theorem exists_replaced (h : f.Origin path source decls ts es) (hagree : f.NamesAgree)
    {marker : String} (hxs : openFindings marker f = .ok xs) {fixed : Fixed}
    (hfixed : fixAll marker f xs = .ok fixed) :
    ∃ all, xs ⊆ all ∧ AreTraced f source decls ts all ∧ Renamed f (all.map (·.ident)) fixed.file ∧
      xs.map (·.diagnostic f) ++ fixed.diagnostics = all.map (·.diagnostic f) ∧
      openFindings marker fixed.file = .ok [] ∧
      ∀ x ∈ all, (Text.line? f.source.toList x.line).any (suppressed marker.toList) = false := by
  obtain ⟨rounds, fixed', hpasses, hfixed', -, hdiagnostics⟩ | ⟨_, _, _, _, -, -, -, hfault⟩ :=
    exists_last_pass hagree hxs
  case inr => rw [hfixed] at hfault; cases hfault
  rw [hfixed] at hfixed'
  cases hfixed'
  obtain ⟨hrenamed, -, -, hfound⟩ := hpasses.renamed (.refl f) .nil h.startsDistinct hagree hxs
  obtain ⟨-, hopen, -⟩ := hpasses.invariant hagree hxs
  refine ⟨rounds.flatten, ?_, fun x hx => ?_, hrenamed, ?_, hopen, hpasses.not_suppressed hxs⟩
  · rw [hpasses.flatten]
    exact List.subset_append_left _ _
  · obtain ⟨ids, g, hg, hgagree, hraw⟩ := hfound x hx
    exact h.exists_traced hg hgagree hraw
  · rw [hdiagnostics, ← List.map_append, ← hpasses.flatten]

/-- The text of a fixed file reads as a file in which nothing is open. -/
theorem exists_clean (h : f.Origin path source decls ts es) (hagree : f.NamesAgree)
    {marker : String} (hxs : openFindings marker f = .ok xs) {fixed : Fixed}
    (hfixed : fixAll marker f xs = .ok fixed)
    (hcalls : ∀ d ∈ sorted (xs.map (·.diagnostic f) ++ fixed.diagnostics),
      ¬ CallsTypeAt source d.location.line d.location.column) :
    ∃ f', File.ofSource? path fixed.file.render = some f' ∧ openFindings marker f' = .ok [] := by
  obtain ⟨all, -, htraced, hrenamed, hdiagnostics, hopen, hunsuppressed⟩ :=
    exists_replaced h hagree hxs hfixed
  obtain ⟨-, -, hreplaces⟩ := replaces_of_fixAll h hagree hxs hfixed rfl
  rw [hdiagnostics] at hcalls hreplaces
  have hplain : ∀ before t after, ts = before ++ t :: after → marked all t.span.start = true →
      ¬ Surface.Grammar.CallsType (t :: after) := by
    intro before t after hts hmarked hcall
    obtain ⟨x, hx, y, hxt, -⟩ := htraced.exists_of_marked h (by simp [hts]) hmarked
    refine hcalls _ (List.mem_mergeSort.mpr (List.mem_map_of_mem hx))
      ⟨before, t, after, hts ▸ h.tokens_eq, ?_, ?_, hcall⟩
    · rw [location_diagnostic, hxt.span_eq, hxt.token_span]
    · rw [location_diagnostic, hxt.span_eq, hxt.token_span]
  obtain ⟨σ, new, hnew, hmarks, hrender⟩ := htraced.respelled h hplain
  obtain ⟨f', hf', htrees, hidents⟩ := h.exists_reread hnew
  rw [← hrender _ hrenamed] at hf'
  obtain ⟨-, -, -, hsource', -⟩ := File.exists_of_ofSource? hf'
  refine ⟨f', hf', openFindings_of_alike (htraced.alike h hmarks hrenamed htrees hidents) hopen ?_⟩
  intro n hn
  rw [hrenamed.source_eq, h.source_eq] at hn ⊢
  rw [hsource']
  refine hreplaces.line?_eq fun d hd hline => ?_
  obtain ⟨x, hx, rfl⟩ := List.mem_map.mp (List.mem_mergeSort.mp hd)
  obtain rfl : x.line = n := by rwa [location_diagnostic] at hline
  have hplainLine := hunsuppressed x hx
  rw [h.source_eq, hn] at hplainLine
  cases hplainLine

end

/-- A fixed text is another text than the source: what is replaced was not `nil`. -/
theorem ne_of_fixed {path source text : String} {settings : Settings} {r : FileReport} {n : Nat}
    (h : checkSource path source settings true = .ok r) (hfixed : r.fixed = some (text, n)) :
    text ≠ source := by
  obtain ⟨f, xs, fixed, hf, hxs, hne, hfix, -, rfl, -⟩ := exists_fixed_of_checkSource h hfixed
  obtain ⟨decls, ts, es, horigin⟩ := File.exists_origin hf
  obtain ⟨all, hsub, htraced, hrenamed, -⟩ :=
    exists_replaced horigin (File.namesAgree_of_ofSource? hf) hxs hfix
  obtain ⟨σ, new, htokens, hmarks, -, hrender⟩ := htraced.exists_tokens horigin
  obtain ⟨x, hx⟩ := List.exists_mem_of_ne_nil xs hne
  obtain ⟨y, t, ht, hxt, -⟩ := htraced x (hsub hx)
  intro heq
  -- With the same text the token of a replaced read would be `nil` already.
  have hnew : new = source.toList := by rw [← heq, hrender _ hrenamed, String.toList_ofList]
  rw [hnew, horigin.tokens_eq, Option.some.injEq] at htokens
  have hsame : t = σ.token t := List.map_inj_left.mp ((List.map_id ts).trans htokens) t ht
  have hmarked : σ.marked t.span = true := by
    rw [hmarks, marked_iff]
    exact ⟨x, hsub hx, by rw [hxt.span_eq, hxt.token_span]⟩
  have htext : t.text = nilName := by
    rw [hsame]
    simp [Renaming.token, hxt.token_kind, hmarked]
  have hnil := hxt.not_nil
  rw [Ident.isNil, ← hxt.token_text, htext] at hnil
  exact absurd hnil (by decide)

/-- A source in which nothing is open has nothing to report or to fix. -/
theorem checkSource_of_clean {path source : String} (settings : Settings) {f : File}
    (hf : File.ofSource? path source = some f)
    (hopen : openFindings settings.suppressMarker f = .ok []) (fixing : Bool) :
    ∃ r, checkSource path source settings fixing = .ok r ∧ r.diagnostics = [] ∧ r.fixed = none := by
  rw [checkSource]
  split
  · exact ⟨_, rfl, rfl, rfl⟩
  · simp [hf, checkFile, hopen, bind, Except.bind, pure, Except.pure, Except.mapError]

/-- A fixed text is well formed, nothing is open in it, and checking it gives no diagnostics and no
further fix, unless what was replaced is the function of a call that is given a type. -/
theorem fixed_text_is_clean {path source text : String} {settings : Settings} {r : FileReport}
    {n : Nat} (h : checkSource path source settings true = .ok r)
    (hfixed : r.fixed = some (text, n))
    (hcalls : ∀ d ∈ r.diagnostics, ¬ CallsTypeAt source d.location.line d.location.column) :
    (∃ f, File.ofSource? path text = some f ∧ openFindings settings.suppressMarker f = .ok []) ∧
      ∀ fixing, ∃ r', checkSource path text settings fixing = .ok r' ∧ r'.diagnostics = [] ∧
        r'.fixed = none := by
  obtain ⟨f, xs, fixed, hf, hxs, -, hfix, hds, rfl, -⟩ := exists_fixed_of_checkSource h hfixed
  obtain ⟨decls, ts, es, horigin⟩ := File.exists_origin hf
  rw [hds] at hcalls
  obtain ⟨f', hf', hopen⟩ :=
    exists_clean horigin (File.namesAgree_of_ofSource? hf) hxs hfix hcalls
  exact ⟨⟨f', hf', hopen⟩, checkSource_of_clean settings hf' hopen⟩

theorem not_callsTypeAt_sampleSource (line column : Nat) :
    ¬ CallsTypeAt sampleSource line column := by
  rintro ⟨before, t, after, htokens, -, -, hcalls⟩
  have hnames : ∀ t ∈ sampleTokens, t.text ∉ ["new", "make"] := by decide
  rw [tokens_sampleSource, Option.some.injEq] at htokens
  refine hnames t (by simp [htokens]) ?_
  unfold Surface.Grammar.CallsType at hcalls
  split at hcalls
  · next heq => exact (List.cons.inj heq).1 ▸ hcalls.1
  · exact hcalls.elim

/-- Both reads of the sample are replaced, and the text without them is clean. -/
theorem fixed_text_is_clean_sampleSource : ∃ r text,
    checkSource "p.go" sampleSource {} true = .ok r ∧ r.fixed = some (text, 2) ∧
      (∀ d ∈ r.diagnostics, ¬ CallsTypeAt sampleSource d.location.line d.location.column) ∧
      ∃ r', checkSource "p.go" text {} false = .ok r' ∧ r'.diagnostics = [] := by
  obtain ⟨r, hr, hfixed⟩ := checkSource_sampleSource
  have hcalls : ∀ d ∈ r.diagnostics, ¬ CallsTypeAt sampleSource d.location.line d.location.column :=
    fun d _ => not_callsTypeAt_sampleSource _ _
  obtain ⟨r', hr', hclean, -⟩ := (fixed_text_is_clean hr hfixed hcalls).2 false
  exact ⟨r, _, hr, hfixed, hcalls, r', hr', hclean⟩

/-- A source with a call behind two guards, of `new` or of `nil`. -/
def callSource (fixed : Bool) : String :=
  if fixed then "func f()\x7bif new!=nil\x7breturn\x7d\nif e!=nil\x7breturn\x7d\nnil(e)\x7d"
  else "func f()\x7bif new!=nil\x7breturn\x7d\nif e!=nil\x7breturn\x7d\nnew(e)\x7d"

/-- Its tokens. -/
def callTokens (callee : String) : List Token :=
  [⟨.keyword, "func", ⟨0, 4, 1, 1⟩, false⟩, ⟨.name, "f", ⟨5, 6, 1, 6⟩, false⟩,
   ⟨.operator, "(", ⟨6, 7, 1, 7⟩, false⟩, ⟨.operator, ")", ⟨7, 8, 1, 8⟩, false⟩,
   ⟨.operator, "\x7b", ⟨8, 9, 1, 9⟩, false⟩, ⟨.keyword, "if", ⟨9, 11, 1, 10⟩, false⟩,
   ⟨.name, "new", ⟨12, 15, 1, 13⟩, false⟩, ⟨.operator, "!=", ⟨15, 17, 1, 16⟩, false⟩,
   ⟨.name, "nil", ⟨17, 20, 1, 18⟩, false⟩, ⟨.operator, "\x7b", ⟨20, 21, 1, 21⟩, false⟩,
   ⟨.keyword, "return", ⟨21, 27, 1, 22⟩, false⟩, ⟨.operator, "\x7d", ⟨27, 28, 1, 28⟩, false⟩,
   ⟨.keyword, "if", ⟨29, 31, 2, 1⟩, true⟩, ⟨.name, "e", ⟨32, 33, 2, 4⟩, false⟩,
   ⟨.operator, "!=", ⟨33, 35, 2, 5⟩, false⟩, ⟨.name, "nil", ⟨35, 38, 2, 7⟩, false⟩,
   ⟨.operator, "\x7b", ⟨38, 39, 2, 10⟩, false⟩, ⟨.keyword, "return", ⟨39, 45, 2, 11⟩, false⟩,
   ⟨.operator, "\x7d", ⟨45, 46, 2, 17⟩, false⟩, ⟨.name, callee, ⟨47, 50, 3, 1⟩, true⟩,
   ⟨.operator, "(", ⟨50, 51, 3, 4⟩, false⟩, ⟨.name, "e", ⟨51, 52, 3, 5⟩, false⟩,
   ⟨.operator, ")", ⟨52, 53, 3, 6⟩, false⟩, ⟨.operator, "\x7d", ⟨53, 54, 3, 7⟩, false⟩]

theorem tokens_callSource : tokens (callSource false).toList = some (callTokens "new") ∧
    tokens (callSource true).toList = some (callTokens "nil") := by
  decide +kernel

/-- Its tree, from the call's function and arguments on. The guards take the first four
identifiers. -/
def callFile (fixed : Bool) (arg : Expr) (called : List Ident) : File where
  path := "p.go"
  source := callSource fixed
  decls := [.func ⟨0, 54, 1, 1⟩ "f" (some (.mk ⟨8, 54, 1, 9⟩ [
    .ifStmt ⟨9, 28, 1, 10⟩ none
      (.binary ⟨12, 20, 1, 13⟩ .ne (.ident ⟨12, 15, 1, 13⟩ 0) (.ident ⟨17, 20, 1, 18⟩ 1))
      (.mk ⟨20, 28, 1, 21⟩ [.returnStmt ⟨21, 27, 1, 22⟩ []]) none,
    .ifStmt ⟨29, 46, 2, 1⟩ none
      (.binary ⟨32, 38, 2, 4⟩ .ne (.ident ⟨32, 33, 2, 4⟩ 2) (.ident ⟨35, 38, 2, 7⟩ 3))
      (.mk ⟨38, 46, 2, 10⟩ [.returnStmt ⟨39, 45, 2, 11⟩ []]) none,
    .expr ⟨47, 53, 3, 1⟩ (.call ⟨47, 53, 3, 1⟩ (.ident ⟨47, 50, 3, 1⟩ 4) [arg])]))]
  idents := ⟨⟨"new", some 1, ⟨12, 15, 1, 13⟩⟩ :: ⟨nilName, none, ⟨17, 20, 1, 18⟩⟩ ::
    ⟨"e", some 2, ⟨32, 33, 2, 4⟩⟩ :: ⟨nilName, none, ⟨35, 38, 2, 7⟩⟩ :: called⟩
  bindings := #[⟨"f", .func, some ⟨5, 6, 1, 6⟩⟩, ⟨"new", .external, none⟩, ⟨"e", .external, none⟩]

/-- The argument is a type. -/
def newCallFile : File :=
  callFile false (.literal ⟨51, 52, 3, 5⟩ "e") [⟨"new", some 1, ⟨47, 50, 3, 1⟩⟩]

/-- The function is replaced, and the argument still is a type. -/
def fixedCallFile : File :=
  callFile false (.literal ⟨51, 52, 3, 5⟩ "e") [⟨nilName, none, ⟨47, 50, 3, 1⟩⟩]

/-- The argument is a value. -/
def nilCallFile : File :=
  callFile true (.ident ⟨51, 52, 3, 5⟩ 5) [⟨nilName, none, ⟨47, 50, 3, 1⟩⟩,
    ⟨"e", some 2, ⟨51, 52, 3, 5⟩⟩]

theorem ofSource?_callSource : File.ofSource? "p.go" (callSource false) = some newCallFile ∧
    File.ofSource? "p.go" (callSource true) = some nilCallFile := by
  rw [File.ofSource?, File.ofSource?, Surface.Decl.ofSource?, Surface.Decl.ofSource?,
    tokens_callSource.1, tokens_callSource.2]
  constructor <;> cbv

/-- The function is found, and once it is replaced nothing is. -/
theorem fixAll_newCallFile :
    ∃ xs ds, openFindings "afternil:ignore" newCallFile = .ok xs ∧ xs ≠ [] ∧
    fixAll "afternil:ignore" newCallFile xs = .ok ⟨fixedCallFile, 1, ds⟩ := by
  have hopen : openFindings "afternil:ignore" newCallFile =
      .ok [⟨"p.go", 4, "new", 1, ⟨47, 50, 3, 1⟩, ⟨12, 20, 1, 13⟩⟩] := by cbv
  have hfix : fix newCallFile [⟨"p.go", 4, "new", 1, ⟨47, 50, 3, 1⟩, ⟨12, 20, 1, 13⟩⟩] =
      (fixedCallFile, 1) := by cbv
  have hclosed : openFindings "afternil:ignore" fixedCallFile = .ok [] := by cbv
  have hlast : fixAll "afternil:ignore" fixedCallFile [] = .ok ⟨fixedCallFile, 0, []⟩ := by
    rw [fixAll]; rfl
  exact ⟨_, _, hopen, List.cons_ne_nil _ _, fixAll_of_pass hfix hclosed hlast⟩

/-- A call of `new` is fixed to a call whose argument is read as a value, and there it is found. -/
theorem fixed_text_not_clean_callSource : ∃ r text n,
    checkSource "p.go" (callSource false) {} true = .ok r ∧ r.fixed = some (text, n) ∧
      ∃ r', checkSource "p.go" text {} false = .ok r' ∧ r'.diagnostics ≠ [] := by
  obtain ⟨xs, ds, hxs, hne, hfixed⟩ := fixAll_newCallFile
  have hgenerated : isGenerated (callSource false) = false ∧
      isGenerated (callSource true) = false := by
    decide +kernel
  have hrender : fixedCallFile.render = callSource true := by cbv
  have hopen : openFindings "afternil:ignore" nilCallFile =
      .ok [⟨"p.go", 5, "e", 2, ⟨51, 52, 3, 5⟩, ⟨32, 38, 2, 4⟩⟩] := by cbv
  obtain ⟨r, hr, htext⟩ := checkSource_of_fixAll {} hgenerated.1 ofSource?_callSource.1 hxs
    hne hfixed
  refine ⟨r, callSource true, 1, hr, by rw [htext, hrender], ?_⟩
  rw [checkSource, hgenerated.2, Bool.and_false, if_neg (by simp), ofSource?_callSource.2]
  simp only [checkFile, hopen, bind, Except.bind, Bool.not_false, Bool.true_or, if_true, pure,
    Except.pure, Except.mapError]
  exact ⟨_, rfl, List.cons_ne_nil _ _⟩

end NilGuard
