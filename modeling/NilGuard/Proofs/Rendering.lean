import NilGuard.Proofs.Coherence
import NilGuard.Proofs.Rewriting

/-!
The text of a file after any renamings. The edits of a file are found by comparing names with the
source, put in order and applied one behind the other. For a file that was read from a source they
are all its identifiers in order, less those that the source spells already, and those would be
written as they are. So the text is the source with the span of every identifier written as its
name.
-/

namespace NilGuard

open Go

/-! ### Cutting a text -/

namespace Text

theorem exists_of_slice {cs word : List Char} {start stop : Nat}
    (h : slice cs start stop = some word) :
    ∃ before after, cs = before ++ (word ++ after) ∧ start = byteLength before ∧
      stop = start + byteLength word := by
  rw [slice] at h
  split at h
  · next hle =>
    simp only [dropBytes, takeBytes, Option.bind_eq_some_iff, Option.map_eq_some_iff, Prod.exists,
      exists_and_right, exists_eq_right] at h
    obtain ⟨rest, ⟨before, hbefore⟩, after, hafter⟩ := h
    obtain ⟨rfl, rfl⟩ := append_of_splitAtByte hbefore
    obtain ⟨rfl, hlength⟩ := append_of_splitAtByte hafter
    exact ⟨before, after, rfl, rfl, by omega⟩
  · cases h

end Text

namespace Go

/-! ### Writing identifiers -/

/-- The second text is the first one with the span of each identifier written as its name. The texts
begin at the given offset, and the identifiers are in the order of the text. -/
inductive Written : Nat → List Char → List Ident → List Char → Prop where
  | nil (n : Nat) (cs : List Char) : Written n cs [] cs
  | cons {n : Nat} (kept word rest : List Char) {x : Ident} {xs : List Ident} {out : List Char}
      (hstart : x.span.start = n + Text.byteLength kept)
      (hstop : x.span.stop = x.span.start + Text.byteLength word)
      (h : Written x.span.stop rest xs out) :
      Written n (kept ++ (word ++ rest)) (x :: xs) (kept ++ (x.name.toList ++ out))

/-- There is only one text to write. -/
theorem Written.unique {n : Nat} {cs out out' : List Char} {xs : List Ident}
    (h : Written n cs xs out) (h' : Written n cs xs out') : out = out' := by
  induction h generalizing out' with
  | nil n cs => cases h'; rfl
  | @cons n kept word rest x xs out hstart hstop h ih =>
    generalize hcs : kept ++ (word ++ rest) = cs at h'
    cases h' with
    | cons kept' word' rest' hstart' hstop' h' =>
      obtain ⟨rfl, hbehind⟩ := Text.append_inj_of_byteLength hcs (by omega)
      obtain ⟨rfl, rfl⟩ := Text.append_inj_of_byteLength hbehind (by omega)
      rw [ih h']

/-- A span that can be cut out of a text. -/
def Span.Within (s : Span) (source : List Char) : Prop :=
  ∃ before word after, source = before ++ (word ++ after) ∧ s.start = Text.byteLength before ∧
    s.stop = s.start + Text.byteLength word

namespace File

/-- What stands in front of all edits is kept. -/
theorem applyEdits_keep {source before mid rest : List Char}
    (hsource : source = before ++ (mid ++ rest)) {xs : List Ident}
    (hxs : ∀ x ∈ xs, x.span.Within source)
    (hbehind : ∀ x ∈ xs, Text.byteLength (before ++ mid) ≤ x.span.start) :
    applyEdits source (Text.byteLength before) xs =
      mid ++ applyEdits source (Text.byteLength (before ++ mid)) xs := by
  have hsource' : source = (before ++ mid) ++ rest := by simp [hsource]
  cases xs with
  | nil =>
    conv_lhs => rw [hsource, applyEdits, Text.dropBytes, Text.splitAtByte_append]
    conv_rhs => rw [hsource', applyEdits, Text.dropBytes, Text.splitAtByte_append]
    rfl
  | cons x xs =>
    obtain ⟨ahead, word, after, hx, hstart, hstop⟩ := hxs x List.mem_cons_self
    have hle := hbehind x List.mem_cons_self
    obtain ⟨gap, rfl, rfl⟩ := Text.exists_between (hsource'.symm.trans hx) (by omega)
    have hlength := congrArg Text.byteLength hx
    simp only [Text.byteLength_append] at hlength hstart
    have hslice : Text.slice source (Text.byteLength before) x.span.start = some (mid ++ gap) := by
      rw [hsource, ← List.append_assoc mid, hstart, Nat.add_assoc, ← Text.byteLength_append,
        slice_append]
    have hslice' : Text.slice source (Text.byteLength (before ++ mid)) x.span.start = some gap := by
      rw [hsource', hstart, ← Text.byteLength_append, slice_append]
    rw [applyEdits, applyEdits, if_neg, if_neg, hslice, hslice']
    · simp
    all_goals
      simp only [Bool.or_eq_true, decide_eq_true_eq, Text.byteLength_append]
      omega

/-- Identifiers one behind the other are written where they stand, also those that are left out of
the edits because the text spells them. -/
theorem written_applyEdits {source before cs : List Char} (hsource : source = before ++ cs)
    {xs : List Ident} (hxs : ∀ x ∈ xs, x.span.Within source)
    (hbehind : ∀ x ∈ xs, Text.byteLength before ≤ x.span.start)
    (horder : xs.Pairwise fun x y => x.span.stop ≤ y.span.start) :
    Written (Text.byteLength before) cs xs
      (applyEdits source (Text.byteLength before) (xs.filter (!inSource source ·))) := by
  induction xs generalizing before cs with
  | nil =>
    rw [List.filter_nil, applyEdits, hsource, Text.dropBytes, Text.splitAtByte_append]
    exact .nil _ cs
  | cons x xs ih =>
    obtain ⟨hx, hxs⟩ := List.forall_mem_cons.mp hxs
    obtain ⟨hfirst, horder⟩ := List.pairwise_cons.mp horder
    obtain ⟨ahead, word, after, hcut, hstart, hstop⟩ := hx
    have hle := hbehind x List.mem_cons_self
    obtain ⟨kept, rfl, rfl⟩ := Text.exists_between (hsource.symm.trans hcut) (by omega)
    have hend : x.span.stop = Text.byteLength (before ++ (kept ++ word)) := by
      simp only [Text.byteLength_append] at hstart ⊢
      omega
    have hcut' : source = (before ++ (kept ++ word)) ++ after := by simp [hsource]
    have hrest := ih hcut' hxs (fun y hy => hend ▸ hfirst y hy) horder
    rw [← hend] at hrest
    have hwritten := Written.cons (n := Text.byteLength before) kept word after (x := x)
      (by simpa using hstart) hstop hrest
    have hslice : Text.slice source x.span.start x.span.stop = some word := by
      rw [hcut, hstop, hstart, slice_append]
    cases hin : inSource source x with
    | true =>
      -- no edit: the name is the word itself
      have hname : word = x.name.toList := by simpa [inSource, hslice] using hin
      have hmem : ∀ y ∈ xs.filter (!inSource source ·), y ∈ xs := fun y => List.mem_of_mem_filter
      have hkeep := applyEdits_keep (hcut'.trans (List.append_assoc before (kept ++ word) after))
        (fun y hy => hxs y (hmem y hy)) (fun y hy => hend ▸ hfirst y (hmem y hy))
      rw [List.filter_cons_of_neg (by simp [hin]), hkeep, ← hend, List.append_assoc]
      rwa [← hname] at hwritten
    | false =>
      have hgap : Text.slice source (Text.byteLength before) x.span.start = some kept := by
        rw [hsource, hstart, Text.byteLength_append, slice_append]
      have hlength := congrArg Text.byteLength hcut
      simp only [Text.byteLength_append] at hlength hstart
      rw [List.filter_cons_of_pos (by simp [hin]), applyEdits, if_neg, hgap, Option.getD_some,
        List.append_assoc]
      · exact hwritten
      · simp only [Bool.or_eq_true, decide_eq_true_eq]
        omega

/-! ### Edits in order -/

/-- Of identifiers that begin at different offsets none is left out of the edits. -/
theorem edits_eq {f : File}
    (h : (sortedBy (·.span.start) f.idents.toList).Pairwise
      fun x y => x.span.start < y.span.start) :
    f.edits = (sortedBy (·.span.start) f.idents.toList).filter (!inSource f.source.toList ·) := by
  have hleft : f.edits.Pairwise fun x y => x.span.start < y.span.start :=
    firsts_sort_pairwise_lt fun _ _ _ _ => Iff.rfl
  have hright := h.sublist (List.filter_sublist (p := (!inSource f.source.toList ·)))
  have hne : ∀ {x y : Ident}, x.span.start < y.span.start → x ≠ y := by
    rintro x _ hlt rfl
    exact Nat.lt_irrefl _ hlt
  have hperm := (List.perm_ext_iff_of_nodup (hleft.imp hne) (hright.imp hne)).mpr fun x => by
    rw [List.mem_filter, List.mem_mergeSort]
    constructor
    · intro hx
      obtain ⟨hmem, hin⟩ := mem_edits hx
      exact ⟨hmem, by rw [hin]; rfl⟩
    · rintro ⟨hmem, hin⟩
      have hedit : x ∈ f.idents.toList.filter (!inSource f.source.toList ·) :=
        List.mem_filter.mpr ⟨hmem, hin⟩
      obtain ⟨y, hy, hstart⟩ := exists_mem_firsts (fun x : Ident => x.span.start)
        (List.mem_mergeSort.mpr hedit)
      have hymem : y ∈ f.idents.toList := (mem_edits hy).1
      rcases rel_or_eq h (List.mem_mergeSort.mpr hymem) (List.mem_mergeSort.mpr hmem)
        with rfl | hlt | hlt
      · exact hy
      · exact absurd hstart (Nat.ne_of_lt hlt)
      · exact absurd hstart.symm (Nat.ne_of_lt hlt)
  exact hperm.eq_of_pairwise (fun x y _ _ hxy hyx => absurd hyx (Nat.lt_asymm hxy)) hleft hright

/-- The identifiers of a file can be cut out of its source, and do not overlap. -/
structure Cut (f : File) : Prop where
  within : ∀ x ∈ f.idents, x.span.Within f.source.toList
  nonempty : ∀ x ∈ f.idents, x.span.start < x.span.stop
  apart : f.idents.toList.Pairwise fun x y => x.span.Apart y.span

theorem Cut.sorted {f : File} (h : f.Cut) :
    (sortedBy (·.span.start) f.idents.toList).Pairwise fun x y => x.span.stop ≤ y.span.start := by
  have hapart : (sortedBy (·.span.start) f.idents.toList).Pairwise fun x y => x.span.Apart y.span :=
    ((List.mergeSort_perm _ _).pairwise_iff fun hxy => Or.symm hxy).mpr h.apart
  refine ((sortedBy_pairwise _ _).and hapart).imp_of_mem fun {x y} hx hy hxy => ?_
  have hpos := h.nonempty x (Array.mem_toList_iff.mp (List.mem_mergeSort.mp hx))
  have hpos' := h.nonempty y (Array.mem_toList_iff.mp (List.mem_mergeSort.mp hy))
  rcases hxy.2 with hstop | hstop
  · exact hstop
  · have := hxy.1
    omega

/-- The text of such a file has every identifier written as its name. -/
theorem Cut.written {f : File} (h : f.Cut) : Written 0 f.source.toList
    (sortedBy (·.span.start) f.idents.toList) f.render.toList := by
  have hmem : ∀ x ∈ sortedBy (·.span.start) f.idents.toList, x ∈ f.idents :=
    fun x hx => Array.mem_toList_iff.mp (List.mem_mergeSort.mp hx)
  have hlt : (sortedBy (·.span.start) f.idents.toList).Pairwise
      fun x y => x.span.start < y.span.start :=
    h.sorted.imp_of_mem fun {x y} hx _ hxy => Nat.lt_of_lt_of_le (h.nonempty x (hmem x hx)) hxy
  rw [render, edits_eq hlt, String.toList_ofList]
  exact written_applyEdits (List.nil_append _).symm (fun x hx => h.within x (hmem x hx))
    (fun x _ => Nat.zero_le _) h.sorted

/-! ### Renamings -/

/-- An identifier with a new name, if there is one. -/
def renamed (x : Ident) : Option String → Ident
  | none => x
  | some text => { x with name := text, binding := none }

/-- A file after some renamings, one behind the other. -/
def renameAll (f : File) (calls : List (IdentId × String)) : File :=
  calls.foldl (fun g call => g.rename call.1 call.2) f

theorem renameAll_concat (f : File) (calls : List (IdentId × String)) (call : IdentId × String) :
    f.renameAll (calls ++ [call]) = (f.renameAll calls).rename call.1 call.2 := by
  simp [renameAll]

theorem source_renameAll (f : File) (calls : List (IdentId × String)) :
    (f.renameAll calls).source = f.source := by
  induction calls using List.reverseRecOn with
  | nil => rfl
  | append_singleton calls call ih => rw [renameAll_concat, ← ih]; rfl

/-- The last renaming of an identifier is the one that counts. -/
theorem getElem?_renameAll (f : File) (calls : List (IdentId × String)) (i : IdentId) :
    (f.renameAll calls).idents[i]? = f.idents[i]?.map (renamed · (calls.reverse.lookup i)) := by
  induction calls using List.reverseRecOn with
  | nil => simp [renameAll, renamed]
  | append_singleton calls call ih =>
    rw [renameAll_concat, getElem?_rename, ih, List.reverse_append, List.reverse_singleton,
      List.singleton_append, List.lookup_cons]
    by_cases hi : call.1 = i
    · subst hi
      rw [if_pos rfl, beq_self_eq_true, Option.map_map]
      congr 1
      funext x
      cases calls.reverse.lookup call.1 <;> rfl
    · rw [if_neg hi, beq_eq_false_iff_ne.mpr (Ne.symm hi)]

@[simp] theorem span_renamed (x : Ident) (text : Option String) :
    (renamed x text).span = x.span := by
  cases text <;> rfl

theorem map_span_renameAll (f : File) (calls : List (IdentId × String)) :
    (f.renameAll calls).idents.toList.map (·.span) = f.idents.toList.map (·.span) := by
  refine List.ext_getElem? fun i => ?_
  rw [List.getElem?_map, List.getElem?_map, Array.getElem?_toList, Array.getElem?_toList,
    getElem?_renameAll, Option.map_map]
  congr 1
  funext x
  exact span_renamed x _

theorem Cut.renameAll {f : File} (h : f.Cut) (calls : List (IdentId × String)) :
    (f.renameAll calls).Cut := by
  have hspan : ∀ x ∈ (f.renameAll calls).idents, ∃ y ∈ f.idents, y.span = x.span := by
    intro x hx
    have hmem := List.mem_map_of_mem (f := (·.span)) (Array.mem_toList_iff.mpr hx)
    rw [map_span_renameAll] at hmem
    obtain ⟨y, hy, hspan⟩ := List.mem_map.mp hmem
    exact ⟨y, Array.mem_toList_iff.mp hy, hspan⟩
  constructor
  · intro x hx
    obtain ⟨y, hy, hyx⟩ := hspan x hx
    rw [← hyx, source_renameAll]
    exact h.within y hy
  · intro x hx
    obtain ⟨y, hy, hyx⟩ := hspan x hx
    rw [← hyx]
    exact h.nonempty y hy
  · have hapart : (f.idents.toList.map (·.span)).Pairwise Span.Apart :=
      List.pairwise_map.mpr h.apart
    rw [← map_span_renameAll f calls] at hapart
    exact List.pairwise_map.mp hapart

theorem Origin.cut {f : File} {path source : String} {decls : List Surface.Decl} {ts : List Token}
    {es : List Event} (h : f.Origin path source decls ts es) : f.Cut := by
  refine ⟨fun x hx => ?_, fun x hx => ?_, h.pairwise_apart⟩
  · have hin := h.inSource hx
    rw [File.inSource, beq_iff_eq] at hin
    obtain ⟨before, after, hsource, hstart, hstop⟩ := Text.exists_of_slice hin
    exact ⟨before, _, after, h.source_eq ▸ hsource, hstart, hstop⟩
  · obtain ⟨i, hi⟩ := Array.mem_iff_getElem?.mp hx
    obtain ⟨e, w, -, -, hname, hw⟩ := h.exists_word hi
    have hspan := h.covers.spansIn hw
    rw [hname] at hspan
    exact h.laid.start_lt_stop_of_spansIn hspan

/-- A file that was only read has no edits. -/
theorem Origin.render_eq {f : File} {path source : String} {decls : List Surface.Decl}
    {ts : List Token} {es : List Event} (h : f.Origin path source decls ts es) :
    f.render = source := by
  have hedits : f.edits = [] := by
    refine List.eq_nil_iff_forall_not_mem.mpr fun x hx => ?_
    obtain ⟨hmem, hin⟩ := mem_edits hx
    rw [h.source_eq, h.inSource (Array.mem_toList_iff.mp hmem)] at hin
    cases hin
  rw [render, hedits, h.source_eq, applyEdits, Text.dropBytes, Text.splitAtByte]
  simp

end File

end Go

/-- However identifiers are renamed, each is its last name or its first one, and the text of the
file is the source with the span of every identifier written as that name. So a file that was only
read has the source as its text. -/
theorem render_writes_names {path source : String} {f : File}
    (hf : File.ofSource? path source = some f) (calls : List (IdentId × String)) :
    (f.renameAll calls).source = source ∧
      (∀ i : Nat, (f.renameAll calls).idents[i]? =
        f.idents[i]?.map (File.renamed · (calls.reverse.lookup i))) ∧
      (∀ out : List Char, Written 0 source.toList
        (sortedBy (·.span.start) (f.renameAll calls).idents.toList) out ↔
          out = (f.renameAll calls).render.toList) ∧
      f.render = source := by
  obtain ⟨decls, ts, es, h⟩ := File.exists_origin hf
  have hsource : (f.renameAll calls).source = source := (f.source_renameAll calls).trans h.source_eq
  have hwritten := (h.cut.renameAll calls).written
  rw [hsource] at hwritten
  refine ⟨hsource, f.getElem?_renameAll calls, fun out => ⟨?_, ?_⟩, h.render_eq⟩
  · exact fun hout => hout.unique hwritten
  · rintro rfl
    exact hwritten

/-- One identifier is renamed twice, one to nothing and one back to what it was. -/
theorem render_writes_names_sampleFile :
    let calls := [(2, "longer"), (0, "x"), (3, ""), (2, "y"), (0, "e")]
    File.ofSource? "p.go" sampleSource = some (sampleFile false false) ∧
      ∀ out, Written 0 sampleSource.toList
        (sortedBy (·.span.start) ((sampleFile false false).renameAll calls).idents.toList) out ↔
          out = "func f()\x7bif e!=nil\x7breturn\x7d\ny()\n()\x7d".toList := by
  intro calls
  have hrender : ((sampleFile false false).renameAll calls).render =
      "func f()\x7bif e!=nil\x7breturn\x7d\ny()\n()\x7d" := by cbv
  rw [← hrender]
  exact ⟨ofSource?_sampleSource, (render_writes_names ofSource?_sampleSource _).2.2.1⟩

end NilGuard
