import NilGuard.Proofs.Fixing
import NilGuard.Proofs.Idents

/-!
Identifiers, text, bindings and tree of a file fit together. An identifier is spelled in the source
at its span, its line and column count what stands in front of it, and no two identifiers overlap.
It points to a binding of its name unless it is blank or the nil literal. The tree has each
identifier at most once.
-/

namespace NilGuard.Go

/-! ### Unbound identifiers -/

/-- Whether an event takes the nil literal. -/
def Event.isLiteral : Event → Bool
  | .value name | .target name => name.text == nilName
  | _ => false

theorem Event.isLiteral_of_isOperand {e : Event} {w : Surface.Word} (h : e.word? = some w)
    (he : e.isOperand = true) (hw : w.name.text = nilName) : e.isLiteral = true := by
  cases e with
  | value name | target name => cases h; simpa [isLiteral] using hw
  | declare kind name => cases h; exact absurd hw (by simpa [isOperand] using he)
  | enter | leave | use => cases he

theorem Event.text_of_isLiteral {e : Event} {w : Surface.Word} (h : e.word? = some w)
    (he : e.isLiteral = true) : w.name.text = nilName := by
  cases e with
  | value name | target name => cases h; simpa [isLiteral] using he
  | _ => cases he

/-- Only blank names and the nil literal are bound to nothing. -/
theorem Resolver.binding_eq_none_iff {r : Resolver} {e : Event} {w : Surface.Word} {x : Ident}
    (h : e.word? = some w) (hx : (r.step e).idents = r.idents.push x) :
    x.binding = none ↔ w.name.text = blankName ∨ e.isLiteral = true := by
  have hdeclare : ∀ kind, (declareIdent kind w.name r).2.idents = r.idents.push x →
      (x.binding = none ↔ w.name.text = blankName) := by
    intro kind hx
    rw [declareIdent_eq] at hx
    split at hx
    · next hblank => simp [← (Array.push_eq_push.mp hx).1, hblank]
    · next hblank => simp [← (Array.push_eq_push.mp hx).1, hblank]
  have huse : (useIdent w.name r).2.idents = r.idents.push x →
      (x.binding = none ↔ w.name.text = blankName) := by
    intro hx
    rw [useIdent_eq] at hx
    split at hx
    · next hblank => simp [← (Array.push_eq_push.mp hx).1, hblank]
    · next hblank => simp [← (Array.push_eq_push.mp hx).1, hblank]
  have hnew : ∀ b, (newIdent w.name b r).2.idents = r.idents.push x → x.binding = b := by
    intro b hx
    rw [newIdent_eq] at hx
    simp [← (Array.push_eq_push.mp hx).1]
  cases e with
  | enter | leave => cases h
  | value name =>
    cases h
    simp only [step, exprIdent_eq] at hx
    split at hx
    · next hnil => simp [hnew none hx, Event.isLiteral, hnil]
    · next hnil => simp [huse hx, Event.isLiteral, hnil]
  | target name =>
    cases h
    simp only [step, defineIdent_eq] at hx
    split at hx
    · next hnil => simp [hnew none hx, Event.isLiteral, hnil]
    · next hnil =>
      split at hx
      · rw [hnew _ hx]
        split <;> simp_all [Event.isLiteral]
      · simp [hdeclare .var hx, Event.isLiteral, hnil]
  | declare kind name => cases h; simp [hdeclare kind hx, Event.isLiteral]
  | use name => cases h; simp [huse hx, Event.isLiteral]

/-! ### Files -/

/-- Where a span begins in a text, with its line and column counted from the text. -/
def Span.Placed (s : Span) (source : List Char) : Prop :=
  ∃ before, Text.takeBytes source s.start = some before ∧ s.line = 1 + before.count '\n' ∧
    s.column = 1 + Text.byteLength (lastLine before)

/-- One span ends before the other begins. -/
def Span.Apart (s t : Span) : Prop :=
  s.stop ≤ t.start ∨ t.stop ≤ s.start

namespace File

/-- The identifiers of a file fit its text, its bindings and its tree. -/
structure Coherent (f : File) : Prop where
  spelled : ∀ x ∈ f.idents, Text.slice f.source.toList x.span.start x.span.stop = some x.name.toList
  placed : ∀ x ∈ f.idents, x.span.Placed f.source.toList
  apart : ∀ (i j : Nat) (x y : Ident), i ≠ j → f.idents[i]? = some x → f.idents[j]? = some y →
    x.span.Apart y.span
  bound : ∀ x ∈ f.idents, ∀ b, x.binding = some b → ∃ y, f.bindings[b]? = some y ∧ y.name = x.name
  unbound : ∀ x ∈ f.idents, x.binding = none → x.name = blankName ∨ x.name = nilName
  blank : ∀ x ∈ f.idents, x.name = blankName → x.binding = none
  /-- In an expression `nil` is the literal. -/
  literal : ∀ root ∈ f.roots, ∀ span i, Node.expr (.ident span i) ∈ Descent.full.walk root →
    ∀ x, f.idents[i]? = some x → x.name = nilName → x.binding = none
  inRange : ∀ i : Nat, i ∈ f.roots.flatMap Node.ids → i < f.idents.size
  once : (f.roots.flatMap Node.ids).Nodup

namespace Origin

variable {f : File} {path source : String} {decls : List Surface.Decl} {ts : List Token}
  {es : List Event}

theorem placed (h : f.Origin path source decls ts es) {x : Ident} (hx : x ∈ f.idents) :
    x.span.Placed source.toList := by
  obtain ⟨i, hi⟩ := Array.mem_iff_getElem?.mp hx
  obtain ⟨e, w, -, -, hname, hw⟩ := h.exists_word hi
  obtain ⟨t, ht, last, hspan⟩ := h.covers.exists_first hw
  obtain ⟨before, word, after, hsource, -, htspan, -⟩ := h.laid.exists_of_mem ht
  have hspan : x.span = (({} : Position).after before |>.spanOf word).upTo last := by
    rw [← htspan, ← hspan, hname]
  rw [hspan, Position.after_eq]
  refine ⟨before, ?_, rfl, rfl⟩
  simp [hsource, Span.upTo, Position.spanOf, Text.takeBytes, Text.splitAtByte_append]

/-- Identifiers have words of their own, and these do not overlap. -/
theorem pairwise_apart (h : f.Origin path source decls ts es) :
    f.idents.toList.Pairwise fun x y => x.span.Apart y.span := by
  have hts := h.covers.pairwise_stop h.laid.pairwise_stop
  have hwords : (Event.words es).Pairwise fun w w' => w.name.span.Apart w'.name.span := by
    refine (h.words_perm.pairwise_iff fun {w w'} h => h.symm).mpr ?_
    exact (hts.imp fun h => .inl h).sublist List.filter_sublist
  have hnames : ((Event.words es).map (·.name)).Pairwise fun n n' : Name => n.span.Apart n'.span :=
    List.pairwise_map.mpr hwords
  rw [← h.map_idents, List.pairwise_map] at hnames
  exact hnames

theorem binding_eq_none_iff (h : f.Origin path source decls ts es) {i : Nat} {x : Ident}
    (hx : f.idents[i]? = some x) : ∃ e, (Act.made (Surface.sourceActs source decls))[i]? = some e ∧
      (x.binding = none ↔ x.name = blankName ∨ e.isLiteral = true) ∧
      (e.isLiteral = true → x.name = nilName) ∧
      (e.isOperand = true → x.name = nilName → e.isLiteral = true) := by
  rw [h.idents_eq] at hx
  obtain ⟨before, e, after, -, he, -, w, binding, scopes, hword, rfl, -, hstep⟩ :=
    Resolver.exists_step (Nat.zero_le i) hx
  exact ⟨e, by rw [← h.made_eq]; exact he,
    Resolver.binding_eq_none_iff hword (congrArg Resolver.idents hstep),
    Event.text_of_isLiteral hword, Event.isLiteral_of_isOperand hword⟩

theorem unbound (h : f.Origin path source decls ts es) {x : Ident} (hx : x ∈ f.idents)
    (hnone : x.binding = none) : x.name = blankName ∨ x.name = nilName := by
  obtain ⟨i, hi⟩ := Array.mem_iff_getElem?.mp hx
  obtain ⟨e, -, hiff, hliteral, -⟩ := h.binding_eq_none_iff hi
  exact (hiff.mp hnone).imp_right hliteral

/-- An identifier that is an expression was made for one, where `nil` is the literal. -/
theorem literal (h : f.Origin path source decls ts es) {root : Node} (hroot : root ∈ f.roots)
    {span : Span} {i : Nat} (hi : Node.expr (.ident span i) ∈ Descent.full.walk root) {x : Ident}
    (hx : f.idents[i]? = some x) (hnil : x.name = nilName) : x.binding = none := by
  obtain ⟨e, he, hiff, -, hoperand⟩ := h.binding_eq_none_iff hx
  obtain ⟨e', he', hop⟩ := h.rooted.operands root hroot span i hi
  rw [Nat.sub_zero, he, Option.some.injEq] at he'
  exact hiff.mpr (.inr (hoperand (he' ▸ hop) hnil))

theorem id_lt (h : f.Origin path source decls ts es) {root : Node} (hroot : root ∈ f.roots)
    {i : Nat} (hi : i ∈ root.ids) : i < f.idents.size := by
  have hrange := h.rooted.mem hroot hi
  have hsize : f.idents.size = (Act.made (Surface.sourceActs source decls)).length := by
    rw [h.idents_eq, h.events_eq, Resolver.size_acts]
    simp [Resolver.start]
  omega

end Origin

/-- A file that is read from a source is coherent. -/
theorem coherent_of_source {path source : String} {f : File}
    (h : File.ofSource? path source = some f) :
    f.source = source ∧ f.Coherent := by
  obtain ⟨decls, ts, es, horigin⟩ := exists_origin h
  have hsound := (Resolver.start_sound source.toList decls).steps es
  refine ⟨horigin.source_eq, ?_⟩
  constructor
  case spelled =>
    intro x hx
    obtain ⟨i, hi⟩ := Array.mem_iff_getElem?.mp hx
    obtain ⟨e, w, -, -, hname, hw⟩ := horigin.exists_word hi
    have hslice := horigin.covers.slice_eq horigin.laid hw
    rwa [hname, ← horigin.source_eq] at hslice
  case placed => exact fun x hx => horigin.source_eq ▸ horigin.placed hx
  case apart =>
    intro i j x y hne hx hy
    have hpairwise := List.pairwise_iff_getElem.mp horigin.pairwise_apart
    rw [← Array.getElem?_toList, List.getElem?_eq_some_iff] at hx hy
    obtain ⟨hi, rfl⟩ := hx
    obtain ⟨hj, rfl⟩ := hy
    rcases Nat.lt_or_gt_of_ne hne with hlt | hlt
    · exact hpairwise i j hi hj hlt
    · exact (hpairwise j i hj hi hlt).symm
  case bound =>
    intro x hx b hb
    rw [horigin.idents_eq] at hx
    rw [horigin.bindings_eq]
    exact hsound.idents x hx b hb
  case unbound => exact fun x hx => horigin.unbound hx
  case blank =>
    intro x hx hblank
    obtain ⟨i, hi⟩ := Array.mem_iff_getElem?.mp hx
    obtain ⟨e, -, hiff, -⟩ := horigin.binding_eq_none_iff hi
    exact hiff.mpr (.inl hblank)
  case literal => exact fun root hroot span i hi x hx => horigin.literal hroot hi hx
  case inRange =>
    intro i hi
    obtain ⟨root, hroot, hi⟩ := List.mem_flatMap.mp hi
    exact horigin.id_lt hroot hi
  case once => exact horigin.rooted.nodup

theorem coherent_of_source_sampleSource :
    File.ofSource? "p.go" sampleSource = some (sampleFile false false) ∧
      (sampleFile false false).idents.size = 4 ∧ (sampleFile false false).Coherent :=
  ⟨ofSource?_sampleSource, rfl, (coherent_of_source ofSource?_sampleSource).2⟩

end File

end NilGuard.Go
