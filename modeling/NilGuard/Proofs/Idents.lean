import NilGuard.Go.Render
import NilGuard.Proofs.Findings
import NilGuard.Proofs.Grammar.File
import NilGuard.Proofs.Layout
import NilGuard.Proofs.Resolution

/-!
Identifiers of a source. Each identifier of a file that was read from a source is spelled in the
source at its span, no two begin at one offset, and one that shares its binding with an earlier one,
inside a block, is a name token of the source that is used or assigned.
-/

namespace NilGuard.Go

open Resolver (spanText)
open Surface (Covers Word)

/-! ### Words in the source -/

namespace Surface.Covers

variable {text : Span → String} {ts : List Token} {ws : List Word}

theorem starts_sublist (h : Covers text ts ws) :
    (ws.map (·.name.span.start)).Sublist (ts.map (·.span.start)) := by
  induction h with
  | nil => exact .refl _
  | skip t _ ih => exact ih.cons _
  | word t role ht _ ih => exact ih.cons_cons _
  | several group s hs _ ih =>
    obtain ⟨before, first, rest, rfl, last, -, rfl⟩ := hs
    simp only [List.map_append, List.map_cons, List.append_assoc, List.cons_append]
    refine .trans ?_ (List.sublist_append_right _ _)
    exact (ih.trans (List.sublist_append_right _ _)).cons_cons _

/-- A word goes from one token up to the end of it or of a later one. -/
theorem spansIn (h : Covers text ts ws) {w : Word} (hw : w ∈ ws) :
    Surface.SpansIn ts w.name.span := by
  induction h with
  | nil => cases hw
  | skip t _ ih => exact (ih hw).append_left [t]
  | word t role ht _ ih =>
    rcases List.mem_cons.mp hw with rfl | hw
    · exact (Surface.SpansIn.single t).append_right _
    · exact (ih hw).append_left [t]
  | several group s hs _ ih =>
    rcases List.mem_cons.mp hw with rfl | hw
    · exact hs.append_right _
    · exact (ih hw).append_left group

/-- A word begins where a token does. -/
theorem exists_first (h : Covers text ts ws) {w : Word} (hw : w ∈ ws) :
    ∃ t ∈ ts, ∃ last : Span, w.name.span = t.span.upTo last := by
  obtain ⟨before, first, rest, rfl, last, -, hspan⟩ := h.spansIn hw
  exact ⟨first, by simp, last.span, hspan⟩

/-- Words end before the next ones begin, as tokens do. -/
theorem pairwise_stop (h : Covers text ts ws)
    (hts : ts.Pairwise fun t u => t.span.stop ≤ u.span.start) :
    ws.Pairwise fun w w' => w.name.span.stop ≤ w'.name.span.start := by
  induction h with
  | nil => exact .nil
  | skip t _ ih => exact ih (List.pairwise_cons.mp hts).2
  | word t role ht hrest ih =>
    obtain ⟨hfirst, hts⟩ := List.pairwise_cons.mp hts
    refine .cons (fun w hw => ?_) (ih hts)
    obtain ⟨u, hu, _, hspan⟩ := hrest.exists_first hw
    rw [hspan]
    exact hfirst u hu
  | several group s hs hrest ih =>
    obtain ⟨-, hts, hgroup⟩ := List.pairwise_append.mp hts
    refine .cons (fun w hw => ?_) (ih hts)
    obtain ⟨u, hu, _, hspan⟩ := hrest.exists_first hw
    obtain ⟨before, first, rest, rfl, last, hlast, rfl⟩ := hs
    rw [hspan]
    exact hgroup last (List.mem_append_right before hlast) u hu

/-- A word that is not declared is a name token, and no literal. -/
theorem exists_token (h : Covers text ts ws) {w : Word} (hw : w ∈ ws) (hrole : w.role ≠ .declared) :
    ∃ t ∈ ts, (t.kind = .name ∧ t.text ∉ ["true", "false", "iota"]) ∧
      w.name = ⟨t.text, t.span⟩ := by
  induction h with
  | nil => cases hw
  | skip t _ ih =>
    obtain ⟨t', ht', hkind, hname⟩ := ih hw
    exact ⟨t', List.mem_cons_of_mem t ht', hkind, hname⟩
  | word t role ht _ ih =>
    rcases List.mem_cons.mp hw with rfl | hw
    · exact ⟨t, List.mem_cons_self, ht.resolve_right hrole, rfl⟩
    · obtain ⟨t', ht', hkind, hname⟩ := ih hw
      exact ⟨t', List.mem_cons_of_mem t ht', hkind, hname⟩
  | several group s hs _ ih =>
    rcases List.mem_cons.mp hw with rfl | hw
    · exact absurd rfl hrole
    · obtain ⟨t', ht', hkind, hname⟩ := ih hw
      exact ⟨t', List.mem_append_right group ht', hkind, hname⟩

/-- Every word is spelled in the source at its span. -/
theorem slice_eq {source : List Char} (hlaid : Laid {} source ts)
    (h : Covers (spanText source) ts ws) {w : Word} (hw : w ∈ ws) :
    Text.slice source w.name.span.start w.name.span.stop = some w.name.text.toList := by
  induction h with
  | nil => cases hw
  | skip t _ ih => exact ih (hlaid.sublist (List.sublist_cons_self t _)) hw
  | word t role _ _ ih =>
    rcases List.mem_cons.mp hw with rfl | hw
    · obtain ⟨before, word, after, rfl, htext, hspan, -⟩ := hlaid.exists_of_mem List.mem_cons_self
      simp [htext, hspan, Position.spanOf, slice_append]
    · exact ih (hlaid.sublist (List.sublist_cons_self t _)) hw
  | several group s hs _ ih =>
    rcases List.mem_cons.mp hw with rfl | hw
    · have hgroup := hlaid.sublist (List.sublist_append_left group _)
      obtain ⟨before, word, after, rfl, hstart, hstop⟩ := hgroup.exists_of_spansIn hs
      rw [Nat.zero_add] at hstart
      simp [spanText, hstop, hstart, slice_append]
    · exact ih (hlaid.sublist (List.sublist_append_right group _)) hw

end Surface.Covers

/-! ### Identifiers and their events -/

namespace Event

/-- The events before the one that makes a given identifier. -/
theorem exists_split {es : List Event} {i : Nat} {e : Event} (h : (taking es)[i]? = some e) :
    ∃ before after, es = before ++ e :: after ∧ (words before).length = i ∧
      e.word?.isSome = true := by
  induction es generalizing i with
  | nil => simp [taking] at h
  | cons e' es ih =>
    cases hword : e'.word? with
    | none =>
      rw [taking, List.filter_cons_of_neg (by simp [hword])] at h
      obtain ⟨before, after, rfl, rfl, he⟩ := ih h
      exact ⟨e' :: before, after, rfl, by simp [words, hword], he⟩
    | some w =>
      rw [taking, List.filter_cons_of_pos (by simp [hword])] at h
      cases i with
      | zero =>
        cases h
        exact ⟨[], es, rfl, rfl, by simp [hword]⟩
      | succ i =>
        obtain ⟨before, after, rfl, rfl, he⟩ := ih h
        exact ⟨e' :: before, after, rfl, by simp [words, hword], he⟩

theorem map_word?_taking (es : List Event) : (taking es).map word? = (words es).map some := by
  induction es with
  | nil => rfl
  | cons e es ih => cases h : e.word? <;> simp_all [taking, words]

/-- The event and the word of a given number. -/
theorem exists_of_words {es : List Event} {i : Nat} {w : Word} (h : (words es)[i]? = some w) :
    ∃ e, (taking es)[i]? = some e ∧ e.word? = some w := by
  have hmap := congrArg (·[i]?) (map_word?_taking es)
  simp only [List.getElem?_map, h, Option.map_some] at hmap
  exact Option.map_eq_some_iff.mp hmap

end Event

namespace Resolver

/-- Identifiers stay as they were made. -/
theorem getElem?_steps {r : Resolver} {i : Nat} {x : Ident} (h : r.idents[i]? = some x)
    (es : List Event) : (r.steps es).idents[i]? = some x := by
  induction es generalizing r with
  | nil => exact h
  | cons e es ih =>
    refine ih ?_
    cases hword : e.word? with
    | none =>
      cases e with
      | enter | leave => exact h
      | _ => cases hword
    | some w =>
      obtain ⟨binding, scopes, -, hstep⟩ := step_takes (r := r) hword
      have hlt := (Array.getElem?_eq_some_iff.mp h).1
      rw [hstep, Array.getElem?_push, if_neg (Nat.ne_of_lt hlt), h]

/-- The step that made an identifier. -/
theorem exists_step {r : Resolver} {es : List Event} {i : Nat} {x : Ident} (hi : r.idents.size ≤ i)
    (hx : (r.steps es).idents[i]? = some x) :
    ∃ before e after, es = before ++ e :: after ∧ (Event.taking es)[i - r.idents.size]? = some e ∧
      (r.steps before).idents.size = i ∧ ∃ w binding scopes, e.word? = some w ∧
        x = ⟨w.name.text, binding, w.name.span⟩ ∧
        (r.steps before).scopes.Takes w.name.text binding scopes ∧
        (r.steps before).step e = { r.steps before with
          scopes, idents := (r.steps before).idents.push x } := by
  have hlt := (Array.getElem?_eq_some_iff.mp hx).1
  rw [size_steps, ← Event.length_taking] at hlt
  obtain ⟨e, he⟩ : ∃ e, (Event.taking es)[i - r.idents.size]? = some e :=
    ⟨_, List.getElem?_eq_getElem (by omega)⟩
  obtain ⟨before, after, rfl, hlength, hword⟩ := Event.exists_split he
  obtain ⟨w, hword⟩ := Option.isSome_iff_exists.mp hword
  have hsize : (r.steps before).idents.size = i := by rw [size_steps]; omega
  obtain ⟨binding, scopes, htakes, hstep⟩ := step_takes (r := r.steps before) hword
  have hown : ((r.steps before).step e).idents[i]? = some ⟨w.name.text, binding, w.name.span⟩ := by
    rw [hstep, ← hsize, Array.getElem?_push_size]
  rw [steps_append, steps_cons, getElem?_steps hown after, Option.some.injEq] at hx
  exact ⟨before, e, after, rfl, he, hsize, w, binding, scopes, hword, hx.symm, htakes, hx ▸ hstep⟩

/-- Earlier identifiers were there before a step. -/
theorem getElem?_of_steps_append {r : Resolver} {before after : List Event} {i : Nat} {x : Ident}
    (hx : (r.steps (before ++ after)).idents[i]? = some x) (hi : i < (r.steps before).idents.size) :
    (r.steps before).idents[i]? = some x := by
  have hold : (r.steps before).idents[i]? = some ((r.steps before).idents[i]) :=
    Array.getElem?_eq_getElem hi
  rw [steps_append, getElem?_steps hold after] at hx
  rw [hold, hx]

/-- A declared name is bound to nothing or to a binding of its own. -/
theorem binding_declare {r : Resolver} {kind : BindingKind} {name : Name} {x : Ident}
    (h : (r.step (.declare kind name)).idents = r.idents.push x) {b : BindingId}
    (hb : x.binding = some b) : b = r.scopes.bindings.size := by
  simp only [step, declareIdent_eq] at h
  split at h
  · obtain rfl := (Array.push_eq_push.mp h).1
    cases hb
  · obtain rfl := (Array.push_eq_push.mp h).1
    simpa [Scopes.fst_declare] using hb.symm

/-- An identifier that shares its binding with an earlier one is not declared where it stands. -/
theorem not_declared_of_shared {r : Resolver} (hr : r.Sound) {es : List Event} {v i : Nat}
    {x y : Ident} {e : Event} {b : BindingId} (he : (Event.taking es)[i - r.idents.size]? = some e)
    (hv : v < i) (hi : r.idents.size ≤ i) (hx : (r.steps es).idents[v]? = some x)
    (hy : (r.steps es).idents[i]? = some y) (hxb : x.binding = some b) (hyb : y.binding = some b) :
    ∀ kind name, e ≠ .declare kind name := by
  rintro kind name rfl
  obtain ⟨before, e, after, rfl, he', hsize, w, binding, scopes, -, -, -, hstep⟩ :=
    exists_step hi hy
  rw [he, Option.some.injEq] at he'
  subst he'
  -- The earlier identifier has a binding that was there before.
  have hold := getElem?_of_steps_append hx (by omega)
  have hlt := ((hr.steps before).idents x (Array.mem_of_getElem? hold) b hxb).lt
  exact absurd (binding_declare (congrArg Resolver.idents hstep) hyb) (Nat.ne_of_lt hlt)

end Resolver

/-! ### Files -/

namespace File

/-- How a file came from a source: its tokens, its declarations, and the events that made its
identifiers. -/
structure Origin (f : File) (path source : String) (decls : List Surface.Decl) (ts : List Token)
    (es : List Event) : Prop where
  path_eq : f.path = path
  source_eq : f.source = source
  tokens_eq : tokens source.toList = some ts
  surface_eq : Surface.Decl.ofSource? source.toList = some decls
  decls_eq : f.decls = (Resolver.resolveDecls decls (.start source.toList decls)).1
  events_eq : es = Act.allEvents (Surface.sourceActs source decls)
  idents_eq : f.idents = ((Resolver.start source.toList decls).steps es).idents
  bindings_eq : f.bindings = ((Resolver.start source.toList decls).steps es).scopes.bindings
  pieces : Surface.Pieces (Surface.DeclAt (spanText source.toList)) ts decls
  rooted : Resolver.Rooted 0 (Surface.sourceActs source decls) f.roots

theorem exists_origin {path source : String} {f : File} (h : File.ofSource? path source = some f) :
    ∃ decls ts es, f.Origin path source decls ts es := by
  obtain ⟨decls, hsurface, hpath, hsource, hdecls, hidents, hbindings, hrooted⟩ :=
    exists_of_ofSource? h
  obtain ⟨ts, hts, hpieces⟩ := Surface.Decl.pieces_of_ofSource? hsurface (spanText source.toList)
  exact ⟨decls, ts, _, hpath, hsource, hts, hsurface, hdecls, rfl, hidents, hbindings,
    hpieces, hrooted⟩

namespace Origin

variable {f : File} {path source : String} {decls : List Surface.Decl} {ts : List Token}
  {es : List Event}

theorem laid (h : f.Origin path source decls ts es) : Laid {} source.toList ts :=
  laid_of_tokens h.tokens_eq

/-- The words of the source stand among its tokens. -/
theorem covers (h : f.Origin path source decls ts es) : Covers (spanText source.toList) ts
    (decls.flatMap (Surface.declWords (spanText source.toList))) :=
  h.pieces.covers fun _ d hd => hd.covers.sublist (Surface.declWords_sublist _ d)

/-- The events that make identifiers are those of the acts. -/
theorem made_eq (h : f.Origin path source decls ts es) :
    Event.taking es = Act.made (Surface.sourceActs source decls) := by
  rw [h.events_eq]
  rfl

theorem words_perm (h : f.Origin path source decls ts es) : (Event.words es).Perm
    (Surface.identWords (decls.flatMap (Surface.declWords (spanText source.toList)))) := by
  rw [h.events_eq]
  exact Surface.words_declsActs _ decls

/-- The identifiers are the names of the words. -/
theorem map_idents (h : f.Origin path source decls ts es) :
    f.idents.toList.map (fun x => (⟨x.name, x.span⟩ : Name)) = (Event.words es).map (·.name) := by
  have hmade := Resolver.made_steps (.start source.toList decls) es
  rw [Resolver.made, ← h.idents_eq] at hmade
  simpa [Resolver.made, Resolver.start] using hmade

/-- The word of an identifier. -/
theorem exists_word (h : f.Origin path source decls ts es) {i : Nat} {x : Ident}
    (hx : f.idents[i]? = some x) : ∃ e w, (Event.taking es)[i]? = some e ∧ e.word? = some w ∧
      w.name = ⟨x.name, x.span⟩ ∧
      w ∈ decls.flatMap (Surface.declWords (spanText source.toList)) := by
  have hname := congrArg (·[i]?) h.map_idents
  simp only [List.getElem?_map, Array.getElem?_toList, hx, Option.map_some] at hname
  obtain ⟨w, hw, hname⟩ := Option.map_eq_some_iff.mp hname.symm
  obtain ⟨e, he, hword⟩ := Event.exists_of_words hw
  have hmem := h.words_perm.subset (List.mem_of_getElem? hw)
  exact ⟨e, w, he, hword, hname, (List.mem_filter.mp hmem).1⟩

theorem inSource (h : f.Origin path source decls ts es) {x : Ident} (hx : x ∈ f.idents) :
    File.inSource source.toList x = true := by
  obtain ⟨i, hi⟩ := Array.mem_iff_getElem?.mp hx
  obtain ⟨e, w, -, -, hname, hw⟩ := h.exists_word hi
  have hslice := h.covers.slice_eq h.laid hw
  rw [hname] at hslice
  simp [File.inSource, hslice]

theorem startsDistinct (h : f.Origin path source decls ts es) : f.StartsDistinct := by
  have hts : (ts.map (·.span.start)).Pairwise (· < ·) :=
    List.pairwise_map.mpr (h.laid.pairwise.imp fun ht => ht.1)
  have hwords : ((Event.words es).map (·.name.span.start)).Nodup := by
    refine (h.words_perm.map _).nodup_iff.mpr ?_
    refine ((hts.sublist h.covers.starts_sublist).sublist ?_).imp Nat.ne_of_lt
    exact List.filter_sublist.map _
  have hstarts : (f.idents.toList.map (·.span.start)).Nodup := by
    have hmap := congrArg (List.map fun n : Name => n.span.start) h.map_idents
    simp only [List.map_map, Function.comp_def] at hmap
    rwa [hmap]
  exact startsDistinct_of_nodup hstarts

/-- Inside a block, an identifier that shares its binding with an earlier one is used or a
target. -/
theorem exists_operand (h : f.Origin path source decls ts es) {root : Node} (hroot : root ∈ f.roots)
    {b : Block} (hb : Node.block b ∈ Descent.full.walk root) {v i : Nat}
    (hi : i ∈ (Node.block b).ids) (hv : v < i) {x y : Ident} (hx : f.idents[v]? = some x)
    (hy : f.idents[i]? = some y) {binding : BindingId} (hxb : x.binding = some binding)
    (hyb : y.binding = some binding) :
    ∃ w ∈ decls.flatMap (Surface.declWords (spanText source.toList)), w.name = ⟨y.name, y.span⟩ ∧
      (w.role = .value ∨ w.role = .target) := by
  obtain ⟨e, w, he, hword, hname, hw⟩ := h.exists_word hy
  have huse : e.isUse = false := h.rooted.plain root hroot b hb i hi e (by rwa [← h.made_eq])
  have hdeclare : ∀ kind name, e ≠ .declare kind name := by
    rw [h.idents_eq] at hx hy
    exact Resolver.not_declared_of_shared (Resolver.start_sound source.toList decls) he hv
      (Nat.zero_le i) hx hy hxb hyb
  refine ⟨w, hw, hname, ?_⟩
  cases e with
  | enter | leave => cases hword
  | value n => cases hword; exact .inl rfl
  | target n =>
    cases hword
    simp only [Surface.roleOf]
    split <;> simp
  | declare kind n => exact absurd rfl (hdeclare kind n)
  | use n => cases huse

end Origin

end File

end NilGuard.Go
