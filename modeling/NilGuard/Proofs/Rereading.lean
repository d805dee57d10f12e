import NilGuard.Proofs.Renaming.Events
import NilGuard.Proofs.Renaming.Resolution
import NilGuard.Proofs.Rewriting

/-!
Reading a text again after some of its names were replaced. If the tokens of the new text are the
renamed tokens, and each name that was replaced is used or on the left of `:=` and stands for what
an earlier name stands for, then the new text is well formed, its tree has the outline of the old
one, and its identifiers are the renamed identifiers.
-/

namespace NilGuard.Go

open Resolver (spanText)
open Surface (Covers Word Item itemWords declWords declNames stmtWords typeNames)

namespace Surface

variable {σ : Renaming} {text text' text'' : Span → String}

/-! ### Items -/

/-- The words of an item, with the name of a function that is known in the whole file. -/
def itemNames (text : Span → String) : Item → List Word
  | .decl d => declNames text d
  | .stmt s => stmtWords text s

theorem ItemAt.covers {used : List Token} {x : Item} (h : ItemAt text used x) :
    Covers text used (itemNames text x) := by
  cases x with
  | decl d => exact DeclAt.covers h
  | stmt s => exact h

theorem fits_itemWords {x : Item} (h : σ.Fits text text' (itemNames text x)) :
    σ.Fits text text' (itemWords text x) := by
  cases x with
  | decl d => exact fun w hw => h w ((declWords_sublist text d).subset hw)
  | stmt s => exact h

theorem typeNames_item {x : Item} (h : σ.Fits text text' (itemWords text x)) :
    typeNames (itemWords text'' (σ.item x)) = (typeNames (itemWords text x)).map σ.name := by
  cases x with
  | decl d => exact (decl_carries d h).types
  | stmt s => exact (stmt_carries s h).types

theorem all_sound_iff {ws : List Word} :
    ws.all Word.sound = true ↔ ∀ n ∈ typeNames ws, n.text ≠ nilName := by
  simp only [List.all_eq_true, typeNames, List.mem_map, List.mem_filter, Word.sound]
  constructor
  · rintro h _ ⟨w, ⟨hw, hrole⟩, rfl⟩
    simpa [(beq_iff_eq.mp hrole)] using h w hw
  · intro h w hw
    by_cases hrole : w.role = .type
    · simpa [hrole] using h w.name ⟨w, ⟨hw, by simp [hrole]⟩, rfl⟩
    · simp [hrole]

/-- Renaming nothing leaves items that were read as they are. -/
theorem same_item {n : Nat} {ts : List Token} {items : List Item}
    (h : (Grammar.file (Grammar.rules n)).run ts = some (items, [])) {x : Item} (hx : x ∈ items) :
    Renaming.same.item x = x := by
  have hts : ts.map Renaming.same.token = ts := by
    refine List.map_id'' (fun t => ?_) ts
    simp [Renaming.token, Renaming.same, Renaming.span]
  obtain ⟨hnone, -⟩ | ⟨items', hrun, hrun', -⟩ :=
    Grammar.file_renamed (fun _ => "") n (Grammar.safe_same ts)
  · simp [h] at hnone
  · obtain rfl : items' = items := by simpa [h] using hrun.symm
    rw [hts, h] at hrun'
    have hitems : items'.map Renaming.same.item = items'.map id := by simpa using hrun'.symm
    exact List.map_inj_left.mp hitems x hx

theorem sound_item {x : Item} (hsame : Renaming.same.item x = x) (hx : x.sound = true)
    (h : σ.Fits text text' (itemWords text x)) : (σ.item x).sound = true := by
  -- Which types an item has does not depend on what is declared in it.
  have hfits : Renaming.same.Fits text text (itemWords text x) :=
    fun w _ => ⟨by simp [Renaming.same], fun _ => rfl⟩
  have hnames : ∀ n ∈ typeNames (itemWords text x), n.text ≠ nilName := by
    rw [Item.sound, all_sound_iff, ← hsame, typeNames_item hfits] at hx
    exact fun n hn => hx _ (List.mem_map_of_mem hn)
  rw [Item.sound, all_sound_iff, typeNames_item h]
  intro _ hmem
  obtain ⟨n, hn, rfl⟩ := List.mem_map.mp hmem
  obtain ⟨⟨role, n⟩, hw, rfl⟩ := List.mem_map.mp hn
  obtain ⟨hw, hrole⟩ := List.mem_filter.mp hw
  obtain rfl : role = .type := by simpa using hrole
  rw [(h _ hw).text_name (by simp) (by simp)]
  exact hnames n hn

/-- The declarations of a text whose tokens are renamed. -/
theorem Decl.ofSource?_renamed {new : List Char} {ts : List Token} {items : List Item}
    (hrun : (Grammar.file (Grammar.rules (ts.length + 1))).run ts = some (items, []))
    (hsound : items.all Item.sound = true) (hnew : tokens new = some (ts.map σ.token))
    (hsafe : Grammar.Safe σ ts) (hfits : σ.Fits text text' (items.flatMap (itemNames text))) :
    Decl.ofSource? new = some ((items.filterMap Item.decl?).map σ.decl) := by
  obtain ⟨hnone, -⟩ | ⟨items', hrun', hrenamed, -⟩ :=
    Grammar.file_renamed text (ts.length + 1) hsafe
  · simp [hrun] at hnone
  obtain rfl : items' = items := by simpa [hrun] using hrun'.symm
  have hsound' : (items'.map σ.item).all Item.sound = true := by
    rw [List.all_map, List.all_eq_true]
    intro x hx
    have hx' : σ.Fits text text' (itemNames text x) := fun w hw =>
      hfits w (List.mem_flatMap.mpr ⟨x, hx, hw⟩)
    exact sound_item (same_item hrun hx) (List.all_eq_true.mp hsound x hx) (fits_itemWords hx')
  have hdecls : (items'.map σ.item).filterMap Item.decl? =
      (items'.filterMap Item.decl?).map σ.decl := by
    rw [List.filterMap_map, List.map_filterMap]
    refine List.filterMap_congr fun x _ => ?_
    cases x <;> rfl
  rw [← hdecls]
  generalize items'.map σ.item = renamed at hrenamed hsound'
  simp only [Decl.ofSource?, hnew, Option.bind_eq_bind, Option.bind_some, List.length_map, hrenamed,
    guard, hsound', if_true]
  rfl

end Surface

/-! ### Words -/

/-- Among the words of a source, a renaming fits all if the names it marks are used or on the left
of `:=` and the text between them stays. -/
theorem Renaming.fits_of_covers {σ : Renaming} {source new : List Char} {ts : List Token}
    {ws : List Word} (hcovers : Covers (spanText source) ts ws) (hlaid : Laid {} source ts)
    (hstart : ∀ s s', s.start = s'.start → σ.marked s = σ.marked s')
    (hwords : ∀ t ∈ ts, σ.marked t.span = true → ∃ w ∈ ws, w.name.span = t.span ∧
      (w.role = .value ∨ w.role = .target))
    (hslice : ∀ s, Surface.SpansIn ts s →
      (∀ t ∈ ts, s.start ≤ t.span.start → t.span.start < s.stop → σ.marked t.span = false) →
      Text.slice new (σ.span s).start (σ.span s).stop = Text.slice source s.start s.stop) :
    σ.Fits (spanText source) (spanText new) ws := by
  have hstarts : (ws.map (·.name.span.start)).Nodup :=
    ((List.pairwise_map.mpr (hlaid.pairwise.imp fun ht => ht.1)).sublist hcovers.starts_sublist).imp
      Nat.ne_of_lt
  intro w hw
  constructor
  · intro hmarked
    obtain ⟨t, ht, last, hspan⟩ := hcovers.exists_first hw
    have hfirst : w.name.span.start = t.span.start := by rw [hspan]; rfl
    obtain ⟨w', hw', hspan', hrole⟩ := hwords t ht (hstart _ _ hfirst ▸ hmarked)
    rwa [List.inj_on_of_nodup_map hstarts hw hw' (by rw [hfirst, hspan'])]
  · intro hrole
    have happart := hcovers.pairwise_stop hlaid.pairwise_stop
    have hnone : ∀ t ∈ ts, w.name.span.start ≤ t.span.start → t.span.start < w.name.span.stop →
        σ.marked t.span = false := by
      intro t ht hle hlt
      by_contra hmarked
      obtain ⟨w', hw', hspan', hrole'⟩ := hwords t ht (by simpa using hmarked)
      have hpos := hlaid.start_lt_stop ht
      rcases rel_or_eq happart hw hw' with rfl | hbefore | hbehind
      · simp [hrole] at hrole'
      · rw [hspan'] at hbefore
        omega
      · rw [hspan'] at hbehind
        omega
    rw [spanText, spanText, hslice _ (hcovers.spansIn hw) hnone]

/-! ### Files -/

/-- What was replaced in a source, and the text and the tokens it has then. -/
structure File.Respelled (f : File) (source : String) (decls : List Surface.Decl) (ts : List Token)
    (σ : Renaming) (new : List Char) : Prop where
  tokens_eq : tokens new = some (ts.map σ.token)
  safe : Surface.Grammar.Safe σ ts
  starts : ∀ s s', s.start = s'.start → σ.marked s = σ.marked s'
  words : ∀ t ∈ ts, σ.marked t.span = true →
    ∃ w ∈ decls.flatMap (declWords (spanText source.toList)), w.name.span = t.span ∧
      (w.role = .value ∨ w.role = .target)
  slices : ∀ s, Surface.SpansIn ts s →
    (∀ t ∈ ts, s.start ≤ t.span.start → t.span.start < s.stop → σ.marked t.span = false) →
    Text.slice new (σ.span s).start (σ.span s).stop = Text.slice source.toList s.start s.stop
  shared : ∀ (i : Nat) (y : Ident), f.idents[i]? = some y → σ.marked y.span = true →
    ∃ (v : Nat) (z : Ident) (b : BindingId), v < i ∧ f.idents[v]? = some z ∧ z.binding = some b ∧
      y.binding = some b

namespace File.Origin

variable {f : File} {path source : String} {decls : List Surface.Decl} {ts : List Token}
  {es : List Event}
  {σ : Renaming} {new : List Char}

/-- The declarations of the new text, and that the renaming fits all words of the old one. -/
theorem surface_renamed (h : f.Origin path source decls ts es)
    (hnew : f.Respelled source decls ts σ new) :
    Surface.Decl.ofSource? new = some (decls.map σ.decl) ∧
      σ.Fits (spanText source.toList) (spanText new)
        (decls.flatMap (declNames (spanText source.toList))) := by
  obtain ⟨ts', items, hts, hrun, hsound, rfl⟩ := Surface.Decl.exists_of_ofSource? h.surface_eq
  obtain rfl : ts' = ts := by simpa [h.tokens_eq] using hts.symm
  obtain ⟨hnone, -⟩ | ⟨items', hrun', -, hpieces⟩ :=
    Surface.Grammar.file_renamed (spanText source.toList) (ts'.length + 1) hnew.safe
  · simp [hrun] at hnone
  obtain rfl : items' = items := by simpa [hrun] using hrun'.symm
  have hcovers := hpieces.covers fun _ _ hx => hx.covers
  have hdecls : ∀ x ∈ items', ∀ d, x.decl? = some d → x = .decl d := by
    intro x _ d hd
    cases x with
    | decl d' => cases hd; rfl
    | stmt s => cases hd
  have hfits := Renaming.fits_of_covers hcovers h.laid hnew.starts (fun t ht hmarked => ?_)
    hnew.slices
  · refine ⟨Surface.Decl.ofSource?_renamed hrun hsound hnew.tokens_eq hnew.safe hfits,
      fun w hw => ?_⟩
    obtain ⟨d, hd, hw⟩ := List.mem_flatMap.mp hw
    obtain ⟨x, hx, hd⟩ := List.mem_filterMap.mp hd
    exact hfits w (List.mem_flatMap.mpr ⟨x, hx, hdecls x hx d hd ▸ hw⟩)
  · obtain ⟨w, hw, hspan, hrole⟩ := hnew.words t ht hmarked
    obtain ⟨d, hd, hw⟩ := List.mem_flatMap.mp hw
    obtain ⟨x, hx, hd⟩ := List.mem_filterMap.mp hd
    refine ⟨w, List.mem_flatMap.mpr ⟨x, hx, ?_⟩, hspan, hrole⟩
    rw [hdecls x hx d hd]
    exact (Surface.declWords_sublist _ d).subset hw

theorem exists_reread (h : f.Origin path source decls ts es)
    (hnew : f.Respelled source decls ts σ new) :
    ∃ f', File.ofSource? path (String.ofList new) = some f' ∧
      (∀ i, (f'.tree? i).map Outline.node = (f.tree? i).map Outline.node) ∧
      f'.idents.toList = f.idents.toList.map σ.ident := by
  obtain ⟨hsurface, hfits⟩ := h.surface_renamed hnew
  have hwords : σ.Fits (spanText source.toList) (spanText new)
      (decls.flatMap (declWords (spanText source.toList))) := by
    intro w hw
    obtain ⟨d, hd, hw⟩ := List.mem_flatMap.mp hw
    exact hfits w (List.mem_flatMap.mpr ⟨d, hd, (Surface.declWords_sublist _ d).subset hw⟩)
  obtain ⟨f', hf'⟩ : ∃ f', File.ofSource? path (String.ofList new) = some f' := by
    rw [File.ofSource?, String.toList_ofList, hsurface]
    exact ⟨_, rfl⟩
  obtain ⟨decls', hdecls', -, -, hroots, hidents, -, -⟩ := exists_of_ofSource? hf'
  rw [String.toList_ofList, hsurface, Option.some.injEq] at hdecls'
  subst hdecls'
  refine ⟨f', hf', ?_, ?_⟩
  · have hmatch := Resolver.resolveDecls_matches decls hwords (.start source.toList decls)
      (.start (String.ofList new).toList (decls.map σ.decl)) rfl
    rw [← hroots, ← h.decls_eq] at hmatch
    have houtline : ∀ (g : File) (i : Nat),
        (g.tree? i).map Outline.node = (g.decls.map Resolver.rootOutline)[i]?.bind id := by
      intro g i
      rw [tree?, Option.map_bind, List.getElem?_map, Option.bind_map]
      rfl
    intro i
    rw [houtline, houtline, hmatch.1]
  · have hacts : Surface.sourceActs (String.ofList new) (decls.map σ.decl) =
        (Surface.sourceActs source decls).map σ.act := by
      rw [Surface.sourceActs, String.toList_ofList]
      exact Surface.declsActs_map hwords
    have hfollows : Resolver.Follows σ ((Resolver.start source.toList decls).steps es)
        ((Resolver.start new (decls.map σ.decl)).steps (es.map σ.event)) := by
      refine (Resolver.start_follows hfits).steps (Resolver.start_sound _ _)
        (fun w hw hmarked => ?_)
        fun i y _ hy hmarked => ?_
      · have hmem := List.mem_of_mem_filter (h.words_perm.subset hw)
        exact (hwords w hmem).role hmarked
      · rw [← h.idents_eq] at hy ⊢
        exact hnew.shared i y hy hmarked
    rw [hidents, Resolver.finish, hacts, σ.allEvents_acts, String.toList_ofList, ← h.events_eq,
      h.idents_eq]
    exact hfollows.idents

end File.Origin

end NilGuard.Go
