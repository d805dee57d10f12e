import NilGuard.Proofs.Idents
import NilGuard.Proofs.Renaming.Acts

/-!
Events of renamed trees. Renamed events make the scopes that the events made, and the renamed
identifiers, as long as each renamed name stood for what an earlier name stands for. Such a name
takes what a scope has, so the scopes are the same without it.
-/

namespace NilGuard.Go

open Surface (Word Role roleOf)

namespace Renaming

variable (σ : Renaming)

@[simp] def event : Event → Event
  | .enter => .enter
  | .leave => .leave
  | .value n => .value (σ.name n)
  | .target n => .target (σ.name n)
  | .declare kind n => .declare kind (σ.name n)
  | .use n => .use (σ.name n)

/-- An identifier that is renamed becomes the nil literal. -/
def ident (x : Ident) : Ident :=
  if σ.marked x.span then ⟨nilName, none, σ.span x.span⟩ else ⟨x.name, x.binding, σ.span x.span⟩

theorem name_of_not_marked {n : Name} (h : σ.marked n.span = false) :
    σ.name n = ⟨n.text, σ.span n.span⟩ := by
  simp [name, h]

theorem name_of_marked {n : Name} (h : σ.marked n.span = true) :
    σ.name n = ⟨nilName, σ.span n.span⟩ := by
  simp [name, h]

theorem ident_of_not_marked {text : String} {b : Option BindingId} {s : Span}
    (h : σ.marked s = false) :
    σ.ident ⟨text, b, s⟩ = ⟨text, b, σ.span s⟩ := by
  simp [ident, h]

theorem ident_of_marked {text : String} {b : Option BindingId} {s : Span} (h : σ.marked s = true) :
    σ.ident ⟨text, b, s⟩ = ⟨nilName, none, σ.span s⟩ := by
  simp [ident, h]

mutual

theorem events_act (a : Act) : (σ.act a).events = a.events.map σ.event := by
  cases a with
  | scope as => simp [Act.events, allEvents_acts as]
  | _ => simp [Act.events]

/-- Renamed acts have the renamed events. -/
theorem allEvents_acts (as : List Act) : Act.allEvents (as.map σ.act) = (Act.allEvents as).map
    σ.event := by
  cases as with
  | nil => simp
  | cons a as => simp [events_act a, allEvents_acts as]

end

end Renaming

/-! ### Scopes -/

namespace Scopes

/-- Two scopes have the same names, with the same numbers for what is declared. -/
structure Alike (s s' : Scopes) : Prop where
  file_eq : s'.file = s.file
  inner_eq : s'.inner = s.inner
  size_eq : s'.bindings.size = s.bindings.size

namespace Alike

variable {s s' : Scopes}

theorem refl (s : Scopes) : Alike s s :=
  ⟨rfl, rfl, rfl⟩

/-- Where scopes are alike a name means the same. -/
theorem find?_eq (h : Alike s s') (name : String) : s'.find? name = s.find? name := by
  rw [find?, find?, h.file_eq, h.inner_eq]

theorem inCurrent?_eq (h : Alike s s') (name : String) :
    s'.inCurrent? name = s.inCurrent? name := by
  rw [inCurrent?, inCurrent?, h.file_eq, h.inner_eq]

theorem push (h : Alike s s') : Alike s.push s'.push :=
  ⟨h.file_eq, by simp [Scopes.push, h.inner_eq], h.size_eq⟩

theorem pop (h : Alike s s') : Alike s.pop s'.pop := by
  simp only [Scopes.pop, h.inner_eq]
  cases s.inner with
  | nil => exact ⟨rfl, rfl, h.size_eq⟩
  | cons frame frames => exact ⟨h.file_eq, rfl, h.size_eq⟩

theorem declare (h : Alike s s') (name : String) (kind : BindingKind) (decl decl' : Span) :
    Alike (s.declare name kind decl).2 (s'.declare name kind decl').2 := by
  simp only [Scopes.declare, alloc, h.inner_eq]
  cases s.inner with
  | nil => exact ⟨by simp [h.file_eq, h.size_eq], rfl, by simp [h.size_eq]⟩
  | cons frame frames => exact ⟨h.file_eq, by simp [h.size_eq], by simp [h.size_eq]⟩

theorem resolve (h : Alike s s') (name : String) :
    (s'.resolve name).1 = (s.resolve name).1 ∧ Alike (s.resolve name).2 (s'.resolve name).2 := by
  simp only [Scopes.resolve, h.find?_eq]
  cases s.find? name with
  | none =>
    exact ⟨h.size_eq, by simp [alloc, h.file_eq, h.size_eq], h.inner_eq, by simp [alloc, h.size_eq]⟩
  | some b => exact ⟨rfl, h⟩

theorem declareInFile (h : Alike s s') (name : String) (kind : BindingKind) (decl decl' : Span) :
    Alike (s.declareInFile name kind decl) (s'.declareInFile name kind decl') := by
  simp only [Scopes.declareInFile, h.file_eq]
  cases s.file.lookup name with
  | none => exact ⟨by simp [alloc, h.file_eq, h.size_eq], h.inner_eq, by simp [alloc, h.size_eq]⟩
  | some b => exact ⟨rfl, h.inner_eq, by simp [h.size_eq]⟩

end Alike

/-- A name that takes a binding that was there leaves the scopes as they were. -/
theorem Takes.scopes_eq {s s' : Scopes} {name : String} {b : BindingId}
    (h : s.Takes name (some b) s') (hb : b < s.bindings.size) : s' = s := by
  cases h with
  | found => rfl
  | fresh => exact absurd hb (Nat.lt_irrefl _)

end Scopes

namespace Resolver

variable {σ : Renaming} {r r' : Resolver}

/-- A resolver has the scopes of another one and its identifiers renamed. -/
structure Follows (σ : Renaming) (r r' : Resolver) : Prop where
  scopes : r.scopes.Alike r'.scopes
  idents : r'.idents.toList = r.idents.toList.map σ.ident

namespace Follows

theorem push (h : Follows σ r r') {s s' : Scopes} (hs : s.Alike s') {x x' : Ident}
    (hx : x' = σ.ident x) :
    Follows σ { r with scopes := s, idents := r.idents.push x }
      { r' with scopes := s', idents := r'.idents.push x' } :=
  ⟨hs, by simp [h.idents, hx]⟩

theorem declareIdent (h : Follows σ r r') (kind : BindingKind) {n : Name}
    (hn : σ.marked n.span = false) :
    Follows σ (declareIdent kind n r).2 (declareIdent kind (σ.name n) r').2 := by
  rw [σ.name_of_not_marked hn, declareIdent_eq, declareIdent_eq]
  dsimp only
  split
  · exact h.push h.scopes (by rw [σ.ident_of_not_marked hn])
  · refine h.push (h.scopes.declare ..) ?_
    rw [σ.ident_of_not_marked hn, Scopes.fst_declare, Scopes.fst_declare, h.scopes.size_eq]

theorem useIdent (h : Follows σ r r') {n : Name} (hn : σ.marked n.span = false) :
    Follows σ (useIdent n r).2 (useIdent (σ.name n) r').2 := by
  rw [σ.name_of_not_marked hn, useIdent_eq, useIdent_eq]
  dsimp only
  split
  · exact h.push h.scopes (by rw [σ.ident_of_not_marked hn])
  · obtain ⟨hfst, hsnd⟩ := h.scopes.resolve n.text
    exact h.push hsnd (by rw [σ.ident_of_not_marked hn, hfst])

theorem newIdent (h : Follows σ r r') {n : Name} (hn : σ.marked n.span = false)
    (b : Option BindingId) :
    Follows σ (newIdent n b r).2 (newIdent (σ.name n) b r').2 := by
  rw [σ.name_of_not_marked hn, newIdent_eq, newIdent_eq]
  exact h.push h.scopes (by rw [σ.ident_of_not_marked hn])

/-- An event whose name is not renamed. -/
theorem step_of_not_marked (h : Follows σ r r') {e : Event}
    (he : ∀ w, e.word? = some w → σ.marked w.name.span = false) :
    Follows σ (r.step e) (r'.step (σ.event e)) := by
  cases e with
  | enter => exact ⟨h.scopes.push, h.idents⟩
  | leave => exact ⟨h.scopes.pop, h.idents⟩
  | value n =>
    have hn : σ.marked n.span = false := he _ rfl
    simp only [step, Renaming.event, exprIdent_eq, (congrArg Name.text (σ.name_of_not_marked hn) :)]
    split
    · exact h.newIdent hn none
    · exact h.useIdent hn
  | target n =>
    have hn : σ.marked n.span = false := he _ rfl
    simp only [step, Renaming.event, defineIdent_eq,
      (congrArg Name.text (σ.name_of_not_marked hn) :), h.scopes.inCurrent?_eq]
    split
    · exact h.newIdent hn none
    · split
      · exact h.newIdent hn _
      · exact h.declareIdent .var hn
  | declare kind n => exact h.declareIdent kind (he _ rfl)
  | use n => exact h.useIdent (he _ rfl)

/-- An event whose name is renamed, where the name changed no scope. -/
theorem step_of_marked (h : Follows σ r r') {e : Event} {w : Word} (hw : e.word? = some w)
    (hmarked : σ.marked w.name.span = true) (hrole : w.role = .value ∨ w.role = .target)
    (hscopes : (r.step e).scopes = r.scopes) : Follows σ (r.step e) (r'.step (σ.event e)) := by
  have hnew : r'.step (σ.event e) = (Resolver.newIdent (σ.name w.name) none r').2 := by
    cases e with
    | enter | leave => cases hw
    | value n =>
      cases hw
      rw [Renaming.event, step, exprIdent_eq, σ.name_of_marked hmarked, if_pos rfl]
    | target n =>
      cases hw
      rw [Renaming.event, step, defineIdent_eq, σ.name_of_marked hmarked, if_pos rfl]
    | declare kind n | use n => cases hw; simp at hrole
  obtain ⟨binding, scopes, -, hstep⟩ := step_takes (r := r) hw
  obtain rfl : scopes = r.scopes := by rw [← hscopes, hstep]
  rw [hnew, hstep, newIdent_eq, σ.name_of_marked hmarked]
  exact h.push h.scopes (by rw [σ.ident_of_marked hmarked])

/-- A name that stands for what an earlier one stands for changes no scope. -/
theorem scopes_step (hr : r.Sound) {e : Event} (es : List Event) {w : Word} (hw : e.word? = some w)
    (hshared : ∀ y, (r.steps (e :: es)).idents[r.idents.size]? = some y → y.span = w.name.span →
      ∃ (v : Nat) (z : Ident) (b : BindingId), v < r.idents.size ∧
        (r.steps (e :: es)).idents[v]? = some z ∧ z.binding = some b ∧ y.binding = some b) :
    (r.step e).scopes = r.scopes := by
  obtain ⟨binding, scopes, htakes, hstep⟩ := step_takes (r := r) hw
  have hown : (r.step e).idents[r.idents.size]? = some ⟨w.name.text, binding, w.name.span⟩ := by
    rw [hstep, Array.getElem?_push_size]
  obtain ⟨v, z, b, hv, hz, hzb, rfl⟩ := hshared _ (getElem?_steps hown es) rfl
  -- The earlier identifier has a binding that is there already.
  rw [← List.nil_append (e :: es)] at hz
  have hold : r.idents[v]? = some z := getElem?_of_steps_append hz hv
  have hlt := (hr.idents z (Array.mem_of_getElem? hold) b hzb).lt
  rw [hstep, htakes.scopes_eq hlt]

/-- What the renamed events do. -/
theorem steps (h : Follows σ r r') (hr : r.Sound) {es : List Event}
    (hrole : ∀ w ∈ Event.words es, σ.marked w.name.span = true → w.role = .value ∨ w.role = .target)
    (hshared : ∀ (i : Nat) (y : Ident), r.idents.size ≤ i → (r.steps es).idents[i]? = some y →
      σ.marked y.span = true → ∃ (v : Nat) (z : Ident) (b : BindingId), v < i ∧
        (r.steps es).idents[v]? = some z ∧ z.binding = some b ∧ y.binding = some b) :
    Follows σ (r.steps es) (r'.steps (es.map σ.event)) := by
  induction es generalizing r r' with
  | nil => exact h
  | cons e es ih =>
    rw [List.map_cons, steps_cons, steps_cons]
    have hsize : r.idents.size ≤ (r.step e).idents.size := by
      have := size_steps r [e]
      rw [steps_cons, steps_nil] at this
      omega
    refine ih ?_ (hr.step e) (fun w hw => hrole w ?_) fun i y hi =>
      hshared i y (Nat.le_trans hsize hi)
    · cases hw : e.word? with
      | none => exact h.step_of_not_marked (by simp [hw])
      | some w =>
        cases hmarked : σ.marked w.name.span with
        | false => exact h.step_of_not_marked (by simp [hw, hmarked])
        | true =>
          refine h.step_of_marked hw hmarked (hrole w ?_ hmarked) 
            (scopes_step hr es hw fun y hy hspan => ?_)
          · simp [Event.words, hw]
          · exact hshared _ y (Nat.le_refl _) hy (hspan ▸ hmarked)
    · cases hword : e.word? <;> simp [Event.words, hword] at hw ⊢ <;> simp [hw]

end Follows

end Resolver

/-! ### The scope of a file -/

section
variable {σ : Renaming} {text text' : Span → String}

/-- A renaming that keeps how names are spelled. -/
def Renaming.KeepsText (σ : Renaming) (xs : List (Name × BindingKind)) : Prop :=
  ∀ x ∈ xs, (σ.name x.1).text = x.1.text

theorem Surface.Decl.globals_cons (span : Span) (kind : BindingKind) (names : List Name)
    (values : List Surface.Expr) (specs : List Surface.Spec) :
    (Decl.vars span kind (.mk names values :: specs)).globals =
      (names.filter (·.text != blankName)).map (·, kind) ++
      (Decl.vars span kind specs).globals := by
  simp [globals]

/-- What a renamed declaration makes known in the file. -/
theorem Renaming.globals_decl {d : Surface.Decl}
    (h : σ.Fits text text' (Surface.declNames text d)) :
    (σ.decl d).globals = d.globals.map (fun x => (σ.name x.1, x.2)) ∧ σ.KeepsText d.globals := by
  cases d with
  | func span method n params body =>
    cases method with
    | true => exact ⟨rfl, by simp [KeepsText, Surface.Decl.globals]⟩
    | false =>
      refine ⟨rfl, fun x hx => ?_⟩
      obtain rfl := List.mem_singleton.mp hx
      exact (fits_cons.mp h).1.text_name (by simp) (by simp)
  | vars span kind specs =>
    simp only [Surface.declNames, Surface.declWords] at h
    induction specs with
    | nil => exact ⟨rfl, by simp [KeepsText, Surface.Decl.globals]⟩
    | cons spec specs ih =>
      obtain ⟨names, values⟩ := spec
      simp only [Surface.specsWords, fits_append] at h
      obtain ⟨hglobals, hkeeps⟩ := ih h.2
      have hnames : ∀ n ∈ names, (σ.name n).text = n.text := fun n hn =>
        (h.1.1 ⟨.declared, n⟩ (List.mem_map_of_mem hn)).text_name (by simp) (by simp)
      simp only [decl, List.map_cons, spec, Surface.Decl.globals_cons] at hglobals ⊢
      rw [hglobals, List.map_append]
      refine ⟨?_, List.forall_mem_append.mpr ⟨fun x hx => ?_, hkeeps⟩⟩
      · rw [List.filter_map, List.filter_congr fun n hn => by
          rw [Function.comp_apply, hnames n hn]]
        simp [Function.comp_def]
      · obtain ⟨n, hn, rfl⟩ := List.mem_map.mp hx
        exact hnames n (List.mem_of_mem_filter hn)

/-- Makes a name known in the file. -/
def Scopes.declareGlobal (s : Scopes) (x : Name × BindingKind) : Scopes :=
  s.declareInFile x.1.text x.2 x.1.span

theorem Scopes.ofDecls_eq (ds : List Surface.Decl) :
    ofDecls ds = (ds.flatMap Surface.Decl.globals).foldl declareGlobal {} := rfl

theorem Scopes.Alike.foldl_declareGlobal {s s' : Scopes} (h : s.Alike s')
    {xs : List (Name × BindingKind)} (hxs : σ.KeepsText xs) :
    (xs.foldl declareGlobal s).Alike
      ((xs.map fun x => (σ.name x.1, x.2)).foldl declareGlobal s') := by
  induction xs generalizing s s' with
  | nil => exact h
  | cons x xs ih =>
    obtain ⟨hx, hxs⟩ := List.forall_mem_cons.mp hxs
    refine ih ?_ hxs
    rw [declareGlobal, declareGlobal, hx]
    exact h.declareInFile ..

/-- The names that a file declares are not renamed, so its scope stays, up to places. -/
theorem Scopes.ofDecls_alike {ds : List Surface.Decl}
    (h : σ.Fits text text' (ds.flatMap (Surface.declNames text))) :
    (ofDecls ds).Alike (ofDecls (ds.map σ.decl)) := by
  have hds : ∀ d ∈ ds, σ.Fits text text' (Surface.declNames text d) := fun d hd w hw =>
    h w (List.mem_flatMap.mpr ⟨d, hd, hw⟩)
  have hglobals : (ds.map σ.decl).flatMap Surface.Decl.globals =
      (ds.flatMap Surface.Decl.globals).map fun x => (σ.name x.1, x.2) := by
    rw [List.flatMap_map, List.map_flatMap]
    exact List.flatMap_congr fun d hd => (Renaming.globals_decl (hds d hd)).1
  rw [ofDecls_eq, ofDecls_eq, hglobals]
  refine (Alike.refl {}).foldl_declareGlobal fun x hx => ?_
  obtain ⟨d, hd, hx⟩ := List.mem_flatMap.mp hx
  exact (Renaming.globals_decl (hds d hd)).2 x hx

theorem Resolver.start_follows {source source' : List Char} {ds : List Surface.Decl}
    (h : σ.Fits text text' (ds.flatMap (Surface.declNames text))) :
    Follows σ (start source ds) (start source' (ds.map σ.decl)) :=
  ⟨Scopes.ofDecls_alike h, rfl⟩

end

end NilGuard.Go
