import NilGuard.Go.Node
import NilGuard.Go.Resolve
import NilGuard.Go.Word

/-!
Events of resolution. All that resolution does to scopes and identifiers is to enter and leave
scopes and to take names one after the other. What taking a name can do is said once
(`Scopes.Takes`), and what holds of scopes and identifiers is an induction over a list of events: a
name in a scope points to a binding of that name, and so does an identifier, so identifiers that
share a binding are spelled alike.
-/

namespace NilGuard.Go

open Resolver
open Surface (Word roleOf)

/-- One step of resolution. -/
inductive Event where
  | enter
  | leave
  /-- A name in an expression. -/
  | value (name : Name)
  /-- A name on the left of `:=`. -/
  | target (name : Name)
  | declare (kind : BindingKind) (name : Name)
  /-- A name that the file declares. -/
  | use (name : Name)

namespace Event

/-- The word that an event makes an identifier for. -/
def word? : Event → Option Word
  | .enter | .leave => none
  | .value name => some ⟨.value, name⟩
  | .target name => some ⟨roleOf .target name, name⟩
  | .declare _ name | .use name => some ⟨.declared, name⟩

/-- Whether an event uses a name that the file declares. -/
def isUse : Event → Bool
  | .use _ => true
  | _ => false

/-- Whether an event may make an identifier that is an expression. Where `nil` is declared it is
none. -/
def isOperand : Event → Bool
  | .value _ | .target _ => true
  | .declare _ name => name.text != nilName
  | _ => false

/-- The words of events in their order. -/
def words (es : List Event) : List Word :=
  es.filterMap word?

@[simp] theorem words_nil : words [] = [] := rfl

@[simp] theorem words_append (es es' : List Event) : words (es ++ es') = words es ++ words es' :=
  List.filterMap_append

/-- The events that make an identifier, in the order of the identifiers. -/
def taking (es : List Event) : List Event :=
  es.filter (·.word?.isSome)

theorem taking_append (es es' : List Event) : taking (es ++ es') = taking es ++ taking es' :=
  List.filter_append ..

theorem length_taking (es : List Event) : (taking es).length = (words es).length := by
  induction es with
  | nil => rfl
  | cons e es ih => cases h : e.word? <;> simp_all [taking, words]

end Event

/-! ### Scopes -/

namespace Scopes

/-- A binding is there and has the given name. -/
def Names (s : Scopes) (name : String) (b : BindingId) : Prop :=
  ∃ x, s.bindings[b]? = some x ∧ x.name = name

/-- Some scope has the entry. -/
def Holds (s : Scopes) (p : String × BindingId) : Prop :=
  ∃ frame ∈ s.file :: s.inner, p ∈ frame

/-- Every entry of a scope points to a binding of its name. -/
def Sound (s : Scopes) : Prop :=
  ∀ p, s.Holds p → s.Names p.1 p.2

/-- What taking a name can do: bind it to nothing, bind it to what a scope has for it, or make a new
binding and an entry for it. -/
inductive Takes (s : Scopes) (name : String) : Option BindingId → Scopes → Prop where
  | unbound : Takes s name none s
  | found (b : BindingId) (h : s.Holds (name, b)) : Takes s name (some b) s
  | fresh (s' : Scopes) (x : Binding) (hx : x.name = name)
      (hbindings : s'.bindings = s.bindings.push x)
      (hholds : ∀ p, s'.Holds p → s.Holds p ∨ p = (name, s.bindings.size)) :
      Takes s name (some s.bindings.size) s'

theorem Names.lt {s : Scopes} {name : String} {b : BindingId} (h : s.Names name b) :
    b < s.bindings.size := by
  obtain ⟨x, hx, -⟩ := h
  exact (Array.getElem?_eq_some_iff.mp hx).1

/-- A binding stays under its number when another one is added. -/
theorem Names.push {s s' : Scopes} {name : String} {b : BindingId} {x : Binding}
    (h : s.Names name b) (hs : s'.bindings = s.bindings.push x) : s'.Names name b := by
  obtain ⟨y, hy, hname⟩ := h
  refine ⟨y, ?_, hname⟩
  have hlt := (Array.getElem?_eq_some_iff.mp hy).1
  rw [hs, Array.getElem?_push, if_neg (Nat.ne_of_lt hlt), hy]

theorem names_size {s s' : Scopes} {x : Binding} (hs : s'.bindings = s.bindings.push x) :
    s'.Names x.name s.bindings.size :=
  ⟨x, by rw [hs, Array.getElem?_push_size], rfl⟩

/-- Names that were there stay. -/
theorem Takes.names {s s' : Scopes} {name text : String} {binding : Option BindingId}
    {b : BindingId} (h : Takes s name binding s') (hb : s.Names text b) : s'.Names text b := by
  cases h with
  | unbound | found => exact hb
  | fresh _ x hx hbindings _ => exact hb.push hbindings

/-- What a name is bound to has that name. -/
theorem Takes.names_binding {s s' : Scopes} {name : String} {b : BindingId}
    (h : Takes s name (some b) s') (hs : s.Sound) : s'.Names name b := by
  cases h with
  | found _ h => exact hs _ h
  | fresh _ x hx hbindings _ => exact hx ▸ names_size hbindings

/-- Taking a name keeps scopes sound, whether the name was there, is new or has no binding. -/
theorem Takes.sound {s s' : Scopes} {name : String} {binding : Option BindingId}
    (h : Takes s name binding s') (hs : s.Sound) : s'.Sound := by
  cases h with
  | unbound | found => exact hs
  | fresh _ x hx hbindings hholds =>
    intro p hp
    rcases hholds p hp with hp | rfl
    · exact (hs p hp).push hbindings
    · exact hx ▸ names_size hbindings

theorem holds_push {s : Scopes} {p : String × BindingId} : s.push.Holds p ↔ s.Holds p := by
  simp [Holds, push]

theorem bindings_pop (s : Scopes) : s.pop.bindings = s.bindings := by
  unfold pop
  split <;> rfl

/-- Leaving a scope brings no name in. -/
theorem holds_of_pop {s : Scopes} {p : String × BindingId} (h : s.pop.Holds p) : s.Holds p := by
  obtain ⟨frame, hframe, hp⟩ := h
  unfold pop at hframe
  split at hframe
  · next hinner =>
    simp only [hinner, List.mem_singleton] at hframe
    simp [hframe] at hp
  · next first frames hinner =>
    refine ⟨frame, ?_, hp⟩
    simp only [hinner, List.mem_cons] at hframe ⊢
    exact hframe.imp_right .inr

theorem Sound.push {s : Scopes} (hs : s.Sound) : s.push.Sound :=
  fun p hp => hs p (holds_push.mp hp)

theorem Sound.pop {s : Scopes} (hs : s.Sound) : s.pop.Sound := by
  intro p hp
  rw [Names, bindings_pop]
  exact hs p (holds_of_pop hp)

theorem mem_of_lookup {frame : Frame} {name : String} {b : BindingId}
    (h : frame.lookup name = some b) : (name, b) ∈ frame := by
  obtain ⟨before, after, rfl, -⟩ := List.lookup_eq_some_iff.mp h
  simp

/-- What a name is found to mean is held by one of the scopes. -/
theorem holds_of_find? {s : Scopes} {name : String} {b : BindingId} (h : s.find? name = some b) :
    s.Holds (name, b) := by
  rw [find?] at h
  cases hinner : s.inner.findSome? (·.lookup name) with
  | none =>
    rw [hinner] at h
    exact ⟨s.file, List.mem_cons_self, mem_of_lookup h⟩
  | some c =>
    rw [hinner] at h
    cases h
    obtain ⟨frame, hframe, hlookup⟩ := List.exists_of_findSome?_eq_some hinner
    exact ⟨frame, List.mem_cons_of_mem _ hframe, mem_of_lookup hlookup⟩

theorem holds_of_inCurrent? {s : Scopes} {name : String} {b : BindingId}
    (h : s.inCurrent? name = some b) : s.Holds (name, b) := by
  unfold inCurrent? at h
  split at h
  · exact ⟨s.file, List.mem_cons_self, mem_of_lookup h⟩
  · next frame frames hinner => exact ⟨frame, by simp [hinner], mem_of_lookup h⟩

theorem fst_declare (s : Scopes) (name : String) (kind : BindingKind) (decl : Span) :
    (s.declare name kind decl).1 = s.bindings.size := by
  unfold declare alloc
  dsimp only
  split <;> rfl

/-- A new entry in the scope of the file. -/
theorem takes_file (s : Scopes) (name : String) (kind : BindingKind) (decl : Option Span) :
    Takes s name (some s.bindings.size)
      { (s.alloc name kind decl).2 with file := (name, s.bindings.size) :: s.file } := by
  refine .fresh _ ⟨name, kind, decl⟩ rfl rfl ?_
  rintro p ⟨frame, hframe, hp⟩
  rcases List.mem_cons.mp hframe with rfl | hframe
  · rcases List.mem_cons.mp hp with rfl | hp
    · exact .inr rfl
    · exact .inl ⟨s.file, List.mem_cons_self, hp⟩
  · exact .inl ⟨frame, List.mem_cons_of_mem _ hframe, hp⟩

/-- A declared name is taken with a new binding. -/
theorem declare_takes (s : Scopes) (name : String) (kind : BindingKind) (decl : Span) :
    Takes s name (some (s.declare name kind decl).1) (s.declare name kind decl).2 := by
  rw [fst_declare]
  unfold declare
  dsimp only
  split
  · exact takes_file s name kind (some decl)
  · next first frames hinner =>
    have hinner : s.inner = first :: frames := hinner
    refine .fresh _ ⟨name, kind, some decl⟩ rfl rfl ?_
    rintro p ⟨frame, hframe, hp⟩
    rcases List.mem_cons.mp hframe with rfl | hframe
    · exact .inl ⟨s.file, List.mem_cons_self, hp⟩
    rcases List.mem_cons.mp hframe with rfl | hframe
    · rcases List.mem_cons.mp hp with rfl | hp
      · exact .inr rfl
      · exact .inl ⟨first, by simp [hinner], hp⟩
    · exact .inl ⟨frame, by simp [hinner, hframe], hp⟩

/-- A name that is looked up is taken with what it means, or from outside if it means nothing. -/
theorem resolve_takes (s : Scopes) (name : String) :
    Takes s name (some (s.resolve name).1) (s.resolve name).2 := by
  unfold resolve
  split
  · next b h => exact .found b (holds_of_find? h)
  · exact takes_file s name .external none

theorem declareInFile_sound {s : Scopes} (hs : s.Sound) (name : String) (kind : BindingKind)
    (decl : Span) : (s.declareInFile name kind decl).Sound := by
  unfold declareInFile
  split
  · intro p hp
    obtain ⟨x, hx, hname⟩ := hs p hp
    simp only [Names, Array.getElem?_modify, hx]
    split
    · refine ⟨_, rfl, ?_⟩
      dsimp only
      split <;> exact hname
    · exact ⟨x, rfl, hname⟩
  · exact (takes_file s name kind (some decl)).sound hs

/-- The scope of a file is sound once its declarations are in it. -/
theorem ofDecls_sound (decls : List Surface.Decl) : (ofDecls decls).Sound := by
  rw [ofDecls]
  refine List.foldlRecOn _ _ ?_ fun s hs ⟨name, kind⟩ _ =>
    declareInFile_sound hs name.text kind name.span
  rintro p ⟨frame, hframe, hp⟩
  simp only [List.mem_cons, List.not_mem_nil, or_false] at hframe
  simp [hframe] at hp

end Scopes

namespace Resolver

/-- What an event does. -/
def step (r : Resolver) : Event → Resolver
  | .enter => { r with scopes := r.scopes.push }
  | .leave => { r with scopes := r.scopes.pop }
  | .value name => (exprIdent name r).2
  | .target name => (defineIdent name r).2
  | .declare kind name => (declareIdent kind name r).2
  | .use name => (useIdent name r).2

/-- What events do one after the other. -/
def steps (r : Resolver) (es : List Event) : Resolver :=
  es.foldl step r

@[simp] theorem steps_nil (r : Resolver) : r.steps [] = r := rfl

@[simp] theorem steps_cons (r : Resolver) (e : Event) (es : List Event) :
    r.steps (e :: es) = (r.step e).steps es := rfl

@[simp] theorem steps_append (r : Resolver) (es es' : List Event) :
    r.steps (es ++ es') = (r.steps es).steps es' :=
  List.foldl_append

/-! ### One name -/

theorem newIdent_eq (name : Name) (binding : Option BindingId) (r : Resolver) :
    newIdent name binding r =
      (r.idents.size, { r with idents := r.idents.push ⟨name.text, binding, name.span⟩ }) := rfl

theorem declareIdent_eq (kind : BindingKind) (name : Name) (r : Resolver) :
    declareIdent kind name r = (r.idents.size,
      if name.text = blankName then
        { r with idents := r.idents.push ⟨name.text, none, name.span⟩ }
      else
        { r with
          scopes := (r.scopes.declare name.text kind name.span).2
          idents := r.idents.push
            ⟨name.text, some (r.scopes.declare name.text kind name.span).1, name.span⟩ }) := by
  unfold declareIdent
  split
  · next h => rw [if_pos (by simpa using h)]; rfl
  · next h => rw [if_neg (by simpa using h)]; rfl

theorem useIdent_eq (name : Name) (r : Resolver) :
    useIdent name r = (r.idents.size,
      if name.text = blankName then
        { r with idents := r.idents.push ⟨name.text, none, name.span⟩ }
      else
        { r with
          scopes := (r.scopes.resolve name.text).2
          idents := r.idents.push ⟨name.text, some (r.scopes.resolve name.text).1,
            name.span⟩ }) := by
  unfold useIdent
  split
  · next h => rw [if_pos (by simpa using h)]; rfl
  · next h => rw [if_neg (by simpa using h)]; rfl

theorem exprIdent_eq (name : Name) (r : Resolver) :
    exprIdent name r =
      if name.text = nilName then newIdent name none r else useIdent name r := by
  unfold exprIdent
  split
  · next h => rw [if_pos (by simpa using h)]
  · next h => rw [if_neg (by simpa using h)]

/-- On the left of `:=` a name of the innermost scope keeps its binding, and any other is
declared. -/
theorem defineIdent_eq (name : Name) (r : Resolver) :
    defineIdent name r =
      if name.text = nilName then newIdent name none r
      else match r.scopes.inCurrent? name.text with
        | some id => newIdent name (if name.text = blankName then none else some id) r
        | none => declareIdent .var name r := by
  unfold defineIdent
  split
  · next h => rw [if_pos (by simpa using h)]
  · next h =>
    rw [if_neg (by simpa using h)]
    cases hcur : r.scopes.inCurrent? name.text with
    | none =>
      show (match r.scopes.inCurrent? name.text with | some id => _ | none => _ : Resolve _) r = _
      rw [hcur]
    | some id =>
      show (match r.scopes.inCurrent? name.text with | some id => _ | none => _ : Resolve _) r = _
      rw [hcur]
      dsimp only
      by_cases hb : name.text = blankName <;> simp [hb]

/-- A step that has a name takes it. -/
theorem step_takes {r : Resolver} {e : Event} {w : Word} (h : e.word? = some w) :
    ∃ binding scopes, r.scopes.Takes w.name.text binding scopes ∧ r.step e =
      { r with scopes, idents := r.idents.push ⟨w.name.text, binding, w.name.span⟩ } := by
  have hdeclare : ∀ kind, ∃ binding scopes, r.scopes.Takes w.name.text binding scopes ∧
      (declareIdent kind w.name r).2 =
        { r with scopes, idents := r.idents.push ⟨w.name.text, binding, w.name.span⟩ } := by
    intro kind
    rw [declareIdent_eq]
    dsimp only
    split
    · exact ⟨none, r.scopes, .unbound, rfl⟩
    · exact ⟨_, _, Scopes.declare_takes .., rfl⟩
  have huse : ∃ binding scopes, r.scopes.Takes w.name.text binding scopes ∧
      (useIdent w.name r).2 =
        { r with scopes, idents := r.idents.push ⟨w.name.text, binding, w.name.span⟩ } := by
    rw [useIdent_eq]
    dsimp only
    split
    · exact ⟨none, r.scopes, .unbound, rfl⟩
    · exact ⟨_, _, Scopes.resolve_takes .., rfl⟩
  cases e with
  | enter | leave => cases h
  | value n =>
    cases h
    simp only [step, exprIdent_eq]
    split
    · exact ⟨none, r.scopes, .unbound, rfl⟩
    · exact huse
  | target n =>
    cases h
    simp only [step, defineIdent_eq]
    split
    · exact ⟨none, r.scopes, .unbound, rfl⟩
    · split
      · next b hb =>
        split
        · exact ⟨_, r.scopes, .unbound, rfl⟩
        · exact ⟨_, r.scopes, .found b (Scopes.holds_of_inCurrent? hb), rfl⟩
      · exact hdeclare .var
  | declare kind n => cases h; exact hdeclare kind
  | use n => cases h; exact huse

/-- The names and spans of the identifiers made so far. -/
def made (r : Resolver) : List Name :=
  r.idents.toList.map fun x => ⟨x.name, x.span⟩

theorem length_made (r : Resolver) : r.made.length = r.idents.size := by
  simp [made]

theorem source_step (r : Resolver) (e : Event) : (r.step e).source = r.source := by
  cases h : e.word? with
  | none =>
    cases e with
    | enter | leave => rfl
    | _ => cases h
  | some w =>
    obtain ⟨_, _, -, hstep⟩ := step_takes (r := r) h
    rw [hstep]

theorem made_step (r : Resolver) (e : Event) :
    (r.step e).made = r.made ++ (e.word?.map (·.name)).toList := by
  cases h : e.word? with
  | none =>
    cases e with
    | enter | leave => simp [step, made]
    | _ => cases h
  | some w =>
    obtain ⟨_, _, -, hstep⟩ := step_takes (r := r) h
    rw [hstep]
    simp [made]

@[simp] theorem source_steps (r : Resolver) (es : List Event) : (r.steps es).source = r.source := by
  induction es generalizing r with
  | nil => rfl
  | cons e es ih => rw [steps_cons, ih, source_step]

/-- Events make an identifier for each of their words, in order. -/
theorem made_steps (r : Resolver) (es : List Event) :
    (r.steps es).made = r.made ++ (Event.words es).map (·.name) := by
  induction es generalizing r with
  | nil => simp
  | cons e es ih =>
    rw [steps_cons, ih, made_step, List.append_assoc]
    cases h : e.word? <;> simp [Event.words, h]

theorem size_steps (r : Resolver) (es : List Event) :
    (r.steps es).idents.size = r.idents.size + (Event.words es).length := by
  rw [← length_made, made_steps, List.length_append, length_made, List.length_map]

/-! ### Names of bindings -/

/-- No step makes an entry that points elsewhere. -/
theorem sound_step {r : Resolver} (hr : r.scopes.Sound) (e : Event) : (r.step e).scopes.Sound := by
  cases h : e.word? with
  | none =>
    cases e with
    | enter => exact hr.push
    | leave => exact hr.pop
    | _ => cases h
  | some w =>
    obtain ⟨binding, scopes, htakes, hstep⟩ := step_takes (r := r) h
    rw [hstep]
    exact htakes.sound hr

theorem sound_steps {r : Resolver} (hr : r.scopes.Sound) (es : List Event) :
    (r.steps es).scopes.Sound := by
  induction es generalizing r with
  | nil => exact hr
  | cons e es ih => exact ih (sound_step hr e)

/-- Every entry of a scope and every identifier points to a binding of its name. -/
structure Sound (r : Resolver) : Prop where
  scopes : r.scopes.Sound
  idents : ∀ x ∈ r.idents, ∀ b, x.binding = some b → r.scopes.Names x.name b

theorem Sound.step {r : Resolver} (hr : r.Sound) (e : Event) : (r.step e).Sound := by
  refine ⟨sound_step hr.scopes e, fun x hx b hb => ?_⟩
  cases h : e.word? with
  | none =>
    cases e with
    | enter => exact hr.idents x hx b hb
    | leave =>
      rw [Scopes.Names, show (r.step .leave).scopes.bindings = _ from Scopes.bindings_pop r.scopes]
      exact hr.idents x hx b hb
    | _ => cases h
  | some w =>
    obtain ⟨binding, scopes, htakes, hstep⟩ := step_takes (r := r) h
    rw [hstep] at hx ⊢
    rcases Array.mem_push.mp hx with hx | rfl
    · exact htakes.names (hr.idents x hx b hb)
    · cases hb
      exact htakes.names_binding hr.scopes

/-- What is sound at the start is sound after any events. -/
theorem Sound.steps {r : Resolver} (hr : r.Sound) (es : List Event) : (r.steps es).Sound := by
  induction es generalizing r with
  | nil => exact hr
  | cons e es ih => exact ih (hr.step e)

end Resolver

end NilGuard.Go
