import NilGuard.Proofs.Idents

/-!
Lexical resolution. Where a name stands among the acts of a source says which declaration it means:
of the constructs around it that declare the name before it the innermost one counts, and in that
one the latest declaration (`Act.chosen`). A name without such a declaration means what the file has
for it. The resolver keeps its scopes in step with the acts that are done (`Config`), act by act, so
this is what every identifier is bound to.
-/

namespace NilGuard.Go

/-! ### Declarations in effect -/

namespace Act

/-- The name that an act is about. -/
def name? : Act → Option Name
  | .value n | .target n | .declare _ n | .use n => some n
  | .scope _ => none

/-- An act stands among others. The acts of `front` come before it in its own construct, and those
of `around` before it in the constructs around it, the innermost first. What is around all of the
acts is `outer`. -/
inductive At : List (List Act) → List Act → List Act → List (List Act) → Act → Prop where
  | here (outer : List (List Act)) (before : List Act) (a : Act) (after : List Act) :
      At outer (before ++ a :: after) before outer a
  | inside {outer around : List (List Act)} {inner front : List Act} {a : Act}
    (before after : List Act)
      (h : At (before :: outer) inner front around a) :
      At outer (before ++ .scope inner :: after) front around a

/-- The declaration of a name in a construct after one more act. A declaration hides an earlier one,
and `:=` declares only what the construct has not declared yet. -/
def declared (x : String) (found : Option Name) : Act → Option Name
  | .declare _ n => if n.text = x ∧ x ≠ blankName then some n else found
  | .target n => if n.text = x ∧ x ≠ blankName ∧ x ≠ nilName then found.or (some n) else found
  | _ => found

/-- The latest declaration of a name among the acts of a construct. -/
def latest (x : String) (as : List Act) : Option Name :=
  as.foldl (declared x) none

/-- The latest declaration of a name in the innermost construct that has one. -/
def chosen (x : String) (fronts : List (List Act)) : Option Name :=
  fronts.findSome? (latest x)

@[simp] theorem latest_nil (x : String) : latest x [] = none := rfl

/-- Whether an act leaves the scope it stands in as it is. -/
def isPlain : Act → Bool
  | .value _ | .use _ | .scope _ => true
  | .target _ | .declare .. => false

theorem latest_concat (x : String) (as : List Act) (a : Act) :
    latest x (as ++ [a]) = declared x (latest x as) a := by
  simp [latest]

/-- The blank name is never declared. -/
theorem latest_blank (as : List Act) : latest blankName as = none := by
  have hdeclared : ∀ found a, declared blankName found a = found := by
    intro found a
    cases a <;> simp [declared]
  induction as using List.reverseRecOn with
  | nil => rfl
  | append_singleton as a ih => rw [latest_concat, hdeclared, ih]

end Act

/-- What becomes of a name. -/
inductive Fate where
  /-- It is bound to nothing. -/
  | unbound
  /-- It is declared where it stands. -/
  | fresh (kind : BindingKind)
  /-- It means a declaration. -/
  | resolved

/-- What becomes of the name of an act, when the acts of `front` come before it in its construct. -/
def Act.fate (front : List Act) : Act → Fate
  | .value n => if n.text = nilName ∨ n.text = blankName then .unbound else .resolved
  | .target n =>
    if n.text = nilName ∨ n.text = blankName then .unbound
    else if (latest n.text front).isSome then .resolved else .fresh .var
  | .declare kind n => if n.text = blankName then .unbound else .fresh kind
  | .use n => if n.text = blankName then .unbound else .resolved
  | .scope _ => .unbound

/-- The binding that a file has for a name: the first of its declarations, or else one from
outside. -/
def Surface.fileBinding (decls : List Surface.Decl) (x : String) : Binding :=
  match (decls.flatMap Surface.Decl.globals).find? (·.1.text == x) with
  | some (n, kind) => ⟨x, kind, some n.span⟩
  | none => ⟨x, .external, none⟩

/-! ### The scope of a file -/

namespace Scopes

/-- The scope of the file has what the file declares, and beyond that only names from outside. -/
def FileFits (decls : List Surface.Decl) (s : Scopes) : Prop :=
  ∀ x, match s.file.lookup x with
    | some b => s.bindings[b]? = some (Surface.fileBinding decls x)
    | none => (decls.flatMap Surface.Decl.globals).find? (·.1.text == x) = none

theorem FileFits.of_lookup {decls : List Surface.Decl} {s : Scopes} (h : s.FileFits decls)
    {x : String} {b : BindingId} (hb : s.file.lookup x = some b) :
    s.bindings[b]? = some (Surface.fileBinding decls x) := by
  simpa [hb] using h x

/-- After the names of a list are declared the scope of the file has the first declaration of
each. -/
def Declares (gs : List (Name × BindingKind)) (s : Scopes) : Prop :=
  ∀ x, match gs.find? (·.1.text == x) with
    | some (n, kind) => ∃ b, s.file.lookup x = some b ∧ s.bindings[b]? = some ⟨x, kind, some n.span⟩
    | none => s.file.lookup x = none

theorem Declares.exists_of_find? {gs : List (Name × BindingKind)} {s : Scopes} (h : s.Declares gs)
    {x : String} {g : Name × BindingKind} (hg : gs.find? (·.1.text == x) = some g) :
    ∃ b, s.file.lookup x = some b ∧ s.bindings[b]? = some ⟨x, g.2, some g.1.span⟩ := by
  simpa [hg] using h x

/-- A name that the file has declared stays as it is. -/
theorem declareInFile_eq_self {s : Scopes} {name : String} {id : BindingId} {x : Binding}
    (hfile : s.file.lookup name = some id) (hx : s.bindings[id]? = some x)
    (hkind : x.kind ≠ .external) (kind : BindingKind) (decl : Span) :
    s.declareInFile name kind decl = s := by
  have hmodify : (s.bindings.modify id fun b =>
      if b.kind == .external then { b with kind, decl := some decl } else b) = s.bindings := by
    refine Array.ext_getElem? fun i => ?_
    rw [Array.getElem?_modify]
    split
    · next hi => subst hi; simp [hx, hkind]
    · rfl
  simp only [Scopes.declareInFile, hfile, hmodify]

theorem declareInFile_of_lookup_eq_none {s : Scopes} {name : String}
    (hfile : s.file.lookup name = none) (kind : BindingKind) (decl : Span) :
    s.declareInFile name kind decl = { s with
      bindings := s.bindings.push ⟨name, kind, some decl⟩
      file := (name, s.bindings.size) :: s.file } := by
  simp [Scopes.declareInFile, hfile, alloc]

theorem Declares.declareInFile {gs : List (Name × BindingKind)} {s : Scopes} (h : s.Declares gs)
    (hgs : ∀ g ∈ gs, g.2 ≠ .external) (n : Name) (kind : BindingKind) :
    (s.declareInFile n.text kind n.span).Declares (gs ++ [(n, kind)]) := by
  intro x
  have hx := h x
  rw [List.find?_append]
  cases hfind : gs.find? (·.1.text == n.text) with
  | some g =>
    -- The name has a declaration already, and that one stays.
    obtain ⟨b, hb, hrecord⟩ := h.exists_of_find? hfind
    rw [declareInFile_eq_self hb hrecord (hgs g (List.mem_of_find?_eq_some hfind))]
    by_cases hnx : n.text = x
    · subst hnx
      simpa [hfind] using hx
    · simpa [List.find?_cons, hnx] using hx
  | none =>
    have hfile : s.file.lookup n.text = none := by simpa [hfind] using h n.text
    rw [declareInFile_of_lookup_eq_none hfile]
    by_cases hnx : n.text = x
    · subst hnx
      simp [hfind]
    · have hxn : (x == n.text) = false := by simpa using fun h => hnx h.symm
      cases hfindx : gs.find? (·.1.text == x) with
      | none => simpa [hfindx, List.find?_cons, hnx, List.lookup_cons, hxn] using hx
      | some g =>
        obtain ⟨b, hb, hrecord⟩ := h.exists_of_find? hfindx
        have hlt := (Array.getElem?_eq_some_iff.mp hrecord).1
        simp only [Option.some_or, List.lookup_cons, hxn]
        exact ⟨b, hb, by rw [Array.getElem?_push, if_neg (Nat.ne_of_lt hlt), hrecord]⟩

theorem ofDecls_declares {decls : List Surface.Decl}
    (hdecls : ∀ g ∈ decls.flatMap Surface.Decl.globals, g.2 ≠ .external) :
    (ofDecls decls).Declares (decls.flatMap Surface.Decl.globals) := by
  have hfold : ∀ (gs done : List (Name × BindingKind)) (s : Scopes), s.Declares done →
      (∀ g ∈ done ++ gs, g.2 ≠ .external) →
      (gs.foldl (fun s g => s.declareInFile g.1.text g.2 g.1.span) s).Declares (done ++ gs) := by
    intro gs
    induction gs with
    | nil => intro done s hs _; simpa using hs
    | cons g gs ih =>
      intro done s hs hall
      have hstep := hs.declareInFile (fun x hx => hall x (List.mem_append_left _ hx)) g.1 g.2
      simpa using ih (done ++ [g]) _ hstep (by simpa using hall)
  exact hfold (decls.flatMap Surface.Decl.globals) [] {} (fun x => by simp) hdecls

theorem Declares.fileFits {decls : List Surface.Decl} {s : Scopes}
    (h : s.Declares (decls.flatMap Surface.Decl.globals)) : s.FileFits decls := by
  intro x
  have hx := h x
  unfold Surface.fileBinding
  cases hfind : (decls.flatMap Surface.Decl.globals).find? (·.1.text == x) with
  | none =>
    rw [hfind] at hx
    simp [show s.file.lookup x = none from hx]
  | some g =>
    obtain ⟨b, hb, hrecord⟩ : ∃ b, s.file.lookup x = some b ∧
        s.bindings[b]? = some ⟨x, g.2, some g.1.span⟩ := by simpa [hfind] using hx
    simpa [hb] using hrecord

end Scopes

namespace Resolver

/-! ### Growth -/

/-- What is there stays: identifiers, bindings, and what the file has for a name. -/
structure Extends (r r' : Resolver) : Prop where
  idents : ∀ x ∈ r.idents, x ∈ r'.idents
  bindings : ∀ (b : BindingId) (x : Binding), r.scopes.bindings[b]? = some x →
    r'.scopes.bindings[b]? = some x
  file : ∀ x b, r.scopes.file.lookup x = some b → r'.scopes.file.lookup x = some b

theorem Extends.refl (r : Resolver) : r.Extends r :=
  ⟨fun _ h => h, fun _ _ h => h, fun _ _ h => h⟩

theorem Extends.trans {r r' r'' : Resolver} (h : r.Extends r') (h' : r'.Extends r'') :
    r.Extends r'' :=
  ⟨fun x hx => h'.idents x (h.idents x hx), fun b x hx => h'.bindings b x (h.bindings b x hx),
    fun x b hb => h'.file x b (h.file x b hb)⟩

/-! ### Scopes in step with acts -/

/-- A scope has for each name the latest declaration among the acts that are done in it. -/
def Tells (idents : Array Ident) (frame : Frame) (front : List Act) : Prop :=
  ∀ x, match Act.latest x front with
    | some d => ∃ b, frame.lookup x = some b ∧ ⟨d.text, some b, d.span⟩ ∈ idents
    | none => frame.lookup x = none

/-- The scopes are in step with the acts that are done in each of them. The acts of the file itself
declare nothing, as if they had an empty scope. -/
structure Config (decls : List Surface.Decl) (r : Resolver) (fronts : List (List Act)) : Prop where
  frames : List.Forall₂ (Tells r.idents) (r.scopes.inner ++ [[]]) fronts
  file : r.scopes.FileFits decls

theorem Tells.mono {idents idents' : Array Ident} {frame : Frame} {front : List Act}
    (h : Tells idents frame front) (hidents : ∀ x ∈ idents, x ∈ idents') :
    Tells idents' frame front := by
  intro x
  have hx := h x
  cases hlatest : Act.latest x front with
  | none => simpa [hlatest] using hx
  | some d =>
    obtain ⟨b, hb, hmem⟩ : ∃ b, frame.lookup x = some b ∧ ⟨d.text, some b, d.span⟩ ∈ idents := by
      simpa [hlatest] using hx
    exact ⟨b, hb, hidents _ hmem⟩

/-- An act that declares nothing new. -/
theorem Tells.concat {idents : Array Ident} {frame : Frame} {front : List Act}
    (h : Tells idents frame front) {a : Act}
    (ha : ∀ x, Act.declared x (Act.latest x front) a = Act.latest x front) :
    Tells idents frame (front ++ [a]) := by
  intro x
  rw [Act.latest_concat, ha x]
  exact h x

/-- An act that declares a name, of which the scope gets a new entry. -/
theorem Tells.declare {idents : Array Ident} {frame : Frame} {front : List Act}
    (h : Tells idents frame front) {a : Act} {n : Name} {b : BindingId}
    (hb : ⟨n.text, some b, n.span⟩ ∈ idents)
    (ha : ∀ x, Act.declared x (Act.latest x front) a =
      if n.text = x then some n else Act.latest x front) :
    Tells idents ((n.text, b) :: frame) (front ++ [a]) := by
  intro x
  rw [Act.latest_concat, ha x]
  by_cases hx : n.text = x
  · subst hx
    simpa using hb
  · have hxn : (x == n.text) = false := by simpa using fun h => hx h.symm
    simp only [if_neg hx, List.lookup_cons, hxn]
    exact h x

namespace Config

variable {decls : List Surface.Decl} {r : Resolver} {front : List Act}
  {outer fronts : List (List Act)}

/-- Inside a construct there is a scope for it. -/
theorem exists_frame (h : Config decls r (front :: outer)) (houter : outer ≠ []) :
    ∃ frame frames, r.scopes.inner = frame :: frames ∧ Tells r.idents frame front ∧
      List.Forall₂ (Tells r.idents) (frames ++ [[]]) outer := by
  have hframes := h.frames
  cases hinner : r.scopes.inner with
  | nil =>
    rw [hinner] at hframes
    cases hframes with
    | cons _ hrest => cases hrest; exact absurd rfl houter
  | cons frame frames =>
    rw [hinner] at hframes
    cases hframes with
    | cons hframe hrest => exact ⟨frame, frames, rfl, hframe, hrest⟩

/-- What the scopes inside the file have for a name. -/
theorem findSome?_inner (h : Config decls r fronts) (x : String) :
    match Act.chosen x fronts with
    | some d => ∃ b, r.scopes.inner.findSome? (·.lookup x) = some b ∧
      ⟨d.text, some b, d.span⟩ ∈ r.idents
    | none => r.scopes.inner.findSome? (·.lookup x) = none := by
  have hall : ∀ {frames : List Frame} {fronts : List (List Act)},
      List.Forall₂ (Tells r.idents) frames fronts →
      match Act.chosen x fronts with
      | some d => ∃ b, frames.findSome? (·.lookup x) = some b ∧ ⟨d.text, some b, d.span⟩ ∈ r.idents
      | none => frames.findSome? (·.lookup x) = none := by
    intro frames fronts h
    induction h with
    | nil => simp [Act.chosen]
    | @cons frame front frames fronts hframe _ ih =>
      have hx := hframe x
      cases hlatest : Act.latest x front with
      | none =>
        rw [hlatest] at hx
        have hnone : frame.lookup x = none := hx
        simpa [Act.chosen, List.findSome?_cons, hlatest, hnone] using ih
      | some d =>
        obtain ⟨b, hb, hmem⟩ : ∃ b, frame.lookup x = some b ∧
            ⟨d.text, some b, d.span⟩ ∈ r.idents := by
          simpa [hlatest] using hx
        simpa [Act.chosen, List.findSome?_cons, hlatest, hb] using hmem
  simpa [List.findSome?_append] using hall h.frames

/-- One more identifier. -/
theorem push_ident (h : Config decls r fronts) (x : Ident) :
    Config decls { r with idents := r.idents.push x } fronts where
  frames := h.frames.imp fun _ _ ht => ht.mono fun _ hx => Array.mem_push_of_mem x hx
  file := h.file

theorem enter (h : Config decls r fronts) : Config decls (r.step .enter) ([] :: fronts) where
  frames := .cons (fun x => by simp) h.frames
  file := h.file

theorem leave (h : Config decls r (front :: outer)) (houter : outer ≠ []) :
    Config decls (r.step .leave) outer := by
  obtain ⟨frame, frames, hinner, -, hrest⟩ := h.exists_frame houter
  simp only [step, Scopes.pop, hinner]
  exact ⟨hrest, h.file⟩

/-- Leaving a construct changes no identifier and no binding, and nothing that the file has. -/
theorem extends_leave (h : Config decls r (front :: outer)) (houter : outer ≠ []) :
    r.Extends (r.step .leave) := by
  obtain ⟨frame, frames, hinner, -, -⟩ := h.exists_frame houter
  simp only [step, Scopes.pop, hinner]
  exact ⟨fun _ h => h, fun _ _ h => h, fun _ _ h => h⟩

/-- An act that declares nothing new. -/
theorem concat (h : Config decls r (front :: outer)) {a : Act}
    (ha : ∀ x, Act.declared x (Act.latest x front) a = Act.latest x front) :
    Config decls r ((front ++ [a]) :: outer) := by
  refine ⟨?_, h.file⟩
  have hframes := h.frames
  generalize r.scopes.inner ++ [[]] = frames at hframes
  cases hframes with
  | cons hframe hrest => exact .cons (hframe.concat ha) hrest

end Config

/-! ### One name -/

/-- What a name is bound to, as its fate says. -/
def Meant (r : Resolver) (front : List Act) (outer : List (List Act)) (a : Act) (n : Name)
    (binding : Option BindingId) : Prop :=
  match a.fate front with
  | .unbound => binding = none
  | .fresh kind => ∃ b, binding = some b ∧ r.scopes.bindings[b]? = some ⟨n.text, kind, some n.span⟩
  | .resolved => match Act.chosen n.text (front :: outer) with
    | some d => ∃ b, binding = some b ∧ ⟨d.text, some b, d.span⟩ ∈ r.idents
    | none => ∃ b, binding = some b ∧ r.scopes.file.lookup n.text = some b

theorem Meant.mono {r r' : Resolver} {front : List Act} {outer : List (List Act)} {a : Act}
    {n : Name} {binding : Option BindingId} (h : r.Meant front outer a n binding)
    (hr : r.Extends r') :
    r'.Meant front outer a n binding := by
  cases hfate : a.fate front with
  | unbound => simpa only [Meant, hfate] using h
  | fresh kind =>
    simp only [Meant, hfate] at h ⊢
    obtain ⟨b, hb, hrecord⟩ := h
    exact ⟨b, hb, hr.bindings _ _ hrecord⟩
  | resolved =>
    cases hchosen : Act.chosen n.text (front :: outer) with
    | some d =>
      simp only [Meant, hfate, hchosen] at h ⊢
      obtain ⟨b, hb, hmem⟩ := h
      exact ⟨b, hb, hr.idents _ hmem⟩
    | none =>
      simp only [Meant, hfate, hchosen] at h ⊢
      obtain ⟨b, hb, hlookup⟩ := h
      exact ⟨b, hb, hr.file _ _ hlookup⟩

/-- A step for the name of an act keeps scopes in step, and binds the name as it should. -/
structure Took (decls : List Surface.Decl) (r r' : Resolver) (front : List Act)
    (outer : List (List Act)) (a : Act) (n : Name) : Prop where
  config : Config decls r' ((front ++ [a]) :: outer)
  grows : r.Extends r'
  meant : ∃ binding, ⟨n.text, binding, n.span⟩ ∈ r'.idents ∧ r'.Meant front outer a n binding

section Took

variable {decls : List Surface.Decl} {r : Resolver} {front : List Act} {outer : List (List Act)}
  {a : Act}
  {n : Name}

theorem extends_push_ident (r : Resolver) (x : Ident) :
    r.Extends { r with idents := r.idents.push x } :=
  ⟨fun _ h => Array.mem_push_of_mem x h, fun _ _ h => h, fun _ _ h => h⟩

/-- A name that is bound to nothing. -/
theorem took_unbound (h : Config decls r (front :: outer)) (hfate : a.fate front = .unbound)
    (ha : ∀ x, Act.declared x (Act.latest x front) a = Act.latest x front) :
    Took decls r (newIdent n none r).2 front outer a n where
  config := (h.concat ha).push_ident _
  grows := extends_push_ident r _
  meant := ⟨none, by simp [newIdent_eq], by simp [Meant, hfate]⟩

/-- A name that is declared already in the same construct. -/
theorem took_again (h : Config decls r (front :: outer)) (hfate : a.fate front = .resolved)
    {d : Name} (hd : Act.latest n.text front = some d) {b : BindingId}
    (hb : ⟨d.text, some b, d.span⟩ ∈ r.idents)
    (ha : ∀ x, Act.declared x (Act.latest x front) a = Act.latest x front) :
    Took decls r (newIdent n (some b) r).2 front outer a n where
  config := (h.concat ha).push_ident _
  grows := extends_push_ident r _
  meant := by
    have hchosen : Act.chosen n.text (front :: outer) = some d := by simp [Act.chosen, hd]
    refine ⟨some b, by simp [newIdent_eq], ?_⟩
    simpa [Meant, hfate, hchosen, newIdent_eq] using .inl hb

/-- What the file has for a name that was not met before is from outside. -/
theorem fileFits_external {s : Scopes} (h : s.FileFits decls) {x : String}
    (hx : s.file.lookup x = none) :
    Scopes.FileFits decls { s with
      bindings := s.bindings.push ⟨x, .external, none⟩,
      file := (x, s.bindings.size) :: s.file } := by
  intro y
  by_cases hy : y = x
  · subst hy
    have hnone : (decls.flatMap Surface.Decl.globals).find? (·.1.text == y) = none := by
      simpa [hx] using h y
    simp [Surface.fileBinding, hnone]
  · have hbeq : (y == x) = false := by simpa using hy
    have hold := h y
    simp only [List.lookup_cons, hbeq]
    cases hlookup : s.file.lookup y with
    | none => simpa [hlookup] using hold
    | some b =>
      have hb := h.of_lookup hlookup
      have hlt := (Array.getElem?_eq_some_iff.mp hb).1
      simp only [Array.getElem?_push, if_neg (Nat.ne_of_lt hlt), hb]

/-- A name that means a declaration. -/
theorem took_resolved (h : Config decls r (front :: outer)) (hfate : a.fate front = .resolved)
    (ha : ∀ x, Act.declared x (Act.latest x front) a = Act.latest x front) :
    Took decls r { r with
      scopes := (r.scopes.resolve n.text).2
      idents := r.idents.push ⟨n.text, some (r.scopes.resolve n.text).1, n.span⟩ }
      front outer a n := by
  have hinner := h.findSome?_inner n.text
  cases hchosen : Act.chosen n.text (front :: outer) with
  | some d =>
    obtain ⟨b, hb, hmem⟩ : ∃ b, r.scopes.inner.findSome? (·.lookup n.text) = some b ∧
        ⟨d.text, some b, d.span⟩ ∈ r.idents := by simpa [hchosen] using hinner
    have hresolve : r.scopes.resolve n.text = (b, r.scopes) := by
      simp [Scopes.resolve, Scopes.find?, hb]
    rw [hresolve]
    refine ⟨(h.concat ha).push_ident _, extends_push_ident r _, some b, by simp, ?_⟩
    simpa [Meant, hfate, hchosen] using .inl hmem
  | none =>
    have hnone : r.scopes.inner.findSome? (·.lookup n.text) = none := by
      simpa [hchosen] using hinner
    cases hfile : r.scopes.file.lookup n.text with
    | some b =>
      have hresolve : r.scopes.resolve n.text = (b, r.scopes) := by
        simp [Scopes.resolve, Scopes.find?, hnone, hfile]
      rw [hresolve]
      refine ⟨(h.concat ha).push_ident _, extends_push_ident r _, some b, by simp, ?_⟩
      simpa [Meant, hfate, hchosen] using hfile
    | none =>
      have hresolve : r.scopes.resolve n.text = (r.scopes.bindings.size, { r.scopes with
          bindings := r.scopes.bindings.push ⟨n.text, .external, none⟩
          file := (n.text, r.scopes.bindings.size) :: r.scopes.file }) := by
        simp [Scopes.resolve, Scopes.find?, hnone, hfile, Scopes.alloc]
      rw [hresolve]
      refine ⟨?_, ⟨fun x hx => ?_, fun b x hx => ?_, fun x b hb => ?_⟩,
        some r.scopes.bindings.size, by simp, ?_⟩
      · have hconfig := (h.concat ha).push_ident ⟨n.text, some r.scopes.bindings.size, n.span⟩
        exact ⟨hconfig.frames, fileFits_external h.file hfile⟩
      · exact Array.mem_push_of_mem _ hx
      · have hlt := (Array.getElem?_eq_some_iff.mp hx).1
        simp only [Array.getElem?_push, if_neg (Nat.ne_of_lt hlt), hx]
      · have hne : (x == n.text) = false := by
          simp only [beq_eq_false_iff_ne, ne_eq]
          rintro rfl
          rw [hfile] at hb
          cases hb
        simpa only [List.lookup_cons, hne] using hb
      · simp [Meant, hfate, hchosen]

/-- A name that is declared where it stands. -/
theorem took_fresh (h : Config decls r (front :: outer)) (houter : outer ≠ []) {kind : BindingKind}
    (hfate : a.fate front = .fresh kind)
    (ha : ∀ x, Act.declared x (Act.latest x front) a =
      if n.text = x then some n else Act.latest x front) :
    Took decls r { r with
      scopes := (r.scopes.declare n.text kind n.span).2
      idents := r.idents.push ⟨n.text, some (r.scopes.declare n.text kind n.span).1, n.span⟩ }
      front outer a n := by
  obtain ⟨frame, frames, hinner, hframe, hrest⟩ := h.exists_frame houter
  have hdeclare : r.scopes.declare n.text kind n.span = (r.scopes.bindings.size, { r.scopes with
      bindings := r.scopes.bindings.push ⟨n.text, kind, some n.span⟩
      inner := ((n.text, r.scopes.bindings.size) :: frame) :: frames }) := by
    simp [Scopes.declare, Scopes.alloc, hinner]
  have hpush : ∀ (b : BindingId) (x : Binding), r.scopes.bindings[b]? = some x →
      (r.scopes.bindings.push ⟨n.text, kind, some n.span⟩)[b]? = some x := by
    intro b x hx
    have hlt := (Array.getElem?_eq_some_iff.mp hx).1
    simp only [Array.getElem?_push, if_neg (Nat.ne_of_lt hlt), hx]
  rw [hdeclare]
  refine ⟨⟨?_, fun x => ?_⟩, ⟨fun x hx => ?_, hpush, fun x b hb => hb⟩,
    some r.scopes.bindings.size, by simp, ?_⟩
  · refine .cons ?_ (hrest.imp fun _ _ ht => ht.mono fun _ hx => Array.mem_push_of_mem _ hx)
    exact (hframe.mono fun _ hx => Array.mem_push_of_mem _ hx).declare (by simp) ha
  · have hx := h.file x
    dsimp only
    split
    · next b hb => exact hpush b _ (h.file.of_lookup hb)
    · next hb => simpa [hb] using hx
  · exact Array.mem_push_of_mem _ hx
  · simp [Meant, hfate]

/-- A name that is used where it stands. -/
theorem took_used (h : Config decls r (front :: outer))
    (hfate : a.fate front = if n.text = blankName then .unbound else .resolved)
    (ha : ∀ x, Act.declared x (Act.latest x front) a = Act.latest x front) :
    Took decls r (useIdent n r).2 front outer a n := by
  rw [useIdent_eq]
  by_cases hblank : n.text = blankName
  · simp only [if_pos hblank] at hfate ⊢
    exact took_unbound h hfate ha
  · simp only [if_neg hblank] at hfate ⊢
    exact took_resolved h hfate ha

/-- A name that is declared where it stands, unless it is blank. -/
theorem took_declared (h : Config decls r (front :: outer)) (houter : outer ≠ [])
    {kind : BindingKind}
    (hfate : a.fate front = if n.text = blankName then .unbound else .fresh kind)
    (ha : ∀ x, Act.declared x (Act.latest x front) a =
      if n.text = x ∧ x ≠ blankName then some n else Act.latest x front) :
    Took decls r (declareIdent kind n r).2 front outer a n := by
  rw [declareIdent_eq]
  by_cases hblank : n.text = blankName
  · simp only [if_pos hblank] at hfate ⊢
    refine took_unbound h hfate fun x => ?_
    rw [ha, if_neg fun hx => hx.2 (hx.1 ▸ hblank)]
  · simp only [if_neg hblank] at hfate ⊢
    refine took_fresh h houter hfate fun x => ?_
    rw [ha]
    by_cases hx : n.text = x
    · subst hx; simp [hblank]
    · simp [hx]

/-- A name on the left of `:=`. -/
theorem took_target (h : Config decls r (front :: outer)) (houter : outer ≠ []) :
    Took decls r (defineIdent n r).2 front outer (.target n) n := by
  obtain ⟨frame, frames, hinner, hframe, -⟩ := h.exists_frame houter
  have hcurrent : r.scopes.inCurrent? n.text = frame.lookup n.text := by
    simp [Scopes.inCurrent?, hinner]
  have htold := hframe n.text
  rw [defineIdent_eq, hcurrent]
  by_cases hnil : n.text = nilName
  · rw [if_pos hnil]
    refine took_unbound h (by simp [Act.fate, hnil]) fun x => ?_
    rw [Act.declared, if_neg fun hx => hx.2.2 (hx.1 ▸ hnil)]
  rw [if_neg hnil]
  cases hlatest : Act.latest n.text front with
  | some d =>
    have hblank : n.text ≠ blankName := by
      intro hblank
      rw [hblank, Act.latest_blank] at hlatest
      cases hlatest
    obtain ⟨b, hb, hmem⟩ : ∃ b, frame.lookup n.text = some b ∧
        ⟨d.text, some b, d.span⟩ ∈ r.idents := by
      simpa [hlatest] using htold
    simp only [hb, if_neg hblank]
    refine took_again h (by simp [Act.fate, hnil, hblank, hlatest]) hlatest hmem fun x => ?_
    by_cases hx : n.text = x
    · subst hx; simp [Act.declared, hlatest]
    · simp [Act.declared, hx]
  | none =>
    have hlookup : frame.lookup n.text = none := by simpa [hlatest] using htold
    simp only [hlookup]
    refine took_declared h houter (by simp [Act.fate, hnil, hlatest]) fun x => ?_
    by_cases hx : n.text = x
    · subst hx; simp [Act.declared, hlatest, hnil]
    · simp [Act.declared, hx]

theorem step_took (h : Config decls r (front :: outer)) {e : Event} (he : a.events = [e])
    (hn : a.name? = some n) (hplain : outer = [] → a.isPlain = true) :
    Took decls r (r.step e) front outer a n := by
  cases a with
  | scope inner => cases hn
  | value m =>
    cases hn
    obtain rfl : e = .value n := by simpa [Act.events] using he.symm
    rw [step, exprIdent_eq]
    by_cases hnil : n.text = nilName
    · rw [if_pos hnil]
      exact took_unbound h (by simp [Act.fate, hnil]) fun _ => rfl
    · rw [if_neg hnil]
      exact took_used h (by simp [Act.fate, hnil]) fun _ => rfl
  | use m =>
    cases hn
    obtain rfl : e = .use n := by simpa [Act.events] using he.symm
    exact took_used h (by simp [Act.fate]) fun _ => rfl
  | declare kind m =>
    cases hn
    obtain rfl : e = .declare kind n := by simpa [Act.events] using he.symm
    exact took_declared h (fun houter => by cases hplain houter) (by simp [Act.fate]) fun _ => rfl
  | target m =>
    cases hn
    obtain rfl : e = .target n := by simpa [Act.events] using he.symm
    exact took_target h fun houter => by cases hplain houter

end Took

/-! ### Runs of acts -/

section Run

variable {decls : List Surface.Decl}

mutual

/-- One act keeps scopes in step. -/
theorem act_run (a : Act) : ∀ {r : Resolver} {front : List Act} {outer : List (List Act)},
    Config decls r (front :: outer) → (outer = [] → a.isPlain = true) →
    Config decls (r.steps a.events) ((front ++ [a]) :: outer) ∧ r.Extends (r.steps a.events) := by
  intro r front outer h hplain
  have hname : ∀ {e n}, a.events = [e] → a.name? = some n →
      Config decls (r.steps a.events) ((front ++ [a]) :: outer) ∧ r.Extends (r.steps a.events) := by
    intro e n he hn
    have htook := step_took h he hn hplain
    rw [he]
    exact ⟨htook.config, htook.grows⟩
  cases a with
  | scope inner =>
    obtain ⟨hinner, hgrows⟩ := acts_run inner h.enter (by simp)
    have hleave := hinner.leave (by simp)
    have henter : r.Extends (r.step .enter) := ⟨fun _ h => h, fun _ _ h => h, fun _ _ h => h⟩
    simp only [Act.events, steps_cons, steps_append, steps_nil]
    exact ⟨hleave.concat fun _ => rfl, (henter.trans hgrows).trans (hinner.extends_leave (by simp))⟩
  | value n | target n | declare kind n | use n => exact hname (by rw [Act.events]) rfl

theorem acts_run (as : List Act) : ∀ {r : Resolver} {front : List Act} {outer : List (List Act)},
    Config decls r (front :: outer) → (outer = [] → ∀ a ∈ as, a.isPlain = true) →
    Config decls (r.steps (Act.allEvents as)) ((front ++ as) :: outer) ∧
      r.Extends (r.steps (Act.allEvents as)) := by
  intro r front outer h hplain
  cases as with
  | nil => simpa using ⟨h, .refl r⟩
  | cons a as =>
    obtain ⟨ha, hgrows⟩ := act_run a h fun houter => hplain houter a List.mem_cons_self
    obtain ⟨has, hgrows'⟩ := acts_run as ha fun houter b hb =>
      hplain houter b (List.mem_cons_of_mem a hb)
    rw [Act.allEvents_cons, steps_append]
    exact ⟨by simpa using has, hgrows.trans hgrows'⟩

end

/-- A name among acts means what it should when the acts are done. -/
theorem meant_of_at {outer around : List (List Act)} {as front : List Act} {a : Act} {n : Name}
    (h : Act.At outer as front around a) (hn : a.name? = some n) {r : Resolver}
    (hr : Config decls r ([] :: outer)) (hplain : outer = [] → ∀ b ∈ as, b.isPlain = true) :
    ∃ binding, ⟨n.text, binding, n.span⟩ ∈ (r.steps (Act.allEvents as)).idents ∧
      (r.steps (Act.allEvents as)).Meant front around a n binding := by
  induction h generalizing r with
  | here outer before a after =>
    obtain ⟨hbefore, -⟩ := acts_run before hr fun houter b hb => hplain houter b (by simp [hb])
    obtain ⟨e, he⟩ : ∃ e, a.events = [e] := by
      cases a with
      | scope => cases hn
      | _ => exact ⟨_, by rw [Act.events]⟩
    have htook := step_took hbefore he hn fun houter => hplain houter a (by simp)
    obtain ⟨-, hgrows⟩ := acts_run after htook.config fun houter b hb =>
      hplain houter b (by simp [hb])
    obtain ⟨binding, hmem, hmeant⟩ := htook.meant
    rw [Act.allEvents_append, Act.allEvents_cons, he, steps_append, steps_append, steps_cons,
      steps_nil]
    exact ⟨binding, hgrows.idents _ hmem, hmeant.mono hgrows⟩
  | @inside outer around inner front a before after _ ih =>
    obtain ⟨hbefore, -⟩ := acts_run before hr fun houter b hb => hplain houter b (by simp [hb])
    obtain ⟨binding, hmem, hmeant⟩ := ih hn hbefore.enter (by simp)
    obtain ⟨hinner, -⟩ := acts_run inner hbefore.enter (by simp)
    obtain ⟨hscope, -⟩ := act_run (.scope inner) hbefore fun _ => rfl
    obtain ⟨-, hgrows⟩ := acts_run after hscope fun houter b hb => hplain houter b (by simp [hb])
    simp only [Act.events, steps_cons, steps_append, steps_nil] at hgrows
    simp only [Act.allEvents_append, Act.allEvents_cons, Act.events, steps_append, steps_cons,
      steps_nil]
    have hleave := (hinner.extends_leave (by simp)).trans hgrows
    exact ⟨binding, hleave.idents _ hmem, hmeant.mono hleave⟩

end Run

end Resolver

/-! ### Acts of a file -/

namespace Act

variable {outer : List (List Act)} {as : List Act}

theorem At.cons {front : List Act} {around : List (List Act)} {a : Act}
    (h : At outer as front around a) (b : Act) :
    ∃ front around, At outer (b :: as) front around a := by
  cases h with
  | here => exact ⟨_, _, .here outer (b :: front) a _⟩
  | @inside _ around inner front _ before after h =>
    -- What is around the inner acts has one more act in it.
    have hmore : ∀ {os as front around a}, At os as front around a → ∀ os', ∃ front around,
        At os' as front around a := by
      intro os as front around a h
      induction h with
      | here _ before a after => exact fun os' => ⟨_, _, .here os' before a after⟩
      | inside before after _ ih =>
        intro os'
        obtain ⟨front, around, h⟩ := ih (_ :: os')
        exact ⟨front, around, .inside before after h⟩
    obtain ⟨front, around, h⟩ := hmore h ((b :: before) :: outer)
    exact ⟨front, around, .inside (b :: before) after h⟩

mutual

/-- Every word of acts is the name of one of them. -/
theorem exists_at_of_mem_words (as : List Act) {w : Surface.Word} (hw : w ∈ words as) :
    ∀ outer, ∃ front around a, At outer as front around a ∧ a.name? = some w.name := by
  intro outer
  cases as with
  | nil => simp at hw
  | cons a as =>
    rw [words, allEvents_cons, Event.words_append, List.mem_append] at hw
    rcases hw with hw | hw
    · exact exists_at_of_mem_events a hw outer as
    · obtain ⟨front, around, b, hb, hname⟩ := exists_at_of_mem_words as hw outer
      obtain ⟨front, around, hb⟩ := hb.cons a
      exact ⟨front, around, b, hb, hname⟩

theorem exists_at_of_mem_events (a : Act) {w : Surface.Word} (hw : w ∈ Event.words a.events) :
    ∀ outer after, ∃ front around b, At outer (a :: after) front around b ∧
      b.name? = some w.name := by
  intro outer after
  have hhere : a.name? = some w.name → ∃ front around b, At outer (a :: after) front around b ∧
      b.name? = some w.name := fun hname => ⟨_, _, a, .here outer [] a after, hname⟩
  cases a with
  | scope inner =>
    have hinner : w ∈ words inner := by
      simpa [words, events, Event.words, List.filterMap_cons, Event.word?] using hw
    obtain ⟨front, around, b, hb, hname⟩ := exists_at_of_mem_words inner hinner ([] :: outer)
    exact ⟨front, around, b, .inside [] after hb, hname⟩
  | value n | target n | declare kind n | use n =>
    obtain rfl : w = _ := by simpa [events, Event.words, Event.word?] using hw
    exact hhere rfl

end

end Act

namespace Surface

mutual

theorem isPlain_exprActs (text : Span → String) (e : Expr) :
    ∀ a ∈ exprActs text e, a.isPlain = true := by
  cases e with
  | ident name => simp [exprActs, Act.isPlain]
  | literal span => simp [exprActs]
  | unary span op operand => simpa [exprActs] using isPlain_exprActs text operand
  | binary span op left right =>
    simpa [exprActs] using List.forall_mem_append.mpr ⟨isPlain_exprActs text left,
      isPlain_exprActs text right⟩
  | call span callee args =>
    simpa [exprActs] using List.forall_mem_append.mpr ⟨isPlain_exprActs text callee,
      isPlain_exprsActs text args⟩
  | selector span operand field => simpa [exprActs] using isPlain_exprActs text operand
  | paren span inner => simpa [exprActs] using isPlain_exprActs text inner
  | closure span params body => simp [exprActs, Act.isPlain]
  | keyed span key value =>
    simpa [exprActs] using List.forall_mem_append.mpr ⟨isPlain_exprActs text key,
      isPlain_exprActs text value⟩
  | group span parts => simpa [exprActs] using isPlain_exprsActs text parts
  | typeName name => simp [exprActs]
  | key name => by_cases h : name.text = nilName <;> simp [exprActs, h, Act.isPlain]
  | either name asType asValue =>
    by_cases h : name.text = nilName
    · simpa [exprActs, h] using isPlain_exprActs text asValue
    · simpa [exprActs, h] using isPlain_exprActs text asType

theorem isPlain_exprsActs (text : Span → String) (es : List Expr) :
    ∀ a ∈ exprsActs text es, a.isPlain = true := by
  cases es with
  | nil => simp [exprsActs]
  | cons e es =>
    rw [exprsActs]
    exact List.forall_mem_append.mpr ⟨isPlain_exprActs text e, isPlain_exprsActs text es⟩

end

theorem isPlain_globalsActs (text : Span → String) (specs : List Spec) :
    ∀ a ∈ globalsActs text specs, a.isPlain = true := by
  induction specs with
  | nil => simp [globalsActs]
  | cons spec specs ih =>
    obtain ⟨names, values⟩ := spec
    rw [globalsActs, List.append_assoc]
    refine List.forall_mem_append.mpr ⟨isPlain_exprsActs text values,
      List.forall_mem_append.mpr ⟨fun a ha => ?_, ih⟩⟩
    obtain ⟨n, -, rfl⟩ := List.mem_map.mp ha
    rfl

/-- The acts of a file itself declare nothing. -/
theorem isPlain_declsActs (text : Span → String) (decls : List Decl) :
    ∀ a ∈ declsActs text decls, a.isPlain = true := by
  intro a ha
  obtain ⟨d, -, ha⟩ := List.mem_flatMap.mp ha
  cases d with
  | func span method n params body =>
    obtain rfl := List.mem_singleton.mp ha
    rfl
  | vars span kind specs => exact isPlain_globalsActs text specs a ha

end Surface

/-! ### Files -/

namespace File

/-- What the name of an act is bound to. A name that is declared where it stands has a binding of
its own. One that means a declaration has the binding of that one, and if there is none, the one
binding that the file has for the name, which `own` gives. -/
def Binds (f : File) (decls : List Surface.Decl) (own : String → BindingId) (front : List Act)
    (around : List (List Act)) (a : Act) (n : Name) (binding : Option BindingId) : Prop :=
  match a.fate front with
  | .unbound => binding = none
  | .fresh kind => ∃ b, binding = some b ∧ f.bindings[b]? = some ⟨n.text, kind, some n.span⟩
  | .resolved => match Act.chosen n.text (front :: around) with
    | some d => ∃ b, binding = some b ∧ ⟨d.text, some b, d.span⟩ ∈ f.idents
    | none => binding = some (own n.text) ∧
        f.bindings[own n.text]? = some (Surface.fileBinding decls n.text)

theorem Origin.config {f : File} {path source : String} {decls : List Surface.Decl}
    {ts : List Token} {es : List Event} (h : f.Origin path source decls ts es) :
    Resolver.Config decls (.start source.toList decls) [[]] := by
  have hknown : ∀ g ∈ decls.flatMap Surface.Decl.globals, g.2 ≠ .external := by
    intro g hg
    obtain ⟨d, hd, hg⟩ := List.mem_flatMap.mp hg
    obtain ⟨_, _, _, -, hat⟩ := h.pieces.exists_of_mem hd
    exact hat.known g hg
  refine ⟨?_, (Scopes.ofDecls_declares hknown).fileFits⟩
  have hempty : (Scopes.ofDecls decls).inner = [] := by
    rw [Scopes.ofDecls]
    refine List.foldlRecOn (motive := fun s => Scopes.inner s = []) _ _ rfl fun s hs g _ => ?_
    simp only [Scopes.declareInFile]
    split <;> exact hs
  simp only [Resolver.start, hempty, List.nil_append]
  exact .cons (fun x => by simp) .nil

/-- Names are resolved lexically. The identifiers of a file are those of the acts of its source, and
each is bound as its place among the acts says. -/
theorem resolved_lexically {path source : String} {f : File}
    (h : File.ofSource? path source = some f) :
    ∃ decls, Surface.Decl.ofSource? source.toList = some decls ∧ f.StartsDistinct ∧
      (∀ x ∈ f.idents, ∃ front around a,
        Act.At [] (Surface.sourceActs source decls) front around a ∧
        a.name? = some ⟨x.name, x.span⟩) ∧
      ∃ own : String → BindingId, ∀ front around a n,
        Act.At [] (Surface.sourceActs source decls) front around a → a.name? = some n →
        ∃ binding, ⟨n.text, binding, n.span⟩ ∈ f.idents ∧
          f.Binds decls own front around a n binding := by
  obtain ⟨decls, ts, es, horigin⟩ := exists_origin h
  refine ⟨decls, horigin.surface_eq, horigin.startsDistinct, fun x hx => ?_, ?_⟩
  · obtain ⟨i, hi⟩ := Array.mem_iff_getElem?.mp hx
    have hname := congrArg (·[i]?) horigin.map_idents
    simp only [List.getElem?_map, Array.getElem?_toList, hi, Option.map_some] at hname
    obtain ⟨w, hw, hname⟩ := Option.map_eq_some_iff.mp hname.symm
    have hw : w ∈ Act.words (Surface.sourceActs source decls) := by
      rw [Act.words, ← horigin.events_eq]
      exact List.mem_of_getElem? hw
    obtain ⟨front, around, a, ha, hn⟩ := Act.exists_at_of_mem_words _ hw []
    exact ⟨front, around, a, ha, by rw [hn, hname]⟩
  · have hplain : ∀ a ∈ Surface.sourceActs source decls, a.isPlain = true :=
      Surface.isPlain_declsActs _ decls
    obtain ⟨hlast, -⟩ :=
      Resolver.acts_run (Surface.sourceActs source decls) horigin.config fun _ => hplain
    rw [← horigin.events_eq] at hlast
    refine ⟨fun x => (((Resolver.start source.toList decls).steps es).scopes.file.lookup x).getD 0,
      fun front around a n hat hn => ?_⟩
    obtain ⟨binding, hmem, hmeant⟩ := Resolver.meant_of_at hat hn horigin.config fun _ => hplain
    rw [← horigin.events_eq] at hmem hmeant
    refine ⟨binding, horigin.idents_eq ▸ hmem, ?_⟩
    unfold Binds
    unfold Resolver.Meant at hmeant
    rw [horigin.idents_eq, horigin.bindings_eq]
    cases hfate : a.fate front with
    | unbound => simpa only [hfate] using hmeant
    | fresh kind => simpa only [hfate] using hmeant
    | resolved =>
      cases hchosen : Act.chosen n.text (front :: around) with
      | some d => simpa only [hfate, hchosen] using hmeant
      | none =>
        simp only [hfate, hchosen] at hmeant ⊢
        obtain ⟨b, rfl, hlookup⟩ := hmeant
        rw [hlookup]
        exact ⟨rfl, hlast.file.of_lookup hlookup⟩

/-- A source with a variable that hides a parameter. -/
def shadowSource : String := "func f(a int)\x7b\x7ba:=a;a()\x7d;a()\x7d"

def shadowDecls : List Surface.Decl :=
  [.func ⟨0, 29, 1, 1⟩ false ⟨"f", ⟨5, 6, 1, 6⟩⟩ [⟨"a", ⟨7, 8, 1, 8⟩⟩]
    (some (.mk ⟨13, 29, 1, 14⟩
      [.block (.mk ⟨14, 24, 1, 15⟩
        [.assign ⟨15, 19, 1, 16⟩ .define [.ident ⟨"a", ⟨15, 16, 1, 16⟩⟩]
          [.ident ⟨"a", ⟨18, 19, 1, 19⟩⟩],
         .expr (.call ⟨20, 23, 1, 21⟩ (.ident ⟨"a", ⟨20, 21, 1, 21⟩⟩) [])]),
       .expr (.call ⟨25, 28, 1, 26⟩ (.ident ⟨"a", ⟨25, 26, 1, 26⟩⟩) [])]))]

theorem ofSource?_shadowSource :
    Surface.Decl.ofSource? shadowSource.toList = some shadowDecls := by
  have htokens : tokens shadowSource.toList = some
      [⟨.keyword, "func", ⟨0, 4, 1, 1⟩, false⟩, ⟨.name, "f", ⟨5, 6, 1, 6⟩, false⟩,
       ⟨.operator, "(", ⟨6, 7, 1, 7⟩, false⟩, ⟨.name, "a", ⟨7, 8, 1, 8⟩, false⟩,
       ⟨.name, "int", ⟨9, 12, 1, 10⟩, false⟩, ⟨.operator, ")", ⟨12, 13, 1, 13⟩, false⟩,
       ⟨.operator, "\x7b", ⟨13, 14, 1, 14⟩, false⟩, ⟨.operator, "\x7b", ⟨14, 15, 1, 15⟩, false⟩,
       ⟨.name, "a", ⟨15, 16, 1, 16⟩, false⟩, ⟨.operator, ":=", ⟨16, 18, 1, 17⟩, false⟩,
       ⟨.name, "a", ⟨18, 19, 1, 19⟩, false⟩, ⟨.operator, ";", ⟨19, 20, 1, 20⟩, false⟩,
       ⟨.name, "a", ⟨20, 21, 1, 21⟩, false⟩, ⟨.operator, "(", ⟨21, 22, 1, 22⟩, false⟩,
       ⟨.operator, ")", ⟨22, 23, 1, 23⟩, false⟩, ⟨.operator, "\x7d", ⟨23, 24, 1, 24⟩, false⟩,
       ⟨.operator, ";", ⟨24, 25, 1, 25⟩, false⟩, ⟨.name, "a", ⟨25, 26, 1, 26⟩, false⟩,
       ⟨.operator, "(", ⟨26, 27, 1, 27⟩, false⟩, ⟨.operator, ")", ⟨27, 28, 1, 28⟩, false⟩,
       ⟨.operator, "\x7d", ⟨28, 29, 1, 29⟩, false⟩] := by decide +kernel
  rw [Surface.Decl.ofSource?, htokens]
  cbv

/-- The acts of the source: in the function the parameter, a block, and a call. -/
theorem sourceActs_shadowSource : Surface.sourceActs shadowSource shadowDecls =
    [.scope [.declare .param ⟨"a", ⟨7, 8, 1, 8⟩⟩,
      .scope [.value ⟨"a", ⟨18, 19, 1, 19⟩⟩, .target ⟨"a", ⟨15, 16, 1, 16⟩⟩,
        .value ⟨"a", ⟨20, 21, 1, 21⟩⟩],
      .value ⟨"a", ⟨25, 26, 1, 26⟩⟩]] := rfl

/-- The call in the block is of the variable, and the one behind it is of the parameter. -/
theorem resolved_lexically_shadowSource : ∃ f, File.ofSource? "p.go" shadowSource = some f ∧
    (∃ b, ⟨"a", some b, ⟨20, 21, 1, 21⟩⟩ ∈ f.idents ∧ ⟨"a", some b, ⟨15, 16, 1, 16⟩⟩ ∈ f.idents) ∧
    ∃ b, ⟨"a", some b, ⟨25, 26, 1, 26⟩⟩ ∈ f.idents ∧ ⟨"a", some b, ⟨7, 8, 1, 8⟩⟩ ∈ f.idents := by
  obtain ⟨f, hf⟩ : ∃ f, File.ofSource? "p.go" shadowSource = some f := by
    rw [File.ofSource?, ofSource?_shadowSource]
    exact ⟨_, rfl⟩
  obtain ⟨decls, hdecls, -, -, own, hbinds⟩ := resolved_lexically hf
  obtain rfl : decls = shadowDecls := by simpa [ofSource?_shadowSource] using hdecls.symm
  rw [sourceActs_shadowSource] at hbinds
  obtain ⟨_, hinner, b, rfl, hvar⟩ := hbinds _ _ _ ⟨"a", ⟨20, 21, 1, 21⟩⟩
    (.inside [] [] (.inside [_] [_] (.here _ [_, _] _ []))) rfl
  obtain ⟨_, houter, c, rfl, hparam⟩ := hbinds _ _ _ ⟨"a", ⟨25, 26, 1, 26⟩⟩
    (.inside [] [] (.here _ [_, _] _ [])) rfl
  exact ⟨f, hf, ⟨b, hinner, hvar⟩, c, houter, hparam⟩

end File

end NilGuard.Go
