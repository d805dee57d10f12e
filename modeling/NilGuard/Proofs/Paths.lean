import Mathlib.Data.List.Lex
import Mathlib.Data.Prod.Lex
import Mathlib.Data.String.Basic
import NilGuard.Workspace

/-!
Paths and where they lead. Paths are ordered by their components, and a step down into a directory
adds one component (`components_join`). A path that never goes up is known by what it begins with
and by its names, and it leads to the names below its start (`locate?_eq`). So two such paths that
begin alike and lead to one place are the same path.
-/

namespace NilGuard

namespace Path

/-- The name that a step goes down to. -/
def Component.text? : Component → Option String
  | .name s => some s
  | _ => none

/-! ### The order of paths -/

section Order

def Component.key : Component → Nat ×ₗ String
  | .name s => toLex (3, s)
  | c => toLex (c.rank, "")

theorem Component.key_injective : Function.Injective Component.key := by
  intro a b h
  cases a <;> cases b <;> simp_all [key, rank]

@[reducible]
def Component.linearOrder : LinearOrder Component :=
  LinearOrder.lift' Component.key Component.key_injective

attribute [local instance] Component.linearOrder

theorem Component.lt_iff {a b : Component} : a.lt b = true ↔ a < b := by
  change _ ↔ a.key < b.key
  cases a <;> cases b <;> simp [key, lt, rank, Prod.Lex.toLex_lt_toLex]

theorem le_iff {p q : String} : le p q = true ↔ components p ≤ components q := by
  have hlt : (fun a b : Component => a.lt b = true) = (· < ·) :=
    funext fun _ => funext fun _ => propext Component.lt_iff
  rw [le, Bool.not_eq_true', ← Bool.not_eq_true, ← not_lt, List.lex_eq_true_iff_lex, hlt]
  rfl

protected theorem le_trans {p q r : String} (hpq : le p q = true) (hqr : le q r = true) :
le p r = true := by
  rw [le_iff] at *
  exact hpq.trans hqr

protected theorem le_total (p q : String) : (le p q || le q p) = true := by
  rw [Bool.or_eq_true, le_iff, le_iff]
  exact LinearOrder.le_total _ _

/-- A path between two that are the same is the same. -/
theorem same_of_le {p q r : String} (hpq : le p q = true) (hqr : le q r = true)
    (hpr : same p r = true) : same p q = true := by
  rw [le_iff] at hpq hqr
  simp only [same, decide_eq_true_eq] at *
  exact hpq.antisymm (hpr ▸ hqr)

end Order

/-! ### The steps of a path -/

/-- A text that is one step down where it stands between slashes. -/
def IsName (s : String) : Prop :=
  s ∉ ["", ".", ".."] ∧ '/' ∉ s.toList

instance (s : String) : Decidable (IsName s) :=
  inferInstanceAs (Decidable (_ ∧ _))

theorem ofText_of_isName {s : String} (h : IsName s) : Component.ofText s = .name s := by
  obtain ⟨h, -⟩ := h
  unfold Component.ofText
  split <;> simp_all

theorem ofText_ne_root (s : String) : Component.ofText s ≠ .root := by
  unfold Component.ofText
  split <;> simp

/-- The steps of a path that is not empty, from the texts between its slashes. -/
def stepsOf : List (List Char) → List Component
  | [] :: parts => .root :: parts.map (Component.ofText ∘ String.ofList)
  | parts => parts.map (Component.ofText ∘ String.ofList)

theorem steps_eq {path : String} (h : path ≠ "") :
    steps path = stepsOf (path.toList.splitOn '/') := by
  have hparts : path.toList.splitOn '/' ≠ [[]] := by
    intro hparts
    have hpath : ['/'].intercalate (path.toList.splitOn '/') = path.toList :=
      List.intercalate_splitOn '/'
    rw [hparts] at hpath
    exact h (by simpa using hpath.symm)
  unfold steps
  split
  · next hnil => exact absurd hnil (List.splitOn_ne_nil _ _)
  · contradiction
  · next hroot => rw [hroot, stepsOf]
  · next hroot => rw [stepsOf]; exact hroot

theorem stepsOf_append {parts : List (List Char)} (h : parts ≠ []) (last : List Char) :
    stepsOf (parts ++ [last]) = stepsOf parts ++ [Component.ofText (String.ofList last)] := by
  match parts with
  | [] => contradiction
  | [] :: parts => simp [stepsOf]
  | (_ :: _) :: parts => simp [stepsOf]

theorem stepsOf_ne_nil {parts : List (List Char)} (h : parts ≠ []) : stepsOf parts ≠ [] := by
  match parts with
  | [] => contradiction
  | [] :: parts => simp [stepsOf]
  | (_ :: _) :: parts => simp [stepsOf]

theorem root_notMem_stepsOf_tail (parts : List (List Char)) : .root ∉ (stepsOf parts).tail := by
  have hnames : ∀ parts : List (List Char),
      .root ∉ parts.map (Component.ofText ∘ String.ofList) := by
    intro parts hroot
    obtain ⟨s, -, hs⟩ := List.mem_map.mp hroot
    exact ofText_ne_root _ hs
  match parts with
  | [] => simp [stepsOf]
  | [] :: parts => exact hnames parts
  | (_ :: _) :: parts => exact hnames parts

/-- Below a directory one more step goes down. A slash that ends the path of the directory does not
count. -/
theorem steps_join {dir name : String} (hdir : dir ≠ "") (hname : IsName name) :
    ∃ cs, cs ≠ [] ∧ steps (join dir name) = cs ++ [.name name] ∧
      (steps dir = cs ∨ steps dir = cs ++ [.here]) := by
  -- `front` is the path of the directory without a slash at its end
  obtain ⟨front, hjoin, hfront⟩ : ∃ front, (join dir name).toList = front ++ '/' :: name.toList ∧
      (dir.toList = front ∨ dir.toList = front ++ ['/']) := by
    unfold join
    split_ifs with hslash
    · have hlast : dir.toList.getLast? = some '/' := by simpa [hdir] using hslash
      obtain ⟨front, hfront⟩ := List.getLast?_eq_some_iff.mp hlast
      exact ⟨front, by simp [hfront], .inr hfront⟩
    · exact ⟨dir.toList, by simp, .inl rfl⟩
  have hsplit : ∀ cs : List Char, '/' ∉ cs →
      stepsOf ((front ++ '/' :: cs).splitOn '/')
        = stepsOf (front.splitOn '/') ++ [Component.ofText (String.ofList cs)] := by
    intro cs hcs
    rw [List.splitOn_append_cons_self, List.splitOn_eq_singleton hcs,
      stepsOf_append (List.splitOn_ne_nil _ _)]
  refine ⟨stepsOf (front.splitOn '/'), ?_, ?_, ?_⟩
  · exact stepsOf_ne_nil (List.splitOn_ne_nil _ _)
  · have hne : join dir name ≠ "" := by
      intro hempty
      simp [hempty] at hjoin
    rw [steps_eq hne, hjoin, hsplit _ hname.2, String.ofList_toList, ofText_of_isName hname]
  · rw [steps_eq hdir]
    rcases hfront with hfront | hfront
    · exact .inl (by rw [hfront])
    · exact .inr (by rw [hfront, hsplit [] (by simp)]; rfl)

theorem steps_ne_nil {path : String} (h : path ≠ "") : steps path ≠ [] := by
  rw [steps_eq h]
  exact stepsOf_ne_nil (List.splitOn_ne_nil _ _)

theorem root_notMem_steps_tail (path : String) : .root ∉ (steps path).tail := by
  by_cases h : path = ""
  · subst h
    decide
  · rw [steps_eq h]
    exact root_notMem_stepsOf_tail _

/-! ### The components of a path -/

theorem components_eq_filter {path : String} {first : Component} {rest : List Component}
    (h : steps path = first :: rest) : components path = first :: rest.filter (· ≠ .here) := by
  rw [components, h]

theorem components_ne_nil {path : String} (h : path ≠ "") : components path ≠ [] := by
  obtain ⟨first, rest, hsteps⟩ := List.exists_cons_of_ne_nil (steps_ne_nil h)
  rw [components_eq_filter hsteps]
  exact List.cons_ne_nil _ _

theorem components_join {dir name : String} (hdir : dir ≠ "") (hname : IsName name) :
    components (join dir name) = components dir ++ [.name name] := by
  obtain ⟨cs, hcs, hjoin, hsteps⟩ := steps_join hdir hname
  obtain ⟨first, rest, rfl⟩ := List.exists_cons_of_ne_nil hcs
  rw [components_eq_filter hjoin]
  rcases hsteps with hsteps | hsteps <;> rw [components_eq_filter hsteps] <;> simp

theorem join_ne_empty {dir name : String} (hname : IsName name) : join dir name ≠ "" := by
  have hne : name ≠ "" := fun h => hname.1 (by simp [h])
  unfold join
  split_ifs <;> simp [hne]

/-- The path of something that is reached from a directory by names. -/
theorem components_foldl_join {path : String} (hpath : path ≠ "") {way : List String}
    (hway : ∀ s ∈ way, IsName s) :
    components (way.foldl join path) = components path ++ way.map .name := by
  induction way generalizing path with
  | nil => simp
  | cons s way ih =>
    obtain ⟨hs, hway⟩ := List.forall_mem_cons.mp hway
    rw [List.foldl_cons, ih (join_ne_empty hs) hway, components_join hpath hs]
    simp

/-- What a path begins with, if that is no name. -/
def lead (path : String) : Option Component :=
  (components path).head?.filter (·.text?.isNone)

theorem lead_foldl_join {path : String} (hpath : path ≠ "") {way : List String}
    (hway : ∀ s ∈ way, IsName s) : lead (way.foldl join path) = lead path := by
  obtain ⟨first, rest, hcomponents⟩ := List.exists_cons_of_ne_nil (components_ne_nil hpath)
  rw [lead, lead, components_foldl_join hpath hway, hcomponents]
  rfl

theorem up_mem_foldl_join {path : String} (hpath : path ≠ "") {way : List String}
    (hway : ∀ s ∈ way, IsName s) :
    .up ∈ components (way.foldl join path) ↔ .up ∈ components path := by
  simp [components_foldl_join hpath hway]

/-- The names along a path. -/
def names (path : String) : List String :=
  (components path).filterMap Component.text?

theorem filter_here_eq {cs : List Component} (hroot : .root ∉ cs) (hup : .up ∉ cs) :
    cs.filter (· ≠ .here) = (cs.filterMap Component.text?).map .name := by
  induction cs with
  | nil => rfl
  | cons c cs ih =>
    have ih := ih (by simp_all) (by simp_all)
    cases c <;> simp_all [Component.text?, List.filterMap_cons]

/-- Behind its first step a path that never goes up has names only. -/
theorem exists_steps {path : String} (hpath : path ≠ "") (hup : .up ∉ components path) :
    ∃ first rest, steps path = first :: rest ∧ .root ∉ rest ∧ .up ∉ rest ∧
      components path = first :: (rest.filterMap Component.text?).map .name := by
  obtain ⟨first, rest, hsteps⟩ := List.exists_cons_of_ne_nil (steps_ne_nil hpath)
  have hroot : .root ∉ rest := by simpa [hsteps] using root_notMem_steps_tail path
  rw [components_eq_filter hsteps] at hup
  have hrest : .up ∉ rest := fun h => hup (.tail _ (List.mem_filter.mpr ⟨h, by simp⟩))
  refine ⟨first, rest, hsteps, hroot, hrest, ?_⟩
  rw [components_eq_filter hsteps, filter_here_eq hroot hrest]

theorem filterMap_text?_name (ns : List String) :
    (ns.map Component.name).filterMap Component.text? = ns := by
  simp [List.filterMap_map, Function.comp_def, Component.text?]

/-- A path that never goes up is what it begins with and its names. -/
theorem components_eq {path : String} (hpath : path ≠ "") (hup : .up ∉ components path) :
    components path = (lead path).toList ++ (names path).map .name := by
  obtain ⟨first, rest, -, -, -, hcomponents⟩ := exists_steps hpath hup
  rw [hcomponents] at hup
  rw [lead, names, hcomponents, List.filterMap_cons, filterMap_text?_name]
  cases first with
  | up => simp at hup
  | _ => rfl

end Path

namespace Workspace

open NilGuard.Path

variable {w : Workspace}

/-! ### Where paths lead -/

theorem follow?_append (a : Address) (cs ds : List Component) :
    w.follow? a (cs ++ ds) = (w.follow? a cs).bind fun b => w.follow? b ds := by
  induction cs generalizing a with
  | nil => rfl
  | cons c cs ih =>
    simp only [List.cons_append, follow?]
    split_ifs
    · cases c with
      | name s => simp only []; split_ifs <;> simp [ih]
      | _ => exact ih _
    · rfl

/-- Steps that neither start at the top nor go up lead down along their names. -/
theorem eq_of_follow? {a b : Address} {cs : List Component} (hroot : .root ∉ cs) (hup : .up ∉ cs)
    (h : w.follow? a cs = some b) : b = a ++ cs.filterMap Component.text? := by
  induction cs generalizing a with
  | nil =>
    simp only [follow?, Option.some.injEq] at h
    simp [h]
  | cons c cs ih =>
    have ih := fun {a} => @ih a (by simp_all) (by simp_all)
    simp only [follow?] at h
    split_ifs at h
    cases c with
    | root => simp at hroot
    | here => exact ih h
    | up => simp at hup
    | name s =>
      simp only at h
      split_ifs at h
      simp [ih h, Component.text?]

theorem exists_steps_of_locate? {path : String} {a : Address} (h : w.locate? path = some a) :
    path ≠ "" ∧ w.isDir w.current = true ∧ w.follow? w.current (steps path) = some a := by
  unfold locate? at h
  split_ifs at h with hempty
  have hpath : path ≠ "" := by simpa using hempty
  refine ⟨hpath, ?_, h⟩
  obtain ⟨first, rest, hsteps⟩ := List.exists_cons_of_ne_nil (steps_ne_nil hpath)
  by_contra hdir
  simp [hsteps, follow?, hdir] at h

/-- A path that never goes up leads to its names below the top or below the directory that paths
start from. -/
theorem locate?_eq {path : String} {a : Address} (hup : .up ∉ components path)
    (h : w.locate? path = some a) :
    a = (if lead path = some .root then [] else w.current) ++ names path := by
  obtain ⟨hpath, hdir, h⟩ := exists_steps_of_locate? h
  obtain ⟨first, rest, hsteps, hroot, hrest, hcomponents⟩ := exists_steps hpath hup
  rw [hcomponents] at hup
  rw [lead, names, hcomponents, List.head?_cons, List.filterMap_cons, filterMap_text?_name]
  simp only [hsteps, follow?, hdir, if_true] at h
  cases first with
  | root => simpa [Component.text?] using eq_of_follow? hroot hrest h
  | here => simpa [Component.text?] using eq_of_follow? hroot hrest h
  | up => simp at hup
  | name s =>
    simp only at h
    split_ifs at h
    simpa [Component.text?] using eq_of_follow? hroot hrest h

/-- Paths that begin alike, never go up and lead to one place are the same. -/
theorem components_inj {p q : String} {a : Address} (hlead : lead p = lead q)
    (hp : .up ∉ components p) (hq : .up ∉ components q) (hpa : w.locate? p = some a)
    (hqa : w.locate? q = some a) :
    components p = components q := by
  have hnames : names p = names q := by
    have := (locate?_eq hp hpa).symm.trans (locate?_eq hq hqa)
    rwa [hlead, List.append_cancel_left_eq] at this
  rw [components_eq (exists_steps_of_locate? hpa).1 hp,
    components_eq (exists_steps_of_locate? hqa).1 hq, hlead, hnames]

/-! ### Files and directories -/

theorem isFile_iff {a : Address} : w.isFile a = true ↔ ∃ x ∈ w.files, x.1 = a := by
  simp [isFile]

theorem isDir_iff {a : Address} :
    w.isDir a = true ↔ a = [] ∨ (∃ b ∈ w.dirs, a <+: b) ∨ ∃ x ∈ w.files, a <+: x.1 ∧ a ≠ x.1 := by
  simp [isDir, or_assoc]

theorem isDir_above {a b : Address} (h : w.isDir a = true) (hb : b <+: a) : w.isDir b = true := by
  rw [isDir_iff] at h ⊢
  obtain rfl | ⟨d, hd, had⟩ | ⟨x, hx, hax, hne⟩ := h
  · exact .inl (List.prefix_nil.mp hb)
  · exact .inr (.inl ⟨d, hd, hb.trans had⟩)
  · refine .inr (.inr ⟨x, hx, hb.trans hax, ?_⟩)
    rintro rfl
    exact hne (hax.eq_of_length_le hb.length_le)

/-- What a file stands in is a directory. -/
theorem isDir_of_isFile {a way : Address} (h : w.isFile (a ++ way) = true) (hway : way ≠ []) :
    w.isDir a = true := by
  obtain ⟨x, hx, hfile⟩ := isFile_iff.mp h
  exact isDir_iff.mpr (.inr (.inr ⟨x, hx, by simp [hfile], by simpa [hfile] using hway⟩))

theorem isFile_or_isDir_of_follow? {a b : Address} {cs : List Component}
    (ha : w.isFile a = true ∨ w.isDir a = true) (h : w.follow? a cs = some b) :
    w.isFile b = true ∨ w.isDir b = true := by
  induction cs generalizing a with
  | nil =>
    simp only [follow?, Option.some.injEq] at h
    exact h ▸ ha
  | cons c cs ih =>
    simp only [follow?] at h
    split_ifs at h with hdir
    cases c with
    | root => exact ih (.inr rfl) h
    | here => exact ih ha h
    | up =>
      have habove := List.dropLast_prefix a
      exact ih (.inr (isDir_above hdir habove)) h
    | name s =>
      simp only at h
      split_ifs at h with hs
      exact ih (by simpa using hs) h

/-- A path leads to a file or to a directory. -/
theorem isFile_or_isDir_of_locate? {path : String} {a : Address} (h : w.locate? path = some a) :
    w.isFile a = true ∨ w.isDir a = true := by
  obtain ⟨-, hdir, h⟩ := exists_steps_of_locate? h
  exact isFile_or_isDir_of_follow? (.inr hdir) h

/-- One step down leads from a directory to what is in it. -/
theorem locate?_join {dir name : String} {a : Address} (hdir : w.locate? dir = some a)
    (ha : w.isDir a = true) (hname : IsName name)
    (hin : w.isFile (a ++ [name]) = true ∨ w.isDir (a ++ [name]) = true) :
    w.locate? (join dir name) = some (a ++ [name]) := by
  obtain ⟨hne, -, hdir⟩ := exists_steps_of_locate? hdir
  obtain ⟨cs, -, hjoin, hsteps⟩ := steps_join hne hname
  have hcs : w.follow? w.current cs = some a := by
    rcases hsteps with hsteps | hsteps
    · rw [← hsteps, hdir]
    · -- the step that a slash at the end stands for stays where it is
      rw [hsteps, follow?_append] at hdir
      obtain ⟨b, hb, hstay⟩ := Option.bind_eq_some_iff.mp hdir
      simp only [follow?] at hstay
      split_ifs at hstay
      rw [hb, hstay]
  rw [locate?, if_neg (by simpa using join_ne_empty hname), hjoin, follow?_append, hcs]
  simp [follow?, ha, hin]

/-- Names lead from a directory to the file below it. -/
theorem locate?_foldl_join {path : String} {a way : Address} (hpath : w.locate? path = some a)
    (hway : ∀ s ∈ way, IsName s) (hfile : w.isFile (a ++ way) = true) :
    w.locate? (way.foldl join path) = some (a ++ way) := by
  induction way generalizing path a with
  | nil => simpa using hpath
  | cons s way ih =>
    obtain ⟨hs, hway⟩ := List.forall_mem_cons.mp hway
    have ha := isDir_of_isFile hfile (List.cons_ne_nil _ _)
    rw [List.append_cons] at hfile ⊢
    refine ih (locate?_join hpath ha hs ?_) hway hfile
    by_cases hlast : way = []
    · exact .inl (by simpa [hlast] using hfile)
    · exact .inr (isDir_of_isFile hfile hlast)

end Workspace

end NilGuard
