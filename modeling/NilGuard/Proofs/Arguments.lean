import Mathlib.Data.List.DropRight
import NilGuard.Proofs.Expansion

/-!
What arguments stand for. An argument is a pattern, or a path to a directory or to a file
(`StandsFor`), or what it is about is missing (`Lacks`). The first argument that lacks something
ends the expansion. Otherwise a path is listed, in some spelling, exactly when an argument stands
for it.
-/

namespace NilGuard

namespace Path

/-- Of two different paths the one that comes no later comes first. -/
theorem lex_of_le {p q : String} (hle : le p q = true) (hne : same p q = false) :
    (components p).lex (components q) Component.lt = true := by
  have hnle : le q p ≠ true := by
    intro hge
    have hsame := same_of_le hle hge (by simp [same])
    rw [hne] at hsame
    cases hsame
  simpa [le] using hnle

end Path

namespace Workspace

open NilGuard.Path

/-- Names are single steps of paths, and a file has nothing below it. -/
structure IsTree (w : Workspace) : Prop where
  named : w.Named
  apart : ∀ a, w.isFile a = true → w.isDir a = false

variable {w : Workspace} {includeTests : Bool} {arg root p : String} {args paths : List String}

/-! ### Patterns -/

/-- An argument is a pattern: dots behind the path of its root. Slashes between the two do not
count, and where there is no path the root is the directory that one is in. -/
def IsPattern (arg root : String) : Prop :=
  ∃ front slashes : List Char, arg.toList = front ++ slashes ++ "...".toList ∧
    (∀ c ∈ slashes, c = '/') ∧ front.getLast? ≠ some '/' ∧
    root = if front = [] then "." else String.ofList front

theorem patternRoot?_eq {front slashes : List Char}
    (harg : arg.toList = front ++ slashes ++ "...".toList) (hslashes : ∀ c ∈ slashes, c = '/')
    (hfront : front.getLast? ≠ some '/') :
    patternRoot? arg = some (if front = [] then "." else String.ofList front) := by
  have htake : arg.toList.take (arg.toList.length - 3) = front ++ slashes := by
    have hlength : arg.toList.length = (front ++ slashes).length + 3 := by
      rw [harg, List.length_append]
      rfl
    rw [hlength, Nat.add_sub_cancel, harg, List.take_left]
  have htrim : ((front ++ slashes).reverse.dropWhile (· == '/')).reverse = front := by
    rw [List.reverse_append, List.dropWhile_append_of_pos (by simpa using hslashes)]
    cases hlast : front.reverse with
    | nil => simpa using hlast
    | cons c cs =>
      have hc : c ≠ '/' := by
        rintro rfl
        exact hfront (by simp [← List.head?_reverse, hlast])
      rw [List.dropWhile_cons_of_neg (by simpa using hc), ← hlast, List.reverse_reverse]
  have hsuffix : "...".toList.isSuffixOf arg.toList = true :=
    List.isSuffixOf_iff_suffix.mpr ⟨_, harg.symm⟩
  simp only [patternRoot?, hsuffix, if_true, htake, htrim, List.isEmpty_iff]

theorem patternRoot?_eq_some : patternRoot? arg = some root ↔ IsPattern arg root := by
  constructor
  · intro h
    have hsuffix : "...".toList <:+ arg.toList := by
      by_contra hsuffix
      simp only [patternRoot?, List.isSuffixOf_iff_suffix, hsuffix, if_false] at h
      cases h
    obtain ⟨cs, hcs⟩ := hsuffix
    -- the slashes at the end of what stands before the dots
    have hsplit : arg.toList = cs.rdropWhile (· == '/') ++ cs.rtakeWhile (· == '/') ++
        "...".toList := by
      rw [List.rdropWhile_append_rtakeWhile, hcs]
    have hslashes : ∀ c ∈ cs.rtakeWhile (· == '/'), c = '/' := by
      intro c hc
      simpa using List.mem_rtakeWhile_imp hc
    have hfront : (cs.rdropWhile (· == '/')).getLast? ≠ some '/' := by
      intro hlast
      have hne : cs.rdropWhile (· == '/') ≠ [] := by
        intro hnil
        simp [hnil] at hlast
      rw [List.getLast?_eq_some_getLast hne, Option.some.injEq] at hlast
      exact List.rdropWhile_last_not (· == '/') cs hne (by simp [hlast])
    refine ⟨_, _, hsplit, hslashes, hfront, ?_⟩
    simpa [patternRoot?_eq hsplit hslashes hfront] using h.symm
  · rintro ⟨front, slashes, harg, hslashes, hfront, rfl⟩
    exact patternRoot?_eq harg hslashes hfront

theorem patternRoot?_eq_none : patternRoot? arg = none ↔ ∀ root, ¬ IsPattern arg root := by
  simp only [Option.eq_none_iff_forall_ne_some, ← patternRoot?_eq_some, ne_eq]

/-! ### Names -/

/-- The name of a Go file. Tests count only when they are asked for. -/
def IsSource (includeTests : Bool) (name : String) : Prop :=
  ".go".toList <:+ name.toList ∧ ("_test.go".toList <:+ name.toList → includeTests = true)

/-- The name of a directory that patterns do not enter. -/
def IsSkipped (name : String) : Prop :=
  name ∈ ["vendor", "testdata"] ∨ name.toList.head? ∈ [some '.', some '_']

theorem endsWith_iff {s t : String} : s.endsWith t = true ↔ t.toList <:+ s.toList := by
  rw [String.endsWith_eq_endsWith_toSlice, String.Slice.endsWith_string_iff]
  simp

theorem isWanted_iff {name : String} : isWanted includeTests name = true ↔
    IsSource includeTests name := by
  rw [isWanted, Bool.and_eq_true, Bool.or_eq_true, endsWith_iff, Bool.not_eq_true',
    ← Bool.not_eq_true, endsWith_iff, IsSource]
  tauto

theorem setAside_iff {name : String} : setAside name = true ↔ IsSkipped name := by
  have hstart : ∀ c : Char, name.startsWith (String.singleton c) = true ↔
      name.toList.head? = some c := by
    intro c
    rw [String.startsWith_string_iff]
    cases name.toList <;> simp [eq_comm]
  have hdot := hstart '.'
  have hlow := hstart '_'
  simp only [setAside, IsSkipped, Bool.or_eq_true, beq_iff_eq, List.mem_cons, List.not_mem_nil,
    or_false, or_assoc]
  rw [← hdot, ← hlow]
  rfl

/-! ### Single arguments -/

/-- Whether a path leads to a directory. -/
def hasDir (w : Workspace) (path : String) : Bool :=
  (w.locate? path).any w.isDir

/-- There is nothing where an argument points: neither a file nor a directory, or for a pattern no
directory at its root. -/
inductive Lacks (w : Workspace) (arg : String) : String → Prop where
  | path (harg : ∀ root, ¬ IsPattern arg root) (hfile : w.hasFile arg = false)
      (hdir : w.hasDir arg = false) : Lacks w arg arg
  | root {root : String} (harg : IsPattern arg root) (hdir : w.hasDir root = false) :
    Lacks w arg root

/-- An argument stands for a path, in whatever spelling. -/
inductive StandsFor (w : Workspace) (includeTests : Bool) (arg p : String) : Prop where
  /-- For a file, whatever its name. -/
  | file (harg : ∀ root, ¬ IsPattern arg root) (hfile : w.hasFile arg = true)
      (hp : components p = components arg)
  /-- For a Go file in a directory. -/
  | inside {dir : Address} {name : String} (harg : ∀ root, ¬ IsPattern arg root)
      (hdir : w.locate? arg = some dir) (hfile : w.isFile (dir ++ [name]) = true)
      (hname : IsSource includeTests name) (hp : components p = components arg ++ [.name name])
  /-- For a Go file below the root of a pattern, with no directory between the two that is
  skipped. -/
  | below {root : String} {dir : Address} {dirs : List String} {name : String}
      (harg : IsPattern arg root) (hdir : w.locate? root = some dir)
      (hfile : w.isFile (dir ++ dirs ++ [name]) = true) (hdirs : ∀ d ∈ dirs, ¬ IsSkipped d)
      (hname : IsSource includeTests name)
      (hp : components p = components root ++ (dirs ++ [name]).map .name)

theorem hasDir_of_locate? {path : String} {a : Address} (h : w.locate? path = some a) :
    w.hasDir path = w.isDir a := by
  simp [hasDir, h]

theorem hasFile_of_locate? {path : String} {a : Address} (h : w.locate? path = some a) :
    w.hasFile path = w.isFile a := by
  simp [hasFile, h]

theorem expandOne_eq_error {e : Error} :
    w.expandOne includeTests arg = .error e ↔ ∃ p, w.Lacks arg p ∧ e = .missing p := by
  have hexpands := w.expands_expandOne includeTests arg
  constructor
  · intro h
    rw [h] at hexpands
    cases hexpands with
    | @rootless root hroot hnone =>
      refine ⟨root, .root (patternRoot?_eq_some.mp hroot) ?_, rfl⟩
      cases hlocate : w.locate? root with
      | none => simp [hasDir, hlocate]
      | some dir => rw [hasDir_of_locate? hlocate, hnone dir hlocate]
    | nothing hroot hnone =>
      have hfile : w.hasFile arg = false := by simp [hasFile, hnone]
      have hdir : w.hasDir arg = false := by simp [hasDir, hnone]
      exact ⟨arg, .path (patternRoot?_eq_none.mp hroot) hfile hdir, rfl⟩
  · rintro ⟨p, hlacks, rfl⟩
    cases hlacks with
    | path harg hfile hdir =>
      have hnone : w.locate? arg = none := by
        by_contra hsome
        obtain ⟨a, ha⟩ := Option.ne_none_iff_exists'.mp hsome
        rw [hasFile_of_locate? ha] at hfile
        rw [hasDir_of_locate? ha] at hdir
        simpa [hfile, hdir] using isFile_or_isDir_of_locate? ha
      simp only [expandOne, patternRoot?_eq_none.mpr harg, hnone]
    | root harg hdir =>
      have hnone : (w.locate? p).filter w.isDir = none := by
        cases hlocate : w.locate? p with
        | none => rfl
        | some dir =>
          rw [hasDir_of_locate? hlocate] at hdir
          simp [hdir]
      simp only [expandOne, patternRoot?_eq_some.mpr harg, hnone]

/-- What a directory contributes, in any spelling. -/
theorem exists_mem_filesIn (hw : w.IsTree) {recursive : Bool} {path : String} {dir : Address}
    (hdir : w.locate? path = some dir) :
    (∃ q ∈ w.filesIn recursive includeTests path dir, same q p = true) ↔ ∃ dirs name,
      w.isFile (dir ++ dirs ++ [name]) = true ∧ IsSource includeTests name ∧
      (recursive = true → ∀ d ∈ dirs, ¬ IsSkipped d) ∧ (recursive = false → dirs = []) ∧
      components p = components path ++ (dirs ++ [name]).map .name := by
  have hpath := (exists_steps_of_locate? hdir).1
  have hspelled : ∀ {way : Address}, w.isFile (dir ++ way) = true →
      components (way.foldl join path) = components path ++ way.map .name := by
    intro way hfile
    refine components_foldl_join hpath fun s hs => ?_
    obtain ⟨x, hx, hxa⟩ := isFile_iff.mp hfile
    exact hw.named x hx s (by simp [hxa, hs])
  simp only [mem_filesIn, same, decide_eq_true_eq, isWanted_iff, ← setAside_iff,
    Bool.not_eq_true, List.append_assoc]
  constructor
  · rintro ⟨q, ⟨dirs, name, hfile, hname, hdirs, hflat, rfl⟩, hp⟩
    exact ⟨dirs, name, hfile, hname, hdirs, hflat, by rw [← hp, hspelled hfile]⟩
  · rintro ⟨dirs, name, hfile, hname, hdirs, hflat, hp⟩
    exact ⟨_, ⟨dirs, name, hfile, hname, hdirs, hflat, rfl⟩, by rw [hspelled hfile, hp]⟩

/-- What one argument gives is what it stands for. -/
theorem exists_mem_expandOne (hw : w.IsTree) {files : List String}
    (h : w.expandOne includeTests arg = .ok files) :
    (∃ q ∈ files, same q p = true) ↔ w.StandsFor includeTests arg p := by
  have hexpands := w.expands_expandOne includeTests arg
  rw [h] at hexpands
  cases hexpands with
  | @below root dir hroot hlocate hdir =>
    have harg := patternRoot?_eq_some.mp hroot
    rw [exists_mem_filesIn hw hlocate]
    constructor
    · rintro ⟨dirs, name, hfile, hname, hdirs, -, hp⟩
      exact .below harg hlocate hfile (hdirs rfl) hname hp
    · intro hstands
      cases hstands with
      | file hpath => exact absurd harg (hpath root)
      | inside hpath => exact absurd harg (hpath root)
      | @below root' dir' dirs name harg' hlocate' hfile hdirs hname hp =>
        obtain rfl : root = root' := by simpa [hroot] using patternRoot?_eq_some.mpr harg'
        obtain rfl : dir = dir' := by simpa [hlocate] using hlocate'
        exact ⟨dirs, name, hfile, hname, fun _ => hdirs, nofun, hp⟩
  | @inside dir hroot hlocate hdir =>
    have harg := patternRoot?_eq_none.mp hroot
    rw [exists_mem_filesIn hw hlocate]
    constructor
    · rintro ⟨dirs, name, hfile, hname, -, hflat, hp⟩
      obtain rfl := hflat rfl
      exact .inside harg hlocate (by simpa using hfile) hname (by simpa using hp)
    · intro hstands
      cases hstands with
      | file _ hfile =>
        -- in a tree a directory is no file
        rw [hasFile_of_locate? hlocate] at hfile
        simp [hw.apart dir hfile] at hdir
      | @inside dir' name _ hlocate' hfile hname hp =>
        obtain rfl : dir = dir' := by simpa [hlocate] using hlocate'
        exact ⟨[], name, by simpa using hfile, hname, nofun, fun _ => rfl, by simpa using hp⟩
      | @below root _ _ _ hpattern => exact absurd hpattern (harg root)
  | @file a hroot hlocate hfile hdir =>
    have harg := patternRoot?_eq_none.mp hroot
    simp only [List.mem_singleton, exists_eq_left, same, decide_eq_true_eq]
    constructor
    · intro hp
      exact .file harg (by rw [hasFile_of_locate? hlocate, hfile]) hp.symm
    · intro hstands
      cases hstands with
      | file _ _ hp => exact hp.symm
      | @inside dir _ _ hlocate' hinside =>
        -- a file has nothing below it
        obtain rfl : a = dir := by simpa [hlocate] using hlocate'
        rw [isDir_of_isFile hinside (List.cons_ne_nil _ _)] at hdir
        cases hdir
      | @below root _ _ _ hpattern => exact absurd hpattern (harg root)

/-! ### All arguments -/

/-- A loop fails where an item fails for the first time. -/
theorem failure?_mapM {α β ε : Type} (g : α → Except ε β) (as : List α) :
    failure? (as.mapM g) = as.findSome? fun a => failure? (g a) := by
  induction as with
  | nil => rfl
  | cons a as ih =>
    rw [List.mapM_cons, failure?_bind, List.findSome?_cons]
    cases g a with
    | error e => rfl
    | ok b => exact (failure?_bind_pure _ _).trans ih

theorem failure?_expandOne_eq_none (includeTests : Bool) :
    failure? (w.expandOne includeTests arg) = none ↔ ∀ p, ¬ w.Lacks arg p := by
  simp only [Option.eq_none_iff_forall_ne_some, ne_eq, failure?_eq_some, expandOne_eq_error]
  constructor
  · exact fun h p hp => h (.missing p) ⟨p, hp, rfl⟩
  · rintro h e ⟨p, hp, -⟩
    exact h p hp

/-- The first argument that lacks something ends the expansion. -/
theorem expand_eq_error {e : Error} : w.expand includeTests args = .error e ↔
    ∃ before arg after p, args = before ++ arg :: after ∧ (∀ a ∈ before, ∀ q, ¬ w.Lacks a q) ∧
      w.Lacks arg p ∧ e = .missing p := by
  rw [← failure?_eq_some, expand, failure?_bind_pure, failure?_mapM, List.findSome?_eq_some_iff]
  simp only [failure?_expandOne_eq_none, failure?_eq_some, expandOne_eq_error]
  constructor
  · rintro ⟨before, arg, after, hargs, ⟨p, hp, he⟩, hbefore⟩
    exact ⟨before, arg, after, p, hargs, hbefore, hp, he⟩
  · rintro ⟨before, arg, after, p, hargs, hbefore, hp, he⟩
    exact ⟨before, arg, after, hargs, ⟨p, hp, he⟩, hbefore⟩

/-- A path is listed, in some spelling, when an argument gives it. -/
theorem exists_mem_expand (h : w.expand includeTests args = .ok paths) :
    (∃ q ∈ paths, same q p = true) ↔
      ∃ arg ∈ args, ∃ files, w.expandOne includeTests arg = .ok files ∧ ∃ q ∈ files,
      same q p = true := by
  obtain ⟨found, hfound, rfl⟩ := exists_of_expand h
  constructor
  · rintro ⟨q, hq, hp⟩
    have hq := List.mem_mergeSort.mp ((eraseRepsBy_sublist same _).subset hq)
    obtain ⟨files, hfiles, hq⟩ := List.mem_flatten.mp hq
    obtain ⟨arg, harg, hone⟩ := (mem_of_mapM hfound).mp hfiles
    exact ⟨arg, harg, files, hone, q, hq, hp⟩
  · rintro ⟨arg, harg, files, hone, q, hq, hp⟩
    have hq := List.mem_flatten.mpr ⟨files, (mem_of_mapM hfound).mpr ⟨arg, harg, hone⟩, hq⟩
    obtain ⟨r, hr, hrq⟩ := exists_mem_eraseRepsBy (r := same) (by simp [same])
      (fun a b c hab hbc => by simp_all [same]) (List.mem_mergeSort.mpr hq)
    exact ⟨r, hr, by simp_all [same]⟩

/-- What arguments expand to. The first argument that lacks something is an error, with the path
that is missing. If there is none, the paths that are listed are in strict order, and a path is
listed, in some spelling, exactly when an argument stands for it. -/
theorem expand_characterized (hw : w.IsTree) (includeTests : Bool) (args : List String) :
    (∀ e, w.expand includeTests args = .error e ↔ ∃ before arg after p,
      args = before ++ arg :: after ∧ (∀ a ∈ before, ∀ q, ¬ w.Lacks a q) ∧ w.Lacks arg p ∧
        e = .missing p) ∧
    ((∀ arg ∈ args, ∀ p, ¬ w.Lacks arg p) → ∃ paths, w.expand includeTests args = .ok paths ∧
      (paths.Pairwise fun p q => (components p).lex (components q) Component.lt = true) ∧
      ∀ p, (∃ q ∈ paths, same q p = true) ↔ ∃ arg ∈ args, w.StandsFor includeTests arg p) := by
  refine ⟨fun e => expand_eq_error, fun hpresent => ?_⟩
  cases hexpand : w.expand includeTests args with
  | error e =>
    obtain ⟨before, arg, after, p, hargs, -, hlacks, -⟩ := expand_eq_error.mp hexpand
    exact absurd hlacks (hpresent arg (by simp [hargs]) p)
  | ok paths =>
    refine ⟨paths, rfl, (pairwise_expand hexpand).imp fun h => lex_of_le h.1 h.2, fun p => ?_⟩
    rw [exists_mem_expand hexpand]
    constructor
    · rintro ⟨arg, harg, files, hone, hlisted⟩
      exact ⟨arg, harg, (exists_mem_expandOne hw hone).mp hlisted⟩
    · rintro ⟨arg, harg, hstands⟩
      obtain ⟨files, hone⟩ :=
        failure?_eq_none.mp ((failure?_expandOne_eq_none _).mpr (hpresent arg harg))
      exact ⟨arg, harg, files, hone, (exists_mem_expandOne hw hone).mpr hstands⟩

/-- Sources at the top, below a directory, and below another one that patterns do not enter. -/
def mixedWorkspace : Workspace where
  files := [(["a.go"], .empty), (["notes.txt"], .empty), (["sub", "c.go"], .empty),
    (["sub", "vendor", "v.go"], .empty)]

theorem expand_mixedWorkspace :
    mixedWorkspace.expand true [".", "notes.txt", "sub/..."]
      = .ok ["./a.go", "notes.txt", "sub/c.go"] := by
  have hdir : mixedWorkspace.expandOne true "." = .ok ["./a.go"] := by
    have hlocate : mixedWorkspace.locate? "." = some [] := by decide +kernel
    have hfiles : mixedWorkspace.filesIn false true "." [] = ["./a.go"] := by cbv
    rw [expandOne_inside (by decide +kernel) hlocate rfl, hfiles]
  have hpattern : mixedWorkspace.expandOne true "sub/..." = .ok ["sub/c.go"] := by
    have hroot : patternRoot? "sub/..." = some "sub" := by decide +kernel
    have hlocate : mixedWorkspace.locate? "sub" = some ["sub"] := by decide +kernel
    have hfiles : mixedWorkspace.filesIn true true "sub" ["sub"] = ["sub/c.go"] := by cbv
    rw [expandOne_below hroot hlocate rfl, hfiles]
  have hfound : [".", "notes.txt", "sub/..."].mapM (mixedWorkspace.expandOne true)
      = .ok [["./a.go"], ["notes.txt"], ["sub/c.go"]] := by
    rw [List.mapM_cons, hdir, List.mapM_cons, List.mapM_cons, hpattern]
    rfl
  exact expand_of_pairwise hfound (by decide +kernel)

theorem isTree_mixedWorkspace : mixedWorkspace.IsTree where
  named := by
    unfold Named
    decide +kernel
  apart := by
    intro a ha
    obtain ⟨x, hx, rfl⟩ := isFile_iff.mp ha
    have hall : mixedWorkspace.files.all (fun x => !mixedWorkspace.isDir x.1) = true := by
      decide +kernel
    simpa using List.all_eq_true.mp hall x hx

/-- A directory, a text and a pattern. The pattern in the middle of the other arguments has no
root. -/
theorem expand_characterized_mixedWorkspace :
    mixedWorkspace.IsTree ∧
    mixedWorkspace.expand true ["notes.txt", "lost//...", "gone"] = .error (.missing "lost") ∧
    ∃ paths, mixedWorkspace.expand true [".", "notes.txt", "sub/..."] = .ok paths ∧
      paths = ["./a.go", "notes.txt", "sub/c.go"] ∧
      ∀ p, (∃ q ∈ paths, same q p = true) ↔
        ∃ arg ∈ [".", "notes.txt", "sub/..."], mixedWorkspace.StandsFor true arg p := by
  refine ⟨isTree_mixedWorkspace, ?_, ?_⟩
  · have herror :=
      (expand_characterized isTree_mixedWorkspace true ["notes.txt", "lost//...", "gone"]).1
    refine (herror _).mpr ⟨["notes.txt"], "lost//...", ["gone"], "lost", rfl, ?_, ?_, rfl⟩
    · rw [List.forall_mem_singleton]
      exact (failure?_expandOne_eq_none true).mp rfl
    · exact .root (patternRoot?_eq_some.mp (by decide +kernel)) (by decide +kernel)
  · have hlisted :=
      (expand_characterized isTree_mixedWorkspace true [".", "notes.txt", "sub/..."]).2
    obtain ⟨paths, hpaths, -, hiff⟩ := hlisted fun arg harg =>
      (failure?_expandOne_eq_none true).mp (by
        simp only [List.mem_cons, List.not_mem_nil, or_false] at harg
        rcases harg with rfl | rfl | rfl <;> rfl)
    refine ⟨paths, hpaths, ?_, hiff⟩
    simpa [expand_mixedWorkspace] using hpaths.symm

end Workspace

end NilGuard
