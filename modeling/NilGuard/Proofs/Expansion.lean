import NilGuard.Proofs.Paths
import NilGuard.Proofs.Reports

/-!
The files that arguments stand for. A listed path is what an argument is about, or leads down from
it to a file, and no two listed paths are the same. Still their files may be: a file can be reached
from the top, from the directory one is in with or without a dot in front, and over a directory
above. Among paths that never go up these are the only ways to list a file twice
(`pairwise_locate?`), so arguments that begin alike list each file once, and a run over them reports
and fixes it once.
-/

namespace NilGuard

open Report

namespace Workspace

open NilGuard.Path

/-- The names of files are single steps of paths. -/
def Named (w : Workspace) : Prop :=
  ∀ x ∈ w.files, ∀ s ∈ x.1, IsName s

variable {w : Workspace} {includeTests : Bool} {arg p : String} {args paths : List String}

/-! ### The files of one argument -/

theorem below?_eq_some {dir a way : Address} : below? dir a = some way ↔ a = dir ++ way := by
  unfold below?
  split_ifs with h
  · obtain ⟨rest, rfl⟩ := List.isPrefixOf_iff_prefix.mp h
    simp
  · refine ⟨nofun, ?_⟩
    rintro rfl
    simp at h

theorem mem_entries_of_isFile {dir rest : Address} {name : String}
    (h : w.isFile (dir ++ name :: rest) = true) : name ∈ w.entries dir := by
  obtain ⟨x, hx, hfile⟩ := isFile_iff.mp h
  rw [entries, List.mem_eraseDups, List.mem_filterMap]
  refine ⟨x.1, List.mem_append_left _ (List.mem_map_of_mem hx), ?_⟩
  rw [below?_eq_some.mpr hfile]
  rfl

/-- A walk meets the wanted files that are no further down than it goes and have no directory on the
way that is set aside. -/
theorem mem_walk {levels : Nat} {path : String} {dir : Address} :
    p ∈ w.walk includeTests levels path dir ↔ ∃ dirs name,
      w.isFile (dir ++ (dirs ++ [name])) = true ∧ dirs.length < levels ∧
      isWanted includeTests name = true ∧ (∀ d ∈ dirs, setAside d = false) ∧
      (dirs ++ [name]).foldl join path = p := by
  induction levels generalizing path dir with
  | zero => simp [walk]
  | succ levels ih =>
    simp only [walk, List.mem_flatMap, List.mem_append]
    constructor
    · rintro ⟨name, -, hp | hp⟩
      · split_ifs at hp with hfile
        · obtain ⟨hfile, hwanted⟩ := Bool.and_eq_true_iff.mp hfile
          obtain rfl := List.mem_singleton.mp hp
          exact ⟨[], name, hfile, Nat.succ_pos _, hwanted, by simp, rfl⟩
        · cases hp
      · split_ifs at hp with hdir
        · obtain ⟨-, hopen⟩ := Bool.and_eq_true_iff.mp hdir
          obtain ⟨dirs, last, hfile, hlt, hwanted, hdirs, rfl⟩ := ih.mp hp
          refine ⟨name :: dirs, last, by simpa using hfile, by simpa using hlt, hwanted, ?_, rfl⟩
          exact List.forall_mem_cons.mpr ⟨by simpa using hopen, hdirs⟩
        · cases hp
    · rintro ⟨dirs, name, hfile, hlt, hwanted, hdirs, rfl⟩
      cases dirs with
      | nil =>
        refine ⟨name, mem_entries_of_isFile hfile, .inl ?_⟩
        rw [List.nil_append] at hfile
        simp [hfile, hwanted]
      | cons d dirs =>
        obtain ⟨hd, hdirs⟩ := List.forall_mem_cons.mp hdirs
        refine ⟨d, mem_entries_of_isFile hfile, .inr ?_⟩
        -- what has a file below it is a directory, so the walk goes on there
        have hbelow : w.isFile ((dir ++ [d]) ++ (dirs ++ [name])) = true := by simpa using hfile
        have hdir : w.isDir (dir ++ [d]) = true := isDir_of_isFile hbelow (by simp)
        rw [if_pos (by simp [hdir, hd])]
        exact ih.mpr ⟨dirs, name, hbelow, Nat.lt_of_succ_lt_succ hlt, hwanted, hdirs, rfl⟩

theorem length_le_depth {a : Address} (h : w.isFile a = true) : a.length ≤ w.depth := by
  obtain ⟨x, hx, rfl⟩ := isFile_iff.mp h
  rw [depth]
  generalize w.files = files at hx
  induction files with
  | nil => cases hx
  | cons y ys ih =>
    rw [List.foldr_cons]
    rcases List.mem_cons.mp hx with rfl | hx
    · exact Nat.le_max_left ..
    · exact Nat.le_trans (ih hx) (Nat.le_max_right ..)

/-- A walk without a limit is stopped by the directories that are set aside alone; one that goes
down one level stays in the directory. -/
theorem mem_filesIn {recursive : Bool} {path : String} {dir : Address} :
    p ∈ w.filesIn recursive includeTests path dir ↔ ∃ dirs name,
      w.isFile (dir ++ (dirs ++ [name])) = true ∧ isWanted includeTests name = true ∧
      (recursive = true → ∀ d ∈ dirs, setAside d = false) ∧ (recursive = false → dirs = []) ∧
      (dirs ++ [name]).foldl join path = p := by
  rw [filesIn, mem_walk]
  refine exists_congr fun dirs => exists_congr fun name => and_congr_right fun hfile => ?_
  have hdepth : dirs.length < w.depth := by
    have hle := length_le_depth hfile
    simp only [List.length_append, List.length_singleton] at hle
    omega
  cases recursive with
  | true => simp [hdepth]
  | false =>
    simp only [Bool.false_eq_true, if_false, false_imp_iff, true_and, true_imp_iff,
      Nat.lt_one_iff, List.length_eq_zero_iff]
    constructor
    · rintro ⟨rfl, hwanted, -, hp⟩
      exact ⟨hwanted, rfl, hp⟩
    · rintro ⟨hwanted, rfl, hp⟩
      exact ⟨rfl, hwanted, by simp, hp⟩

/-- The path that an argument is about: the directory of a pattern, or the argument itself. -/
def subject (arg : String) : String :=
  (patternRoot? arg).getD arg

/-- What can come of one argument. -/
inductive Expands (w : Workspace) (includeTests : Bool) (arg : String) :
    Except Error (List String) → Prop where
  /-- A pattern, and the directory at its root. -/
  | below {root : String} {dir : Address} (hroot : patternRoot? arg = some root)
      (hlocate : w.locate? root = some dir) (hdir : w.isDir dir = true) :
      Expands w includeTests arg (.ok (w.filesIn true includeTests root dir))
  /-- A pattern whose root is no directory. -/
  | rootless {root : String} (hroot : patternRoot? arg = some root)
      (hnone : ∀ dir, w.locate? root = some dir → w.isDir dir = false) :
      Expands w includeTests arg (.error (.missing root))
  /-- A directory. -/
  | inside {dir : Address} (hroot : patternRoot? arg = none) (hlocate : w.locate? arg = some dir)
      (hdir : w.isDir dir = true) :
      Expands w includeTests arg (.ok (w.filesIn false includeTests arg dir))
  /-- A file. -/
  | file {a : Address} (hroot : patternRoot? arg = none) (hlocate : w.locate? arg = some a)
      (hfile : w.isFile a = true) (hdir : w.isDir a = false) :
      Expands w includeTests arg (.ok [arg])
  /-- Neither. -/
  | nothing (hroot : patternRoot? arg = none) (hnone : w.locate? arg = none) :
      Expands w includeTests arg (.error (.missing arg))

theorem expands_expandOne (w : Workspace) (includeTests : Bool) (arg : String) :
    w.Expands includeTests arg (w.expandOne includeTests arg) := by
  unfold expandOne
  split
  · next root hroot =>
    split
    · next dir hdir =>
      obtain ⟨hlocate, hdir⟩ := Option.filter_eq_some_iff.mp hdir
      exact .below hroot hlocate hdir
    · next hnone =>
      refine .rootless hroot fun dir hlocate => ?_
      simpa [hlocate] using hnone
  · next hroot =>
    split
    · next a ha =>
      split_ifs with hdir
      · exact .inside hroot ha hdir
      · -- a path leads to a file or to a directory, and here it is no directory
        exact .file hroot ha (by simpa [hdir] using isFile_or_isDir_of_locate? ha)
          (by simpa using hdir)
    · next hnone => exact .nothing hroot hnone

theorem expandOne_below {root : String} {dir : Address} (hroot : patternRoot? arg = some root)
    (hlocate : w.locate? root = some dir) (hdir : w.isDir dir = true) :
    w.expandOne includeTests arg = .ok (w.filesIn true includeTests root dir) := by
  simp only [expandOne, hroot, hlocate, Option.filter_some, hdir, if_true]

theorem expandOne_inside {dir : Address} (hroot : patternRoot? arg = none)
    (hlocate : w.locate? arg = some dir) (hdir : w.isDir dir = true) :
    w.expandOne includeTests arg = .ok (w.filesIn false includeTests arg dir) := by
  simp only [expandOne, hroot, hlocate, hdir, if_true]

/-- A path that an argument stands for leads from what the argument is about down to a file. -/
theorem exists_of_mem_expandOne {files : List String} (h : w.expandOne includeTests arg = .ok files)
    (hp : p ∈ files) : ∃ a way, w.locate? (subject arg) = some a ∧ w.isFile (a ++ way) = true ∧
      p = way.foldl join (subject arg) := by
  have hexpands := w.expands_expandOne includeTests arg
  rw [h] at hexpands
  cases hexpands with
  | below hroot hlocate hdir =>
    obtain ⟨dirs, name, hfile, -, -, -, rfl⟩ := mem_filesIn.mp hp
    exact ⟨_, dirs ++ [name], by simp [subject, hroot, hlocate], hfile, by simp [subject, hroot]⟩
  | inside hroot hlocate hdir =>
    obtain ⟨dirs, name, hfile, -, -, -, rfl⟩ := mem_filesIn.mp hp
    exact ⟨_, dirs ++ [name], by simp [subject, hroot, hlocate], hfile, by simp [subject, hroot]⟩
  | @file a hroot hlocate hfile hdir =>
    obtain rfl := List.mem_singleton.mp hp
    exact ⟨a, [], by simp [subject, hroot, hlocate], by simpa using hfile, by simp [subject, hroot]⟩

/-! ### The files of all arguments -/

theorem exists_of_expand (h : w.expand includeTests args = .ok paths) :
    ∃ found, args.mapM (w.expandOne includeTests) = .ok found ∧
      paths = (found.flatten.mergeSort le).eraseRepsBy same := by
  unfold expand at h
  cases hfound : args.mapM (w.expandOne includeTests) with
  | error e => simp [hfound, bind, Except.bind] at h
  | ok found =>
    rw [hfound] at h
    cases h
    exact ⟨found, rfl, rfl⟩

/-- What a loop over items gives are the results of the items. -/
theorem mem_of_mapM {α β ε : Type} {f : α → Except ε β} {as : List α} {bs : List β}
    (h : as.mapM f = .ok bs) {b : β} : b ∈ bs ↔ ∃ a ∈ as, f a = .ok b := by
  induction as generalizing bs with
  | nil =>
    cases h
    simp
  | cons a as ih =>
    rw [List.mapM_cons] at h
    cases ha : f a with
    | error e => simp [ha, bind, Except.bind] at h
    | ok b' =>
      cases has : as.mapM f with
      | error e => simp [ha, has, bind, Except.bind] at h
      | ok bs' =>
        rw [ha, has] at h
        cases h
        simp [ih has, ha, eq_comm]

theorem exists_of_mem_expand (h : w.expand includeTests args = .ok paths) (hp : p ∈ paths) :
    ∃ arg ∈ args, ∃ a way, w.locate? (subject arg) = some a ∧ w.isFile (a ++ way) = true ∧
      p = way.foldl join (subject arg) := by
  obtain ⟨found, hfound, rfl⟩ := exists_of_expand h
  have hp := List.mem_mergeSort.mp ((eraseRepsBy_sublist same _).subset hp)
  obtain ⟨files, hfiles, hp⟩ := List.mem_flatten.mp hp
  obtain ⟨arg, harg, hone⟩ := (mem_of_mapM hfound).mp hfiles
  exact ⟨arg, harg, exists_of_mem_expandOne hone hp⟩

/-- Listed paths are in order, and no two of them are the same. -/
theorem pairwise_expand (h : w.expand includeTests args = .ok paths) :
    paths.Pairwise fun p q => le p q = true ∧ same p q = false := by
  obtain ⟨found, -, rfl⟩ := exists_of_expand h
  apply eraseRepsBy_pairwise
  · exact fun _ _ _ => same_of_le
  · apply List.pairwise_mergeSort
    · exact fun _ _ _ => Path.le_trans
    · exact Path.le_total

/-- A listed path leads to a file, and it is spelled like what some argument is about. -/
theorem exists_spelled (hnamed : w.Named) (h : w.expand includeTests args = .ok paths)
    (hp : p ∈ paths) :
    ∃ a, w.locate? p = some a ∧ w.isFile a = true ∧ ∃ arg ∈ args, lead p = lead (subject arg) ∧
      (.up ∈ components p ↔ .up ∈ components (subject arg)) := by
  obtain ⟨arg, harg, a, way, hsubject, hfile, rfl⟩ := exists_of_mem_expand h hp
  have hway : ∀ s ∈ way, IsName s := by
    obtain ⟨x, hx, hxa⟩ := isFile_iff.mp hfile
    exact fun s hs => hnamed x hx s (by simp [hxa, hs])
  have hne := (exists_steps_of_locate? hsubject).1
  exact ⟨a ++ way, locate?_foldl_join hsubject hway hfile, hfile, arg, harg,
    lead_foldl_join hne hway, up_mem_foldl_join hne hway⟩

/-- Listed paths to one file begin differently, or one of them goes up. -/
theorem pairwise_locate? (hnamed : w.Named) (h : w.expand includeTests args = .ok paths) :
    paths.Pairwise fun p q => w.locate? p = w.locate? q →
      lead p ≠ lead q ∨ .up ∈ components p ∨ .up ∈ components q := by
  refine (pairwise_expand h).imp_of_mem fun {p q} hp hq hpq heq => ?_
  obtain ⟨a, hpa, -⟩ := exists_spelled hnamed h hp
  by_contra hspelled
  simp only [not_or, not_not] at hspelled
  obtain ⟨hlead, hup, hup'⟩ := hspelled
  have hsame := components_inj hlead hup hup' hpa (heq.symm.trans hpa)
  simp [same, hsame] at hpq

/-- Arguments that begin alike and never go up list each file once. -/
theorem distinct_of_alike (hnamed : w.Named) (h : w.expand includeTests args = .ok paths)
    {start : Option Component} (hargs : ∀ arg ∈ args, lead (subject arg) = start ∧
      .up ∉ components (subject arg)) : w.Distinct paths := by
  have hpaths : ∀ p ∈ paths, lead p = start ∧ .up ∉ components p := by
    intro p hp
    obtain ⟨-, -, -, arg, harg, hlead, hup⟩ := exists_spelled hnamed h hp
    exact ⟨hlead.trans (hargs arg harg).1, fun hmem => (hargs arg harg).2 (hup.mp hmem)⟩
  refine (pairwise_locate? hnamed h).imp_of_mem fun {p q} hp hq hpq heq => ?_
  obtain ⟨hlead, hup⟩ := hpaths p hp
  obtain ⟨hlead', hup'⟩ := hpaths q hq
  rcases hpq heq with hne | hmem | hmem
  · exact hne (hlead.trans hlead'.symm)
  · exact hup hmem
  · exact hup' hmem

/-! ### Runs over different files -/

variable {settings : Settings} {fixing : Bool} {r : RunReport}

theorem exists_reports (h : w.expand settings.includeTests args = .ok paths)
    (hdistinct : w.Distinct paths) (hrun : (w.run settings fixing args).1 = .ok r) :
    ∃ reports, w.AreReports settings fixing paths reports ∧ r = .ofFiles reports := by
  have hends := mayEnd_run w settings fixing args
  rw [hrun] at hends
  obtain ⟨paths', s, reports, hpaths, hfollows, hdone, rfl, -⟩ :=
    hends.exists_of_ok fun paths' hpaths => by
    rw [h] at hpaths
    cases hpaths
    exact hdistinct
  obtain rfl : paths = paths' := by simpa [h] using hpaths
  exact ⟨reports, areReports_of_examine (hfollows.reports_eq hdone), rfl⟩

theorem Distinct.inj (h : w.Distinct paths) {p q : String} (hp : p ∈ paths) (hq : q ∈ paths)
    (heq : w.locate? p = w.locate? q) : p = q :=
  List.inj_on_of_nodup_map (List.pairwise_map.mpr h) hp hq heq

/-- No two diagnostics are about one place of one file. -/
theorem AreReports.places_distinct {reports : List FileReport}
    (h : w.AreReports settings fixing paths reports) (hdistinct : w.Distinct paths) :
    (RunReport.ofFiles reports).diagnostics.Pairwise fun d d' =>
      ¬ (w.locate? d.location.file = w.locate? d'.location.file ∧
        d.location.line = d'.location.line ∧
        d.location.column = d'.location.column) := by
  have hfile : ∀ d ∈ (RunReport.ofFiles reports).diagnostics, d.location.file ∈ paths := by
    intro d hd
    obtain ⟨report, hreport, -, hfile, -⟩ := h.exists_report hd
    exact hfile ▸ h.paths_eq ▸ List.mem_map_of_mem hreport
  refine (h.diagnostics_before hdistinct).imp_of_mem fun {d d'} hd hd' hbefore hplace => ?_
  obtain ⟨hlocate, hline, hcolumn⟩ := hplace
  -- the diagnostics are ordered by the paths of their files, and one file has one path here
  have heq := hdistinct.inj (hfile d hd) (hfile d' hd') hlocate
  rcases hbefore with hlt | ⟨-, hahead⟩
  · exact absurd (heq ▸ hlt) (String.lt_irrefl _)
  · unfold Ahead at hahead
    omega

theorem AreReports.fixed_distinct {reports : List FileReport}
    (h : w.AreReports settings fixing paths reports) (hdistinct : w.Distinct paths) :
    (RunReport.ofFiles reports).fixed.Pairwise fun x y => w.locate? x.1 ≠ w.locate? y.1 := by
  rw [← h.paths_eq, Distinct, List.pairwise_map] at hdistinct
  refine (hdistinct.filter _).filterMap _ fun r r' hne x hx y hy => ?_
  obtain ⟨-, -, rfl⟩ := Option.map_eq_some_iff.mp hx
  obtain ⟨-, -, rfl⟩ := Option.map_eq_some_iff.mp hy
  exact hne

/-- A listed path leads to a file. Two listed paths that lead to one file begin differently, or one
of them goes up. So when all arguments begin alike and never go up, each file is listed once, each
place in it is reported once, and it is fixed once. -/
theorem files_listed_once (hnamed : w.Named) (h : w.expand settings.includeTests args = .ok paths) :
    (∀ p ∈ paths, w.hasFile p = true) ∧
    (paths.Pairwise fun p q => w.locate? p = w.locate? q →
      lead p ≠ lead q ∨ .up ∈ components p ∨ .up ∈ components q) ∧
    ∀ start, (∀ arg ∈ args, lead (subject arg) = start ∧ .up ∉ components (subject arg)) →
      w.Distinct paths ∧ ∀ fixing r, (w.run settings fixing args).1 = .ok r →
        (r.diagnostics.Pairwise fun d d' =>
          ¬ (w.locate? d.location.file = w.locate? d'.location.file ∧
            d.location.line = d'.location.line ∧ d.location.column = d'.location.column)) ∧
        r.fixed.Pairwise fun x y => w.locate? x.1 ≠ w.locate? y.1 := by
  refine ⟨fun p hp => ?_, pairwise_locate? hnamed h, fun start hargs => ?_⟩
  · obtain ⟨a, ha, hfile, -⟩ := exists_spelled hnamed h hp
    simp [hasFile, ha, hfile]
  · have hdistinct := distinct_of_alike hnamed h hargs
    refine ⟨hdistinct, fun fixing r hrun => ?_⟩
    obtain ⟨reports, hreports, rfl⟩ := exists_reports h hdistinct hrun
    exact ⟨hreports.places_distinct hdistinct, hreports.fixed_distinct hdistinct⟩

/-! ### Spellings -/

/-- Paths that are found in order stay in it. -/
theorem expand_of_pairwise {found : List (List String)}
    (hfound : args.mapM (w.expandOne includeTests) = .ok found)
    (hsorted : found.flatten.Pairwise fun p q => le p q = true) :
    w.expand includeTests args = .ok (found.flatten.eraseRepsBy same) := by
  unfold expand
  rw [hfound]
  change Except.ok ((found.flatten.mergeSort le).eraseRepsBy same) = _
  rw [List.mergeSort_of_pairwise hsorted]

/-- A file at the top and two more below a directory. -/
def spelledWorkspace : Workspace where
  files := [(["a.go"], .empty), (["d", "b.go"], .empty), (["d", "c", "e.go"], .empty)]

/-- One file is listed twice when it is spelled with and without a dot in front, from the top, or
over a directory above. -/
theorem file_listed_twice_spelledWorkspace :
    spelledWorkspace.expand true ["./a.go", "a.go"] = .ok ["./a.go", "a.go"] ∧
    spelledWorkspace.expand true ["/a.go", "a.go"] = .ok ["/a.go", "a.go"] ∧
    spelledWorkspace.expand true ["a.go", "d/../a.go"] = .ok ["a.go", "d/../a.go"] ∧
    ∀ p ∈ ["a.go", "./a.go", "/a.go", "d/../a.go"], spelledWorkspace.locate? p = some ["a.go"] := by
  have hdot : ["./a.go", "a.go"].mapM (spelledWorkspace.expandOne true) =
      .ok [["./a.go"], ["a.go"]] := rfl
  have htop : ["/a.go", "a.go"].mapM (spelledWorkspace.expandOne true) =
      .ok [["/a.go"], ["a.go"]] := rfl
  have hup : ["a.go", "d/../a.go"].mapM (spelledWorkspace.expandOne true)
      = .ok [["a.go"], ["d/../a.go"]] := rfl
  exact ⟨expand_of_pairwise hdot (by decide +kernel), expand_of_pairwise htop (by decide +kernel),
    expand_of_pairwise hup (by decide +kernel), by decide +kernel⟩

theorem expand_spelledWorkspace :
    spelledWorkspace.expand ({} : Settings).includeTests ["d", "d//b.go", "d/..."]
      = .ok ["d/b.go", "d/c/e.go"] := by
  have hlocate : spelledWorkspace.locate? "d" = some ["d"] := by decide +kernel
  have hdir : spelledWorkspace.expandOne true "d" = .ok ["d/b.go"] := by
    rw [expandOne_inside (by decide +kernel) hlocate rfl]
    have hfiles : spelledWorkspace.filesIn false true "d" ["d"] = ["d/b.go"] := by cbv
    rw [hfiles]
  have hpattern : spelledWorkspace.expandOne true "d/..." = .ok ["d/b.go", "d/c/e.go"] := by
    rw [expandOne_below (by decide +kernel) hlocate rfl]
    have hfiles : spelledWorkspace.filesIn true true "d" ["d"] = ["d/b.go", "d/c/e.go"] := by cbv
    rw [hfiles]
  have hfound : ["d", "d//b.go", "d/..."].mapM (spelledWorkspace.expandOne true)
      = .ok [["d/b.go"], ["d//b.go"], ["d/b.go", "d/c/e.go"]] := by
    rw [List.mapM_cons, hdir, List.mapM_cons, List.mapM_cons, hpattern]
    rfl
  exact expand_of_pairwise hfound (by decide +kernel)

/-- Files are listed once by arguments that overlap, and the two reads of one file are reported and
fixed once. -/
theorem files_listed_once_spelledWorkspace :
    (spelledWorkspace.expand ({} : Settings).includeTests ["d", "d//b.go", "d/..."]
        = .ok ["d/b.go", "d/c/e.go"] ∧ spelledWorkspace.Distinct ["d/b.go", "d/c/e.go"]) ∧
    ∃ r, (sampleWorkspace.run {} true ["p.go", "q.go"]).1 = .ok r ∧ r.diagnostics.length = 2 ∧
      (r.diagnostics.Pairwise fun d d' =>
        ¬ (sampleWorkspace.locate? d.location.file = sampleWorkspace.locate? d'.location.file ∧
          d.location.line = d'.location.line ∧ d.location.column = d'.location.column)) ∧
      r.fixed.Pairwise fun x y => sampleWorkspace.locate? x.1 ≠ sampleWorkspace.locate? y.1 := by
  have hspelled : spelledWorkspace.Named := by
    unfold Named
    decide +kernel
  have hsample : sampleWorkspace.Named := by
    unfold Named sampleWorkspace
    simp only [List.forall_mem_cons]
    decide +kernel
  obtain ⟨report, -, hskipped, hfixed, hrun⟩ := run_sampleWorkspace
  obtain ⟨_, hreports, heq⟩ := exists_reports expand_sampleWorkspace distinct_sampleWorkspace hrun
  refine ⟨⟨expand_spelledWorkspace, ?_⟩, _, hrun, ?_, ?_⟩
  · exact ((files_listed_once hspelled expand_spelledWorkspace).2.2 none (by decide +kernel)).1
  · rw [heq, ← hreports.fixedTotal_eq, ← heq]
    simp [RunReport.fixedTotal, RunReport.ofFiles, generatedReport, hskipped, hfixed]
  · exact ((files_listed_once hsample expand_sampleWorkspace).2.2 none (by decide +kernel)).2
      true _ hrun

end Workspace

end NilGuard
