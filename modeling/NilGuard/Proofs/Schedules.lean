import NilGuard.Proofs.RoundTrip
import NilGuard.Workspace.Run

/-!
Runs over many files, in any order. A file is first read and checked, and its fixed text is written
later; other files may be read and written in between. As long as the files are different ones, the
workspace at any point is the first one with the fixed texts of the files that are done
(`Progress.Follows`): reading a file gives what it gave in the first workspace, whatever was written
elsewhere. So a run that is cut short leaves each file as it was or with its fixed text, and all
runs that end well give the same report and the same workspace (`fixing_in_any_order`).
-/

namespace NilGuard

open Report

/-! ### Reports on single files -/

section Reports

variable {path source : String} {settings : Settings} {fixing : Bool} {r : FileReport}

/-- What a report on a source has, whatever is found in it. -/
structure ReportsOn (path source : String) (settings : Settings) (r : FileReport) : Prop where
  path_eq : r.path = path
  source_eq : r.source = source
  skipped_eq : r.skipped = (settings.skipGenerated && isGenerated source)
  of_skipped : r.skipped = true → r.diagnostics = [] ∧ r.fixed = none

theorem reportsOn_of_checkSource (h : checkSource path source settings fixing = .ok r) :
    ReportsOn path source settings r := by
  obtain ⟨hskip, rfl⟩ | ⟨hskip, _, _, -, -, ⟨-, rfl⟩ | ⟨-, -, _, -, rfl⟩⟩ := checkSource_cases h
  · exact ⟨rfl, rfl, hskip.symm, fun _ => ⟨rfl, rfl⟩⟩
  · exact ⟨rfl, rfl, hskip.symm, nofun⟩
  · exact ⟨rfl, rfl, hskip.symm, nofun⟩

theorem ReportsOn.skipped_of_fixed (h : ReportsOn path source settings r) {text : String} {n : Nat}
    (hfixed : r.fixed = some (text, n)) : r.skipped = false := by
  by_contra hskipped
  rw [(h.of_skipped (by simpa using hskipped)).2] at hfixed
  cases hfixed

/-- Only fixing gives a fixed text. -/
theorem fixing_of_fixed (h : checkSource path source settings fixing = .ok r) {text : String}
    {n : Nat} (hfixed : r.fixed = some (text, n)) : fixing = true := by
  obtain ⟨-, rfl⟩ | ⟨-, _, _, -, -, ⟨-, rfl⟩ | ⟨hfixing, -⟩⟩ := checkSource_cases h
  · cases hfixed
  · cases hfixed
  · exact hfixing

theorem mem_fixed_ofFiles {reports : List FileReport} {n : Nat} :
    (path, n) ∈ (RunReport.ofFiles reports).fixed ↔
      ∃ r ∈ reports, r.path = path ∧ r.skipped = false ∧ ∃ text, r.fixed = some (text, n) := by
  simp only [RunReport.ofFiles, List.mem_filterMap, List.mem_filter, Option.map_eq_some_iff,
    Prod.exists, Prod.mk.injEq, Bool.not_eq_true']
  constructor
  · rintro ⟨r, ⟨hr, hskipped⟩, text, _, hfixed, rfl, rfl⟩
    exact ⟨r, hr, rfl, hskipped, text, hfixed⟩
  · rintro ⟨r, hr, rfl, hskipped, text, hfixed⟩
    exact ⟨r, ⟨hr, hskipped⟩, text, n, hfixed, rfl, rfl⟩

end Reports

namespace Workspace

/-! ### Other contents -/

/-- The workspace in which files have the contents that are given for them. -/
def rewrite (w : Workspace) (content : Address → Option ByteArray) : Workspace :=
  { w with files := w.files.map fun (a, old) => (a, (content a).getD old) }

section Rewrite

variable (w : Workspace) (content content' : Address → Option ByteArray)

@[simp] theorem current_rewrite : (w.rewrite content).current = w.current := rfl

@[simp] theorem dirs_rewrite : (w.rewrite content).dirs = w.dirs := rfl

@[simp] theorem map_fst_rewrite : (w.rewrite content).files.map (·.1) = w.files.map (·.1) := by
  simp [rewrite, Function.comp_def]

theorem lookup_rewrite (a : Address) :
    (w.rewrite content).files.lookup a = (w.files.lookup a).map fun old =>
      (content a).getD old := by
  simp only [rewrite]
  induction w.files with
  | nil => rfl
  | cons x xs ih =>
    obtain ⟨b, old⟩ := x
    rw [List.map_cons, List.lookup_cons, List.lookup_cons, ih]
    by_cases h : a = b
    · simp [h]
    · simp [beq_eq_false_iff_ne.mpr h]

theorem rewrite_rewrite : (w.rewrite content).rewrite content' =
    w.rewrite fun a => (content' a).or (content a) := by
  simp only [rewrite, List.map_map]
  congr 2
  funext ⟨a, old⟩
  cases h : content' a <;> simp [h]

theorem rewrite_none : (w.rewrite fun _ => none) = w := by
  simp [rewrite]

theorem replace_eq (a : Address) (new : ByteArray) :
    w.replace a new = w.rewrite fun b => if b = a then some new else none := by
  simp only [replace, rewrite]
  congr 2
  funext ⟨b, old⟩
  by_cases h : b = a <;> simp [h]

theorem isFile_rewrite (a : Address) : (w.rewrite content).isFile a = w.isFile a := by
  simp [isFile, rewrite, Function.comp_def]

theorem isDir_rewrite (a : Address) : (w.rewrite content).isDir a = w.isDir a := by
  simp [isDir, rewrite, Function.comp_def]

theorem follow?_rewrite (a : Address) (cs : List Path.Component) :
    (w.rewrite content).follow? a cs = w.follow? a cs := by
  induction cs generalizing a with
  | nil => rfl
  | cons c cs ih => cases c <;> simp only [follow?, isDir_rewrite, isFile_rewrite, ih]

@[simp] theorem locate?_rewrite (path : String) :
    (w.rewrite content).locate? path = w.locate? path := by
  simp only [locate?, current_rewrite, follow?_rewrite]

theorem text?_rewrite {a : Address} (h : content a = none) :
    (w.rewrite content).text? a = w.text? a := by
  simp [text?, lookup_rewrite, h]

end Rewrite

theorem text?_eq_some {w : Workspace} {a : Address} {source : String} :
    w.text? a = some source ↔ w.files.lookup a = some source.toUTF8 := by
  constructor
  · intro h
    obtain ⟨content, hcontent, hsource⟩ := Option.bind_eq_some_iff.mp h
    unfold String.fromUTF8? at hsource
    split at hsource
    · cases hsource
      exact hcontent
    · cases hsource
  · intro h
    rw [text?, h]
    exact dif_pos source.isValidUTF8

/-! ### Reading and writing one file -/

/-- What reading and checking a file gives. -/
def examine (w : Workspace) (settings : Settings) (fixing : Bool) (path : String) :
    Except Error (Address × FileReport) :=
  match w.locate? path with
  | none => .error (.missing path)
  | some a =>
    match w.text? a with
    | none => .error (.unreadable path)
    | some source => (checkSource path source settings fixing).map (a, ·)

/-- Gives a file its fixed text, if it has one. -/
def store (w : Workspace) (a : Address) (report : FileReport) : Workspace :=
  match report.fixed with
  | none => w
  | some (text, _) => w.replace a text.toUTF8

section Examine

variable {w : Workspace} {settings : Settings} {fixing : Bool} {path : String} {a : Address}
  {report : FileReport}

/-- A file is processed by reading and checking it and writing its fixed text at once. -/
theorem process_eq : w.process settings fixing path =
    match w.examine settings fixing path with
    | .error e => (.error e, w)
    | .ok (a, report) => (.ok report, w.store a report) := by
  unfold process examine
  cases w.locate? path with
  | none => rfl
  | some a =>
    dsimp only
    cases w.text? a with
    | none => rfl
    | some source =>
      dsimp only
      cases checkSource path source settings fixing with
      | error e => rfl
      | ok report =>
        simp only [Except.map, store]
        cases report.fixed <;> rfl

theorem examine_eq_ok : w.examine settings fixing path = .ok (a, report) ↔ ∃ source,
    w.locate? path = some a ∧ w.text? a = some source ∧
      checkSource path source settings fixing = .ok report := by
  constructor
  · intro h
    unfold examine at h
    split at h
    · cases h
    · next b hb =>
      split at h
      · cases h
      · next source hsource =>
        cases hcheck : checkSource path source settings fixing with
        | error e => simp [hcheck, Except.map] at h
        | ok report' =>
          simp only [hcheck, Except.map, Except.ok.injEq, Prod.mk.injEq] at h
          obtain ⟨rfl, rfl⟩ := h
          exact ⟨source, hb, hsource, hcheck⟩
  · rintro ⟨source, ha, hsource, hcheck⟩
    simp [examine, ha, hsource, hcheck, Except.map]

/-- What is written elsewhere does not count for a file. -/
theorem examine_rewrite {content : Address → Option ByteArray}
    (h : ∀ a, w.locate? path = some a → content a = none) :
    (w.rewrite content).examine settings fixing path = w.examine settings fixing path := by
  unfold examine
  rw [locate?_rewrite]
  cases ha : w.locate? path with
  | none => rfl
  | some a => simp only [text?_rewrite w content (h a ha)]

end Examine

/-! ### Runs -/

/-- How far a run is with one file. -/
inductive Task where
  | waiting
  /-- The file is read and checked, and its fixed text is not written yet. -/
  | checked (a : Address) (report : FileReport)
  | stored (report : FileReport)
  | failed (e : Error)

namespace Task

def ofExamined : Except Error (Address × FileReport) → Task
  | .error e => .failed e
  | .ok (a, report) => .checked a report

/-- The content that was written for a file. -/
def content? : Task → Option ByteArray
  | .stored report => report.fixed.map (·.1.toUTF8)
  | _ => none

/-- What is known of a file is what examining it gives. -/
def Fits (examined : Except Error (Address × FileReport)) : Task → Prop
  | .waiting => True
  | .checked a report => examined = .ok (a, report)
  | .stored report => ∃ a, examined = .ok (a, report)
  | .failed e => examined = .error e

@[simp] theorem content?_ofExamined (x : Except Error (Address × FileReport)) :
    (ofExamined x).content? = none := by
  cases x <;> rfl

theorem fits_ofExamined (x : Except Error (Address × FileReport)) : (ofExamined x).Fits x := by
  cases x <;> rfl

end Task

/-- A run on its way: the workspace as it is, and how far each file is. -/
structure Progress where
  workspace : Workspace
  tasks : List (String × Task)

/-- A run before it has read anything. -/
def Progress.start (w : Workspace) (paths : List String) : Progress :=
  ⟨w, paths.map (·, .waiting)⟩

/-- Any file that waits may be read next, and any file that is checked may be written next. -/
inductive Step (settings : Settings) (fixing : Bool) : Progress → Progress → Prop where
  | read (w : Workspace) (before after : List (String × Task)) (path : String) :
      Step settings fixing ⟨w, before ++ (path, .waiting) :: after⟩
        ⟨w, before ++ (path, .ofExamined (w.examine settings fixing path)) :: after⟩
  | write (w : Workspace) (before after : List (String × Task)) (path : String) (a : Address)
      (report : FileReport) :
      Step settings fixing ⟨w, before ++ (path, .checked a report) :: after⟩
        ⟨w.store a report, before ++ (path, .stored report) :: after⟩

/-- What can be reached by steps in some order. -/
abbrev Reaches (settings : Settings) (fixing : Bool) : Progress → Progress → Prop :=
  Relation.ReflTransGen (Step settings fixing)

/-- What tasks amount to: the reports on all files when all are done, or the error of one that
failed, wherever the others are then. -/
def AmountTo (tasks : List (String × Task)) : Except Error (List FileReport) → Prop
  | .ok reports => tasks.map (·.2) = reports.map .stored
  | .error e => ∃ path, (path, .failed e) ∈ tasks

/-- How a run may end, with the workspace it leaves. -/
inductive MayEnd (w : Workspace) (settings : Settings) (fixing : Bool) (args : List String) :
    Except Error RunReport → Workspace → Prop where
  | unexpanded {e : Error} (h : w.expand settings.includeTests args = .error e) :
      MayEnd w settings fixing args (.error e) w
  | ended {paths : List String} (h : w.expand settings.includeTests args = .ok paths) {s : Progress}
      (hs : Reaches settings fixing (.start w paths) s) {result : Except Error (List FileReport)}
      (hresult : AmountTo s.tasks result) :
      MayEnd w settings fixing args (result.map .ofFiles) s.workspace

/-- Paths that lead to different files. -/
def Distinct (w : Workspace) (paths : List String) : Prop :=
  paths.Pairwise fun p q => w.locate? p ≠ w.locate? q

/-! ### What was written -/

/-- The content that was written at an address. -/
def written (w : Workspace) (tasks : List (String × Task)) (a : Address) : Option ByteArray :=
  tasks.findSome? fun x => if w.locate? x.1 = some a then x.2.content? else none

section Written

variable {w : Workspace} {tasks before after : List (String × Task)} {path : String} {t : Task}
  {a : Address}

theorem exists_of_written {content : ByteArray} (h : w.written tasks a = some content) :
    ∃ path t, (path, t) ∈ tasks ∧ w.locate? path = some a ∧ t.content? = some content := by
  obtain ⟨⟨path, t⟩, hmem, ht⟩ := List.exists_of_findSome?_eq_some h
  dsimp only at ht
  split at ht
  · next ha => exact ⟨path, t, hmem, ha, ht⟩
  · cases ht

theorem written_append : w.written (before ++ after) a = (w.written before a).or
    (w.written after a) :=
  List.findSome?_append

theorem written_cons_of_ne (h : w.locate? path ≠ some a) :
    w.written ((path, t) :: after) a = w.written after a := by
  simp [written, h]

theorem written_eq_none (h : ∀ x ∈ tasks, w.locate? x.1 ≠ some a) : w.written tasks a = none := by
  simp only [written, List.findSome?_eq_none_iff]
  intro x hx
  exact if_neg (h x hx)

/-- Of different files only one writes at an address. -/
theorem written_eq (hdistinct : w.Distinct ((before ++ (path, t) :: after).map (·.1)))
    (ha : w.locate? path = some a) : w.written (before ++ (path, t) :: after) a = t.content? := by
  rw [Distinct, List.pairwise_map, List.pairwise_append, List.pairwise_cons] at hdistinct
  obtain ⟨-, ⟨hafter, -⟩, hbefore⟩ := hdistinct
  have hbefore : w.written before a = none :=
    written_eq_none fun x hx hxa => hbefore x hx _ List.mem_cons_self (hxa.trans ha.symm)
  have hafter : w.written after a = none :=
    written_eq_none fun x hx hxa => hafter x hx (ha.trans hxa.symm)
  rw [written_append, hbefore, Option.none_or]
  unfold written at hafter ⊢
  rw [List.findSome?_cons, if_pos ha, hafter]
  cases t.content? <;> rfl

theorem written_of_mem (hdistinct : w.Distinct (tasks.map (·.1))) (hmem : (path, t) ∈ tasks)
    (ha : w.locate? path = some a) : w.written tasks a = t.content? := by
  obtain ⟨before, after, rfl⟩ := List.append_of_mem hmem
  exact written_eq hdistinct ha

/-- A file that is passed on to another state with the same content leaves the contents alone. -/
theorem written_congr {t' : Task} (h : t'.content? = t.content?) :
    w.written (before ++ (path, t') :: after) = w.written (before ++ (path, t) :: after) := by
  funext a
  simp only [written, List.findSome?_append, List.findSome?_cons, h]

end Written

/-! ### What is kept on the way -/

/-- A run over paths is where it can be from a workspace: the workspace has the fixed texts of the
files that are done, and what is known of a file is what examining it in the first workspace
gives. -/
structure Progress.Follows (w : Workspace) (settings : Settings) (fixing : Bool)
    (paths : List String) (s : Progress) : Prop where
  paths_eq : s.tasks.map (·.1) = paths
  workspace_eq : s.workspace = w.rewrite (w.written s.tasks)
  fits : ∀ x ∈ s.tasks, x.2.Fits (w.examine settings fixing x.1)

section Follows

variable {w : Workspace} {settings : Settings} {fixing : Bool} {paths : List String}
  {s s' : Progress}

theorem Progress.follows_start : (Progress.start w paths).Follows w settings fixing paths where
  paths_eq := by simp [start, Function.comp_def]
  workspace_eq := by
    have hnone : w.written (start w paths).tasks = fun _ => none := by
      funext a
      simp [written, start, Task.content?]
    rw [hnone, rewrite_none]
    rfl
  fits x hx := by
    obtain ⟨path, -, rfl⟩ := List.mem_map.mp hx
    trivial

/-- Writing a fixed text adds it to what was written. -/
theorem store_rewrite {before after : List (String × Task)} {path : String} {a : Address}
    {report : FileReport}
    (hdistinct : w.Distinct ((before ++ (path, .checked a report) :: after).map (·.1)))
    (ha : w.locate? path = some a) :
    (w.rewrite (w.written (before ++ (path, .checked a report) :: after))).store a report =
      w.rewrite (w.written (before ++ (path, .stored report) :: after)) := by
  unfold store
  split
  · next hfixed =>
    have hcontent : (Task.stored report).content? = (Task.checked a report).content? := by
      simp [Task.content?, hfixed]
    rw [written_congr hcontent]
  · next text n hfixed =>
    rw [replace_eq, rewrite_rewrite]
    congr 1
    funext b
    by_cases hb : b = a
    · subst hb
      rw [written_eq (t := .stored report) (by simpa using hdistinct) ha]
      simp [Task.content?, hfixed]
    · have hne : w.locate? path ≠ some b := by rw [ha]; simpa using Ne.symm hb
      rw [if_neg hb, Option.none_or, written_append, written_append, written_cons_of_ne hne,
        written_cons_of_ne hne]

theorem Progress.Follows.step (hdistinct : w.Distinct paths) (h : s.Follows w settings fixing paths)
    (hs : Step settings fixing s s') : s'.Follows w settings fixing paths := by
  obtain ⟨rfl, hworkspace, hfits⟩ := h
  cases hs with
  | read w' before after path =>
    dsimp only at hworkspace hfits hdistinct
    subst hworkspace
    -- Nothing is written where the file stands, since it waits itself.
    have hexamine :
        (w.rewrite (w.written (before ++ (path, .waiting) :: after))).examine settings fixing path =
        w.examine settings fixing path :=
      examine_rewrite fun a ha => written_eq hdistinct ha
    rw [hexamine]
    refine ⟨by simp, ?_, ?_⟩
    · rw [written_congr (t := .waiting) (Task.content?_ofExamined _)]
    · rw [List.forall_mem_append, List.forall_mem_cons] at hfits ⊢
      exact ⟨hfits.1, Task.fits_ofExamined _, hfits.2.2⟩
  | write w' before after path a report =>
    dsimp only at hworkspace hfits hdistinct
    subst hworkspace
    rw [List.forall_mem_append, List.forall_mem_cons] at hfits
    obtain ⟨hbefore, hexamined, hafter⟩ := hfits
    obtain ⟨-, ha, -⟩ := examine_eq_ok.mp hexamined
    refine ⟨by simp, store_rewrite hdistinct ha, ?_⟩
    rw [List.forall_mem_append, List.forall_mem_cons]
    exact ⟨hbefore, ⟨a, hexamined⟩, hafter⟩

theorem Reaches.follows (hdistinct : w.Distinct paths)
    (h : Reaches settings fixing (.start w paths) s) : s.Follows w settings fixing paths := by
  induction h with
  | refl => exact Progress.follows_start
  | tail _ hstep ih => exact ih.step hdistinct hstep

/-- Files that are done have the reports that examining them gives. -/
theorem Progress.Follows.reports_eq (h : s.Follows w settings fixing paths)
    {reports : List FileReport} (hdone : AmountTo s.tasks (.ok reports)) :
    paths.map (fun path => (w.examine settings fixing path).map Prod.snd) = reports.map .ok := by
  obtain ⟨rfl, -, hfits⟩ := h
  replace hdone : s.tasks.map (·.2) = reports.map .stored := hdone
  generalize s.tasks = tasks at hfits hdone
  induction tasks generalizing reports with
  | nil =>
    cases reports with
    | nil => rfl
    | cons report reports => cases hdone
  | cons x tasks ih =>
    obtain ⟨path, t⟩ := x
    cases reports with
    | nil => cases hdone
    | cons report reports =>
      obtain ⟨ht, hrest⟩ := List.cons.inj hdone
      obtain rfl : t = .stored report := ht
      obtain ⟨⟨a, ha⟩, hfits⟩ := List.forall_mem_cons.mp hfits
      rw [List.map_cons, List.map_cons, List.map_cons, ih hfits hrest, ha]
      rfl

theorem Progress.Follows.exists_failed (h : s.Follows w settings fixing paths) {e : Error}
    (hfailed : AmountTo s.tasks (.error e)) :
    ∃ path ∈ paths, w.examine settings fixing path = .error e := by
  obtain ⟨rfl, -, hfits⟩ := h
  obtain ⟨path, hmem⟩ := hfailed
  exact ⟨path, List.mem_map_of_mem hmem, hfits _ hmem⟩

end Follows

/-! ### One file after the other -/

theorem AmountTo.cons {tasks : List (String × Task)} {result : Except Error (List FileReport)}
    (h : AmountTo tasks result) (path : String) (report : FileReport) :
    AmountTo ((path, .stored report) :: tasks) (result.map (report :: ·)) := by
  cases result with
  | error e =>
    obtain ⟨path', hmem⟩ := h
    exact ⟨path', List.mem_cons_of_mem _ hmem⟩
  | ok reports => exact congrArg (Task.stored report :: ·) h

/-- Processing files one after the other is one way to go on. -/
theorem reaches_processAll (settings : Settings) (fixing : Bool) (paths : List String)
    (w : Workspace) (before : List (String × Task)) :
    ∃ tasks, AmountTo tasks (processAll settings fixing paths w).1 ∧
      Reaches settings fixing ⟨w, before ++ paths.map (·, .waiting)⟩
        ⟨(processAll settings fixing paths w).2, before ++ tasks⟩ := by
  induction paths generalizing w before with
  | nil => exact ⟨[], rfl, .refl⟩
  | cons path paths ih =>
    have hread : Step settings fixing _ _ := .read w before (paths.map (·, .waiting)) path
    rw [processAll, process_eq]
    cases hexamined : w.examine settings fixing path with
    | error e =>
      rw [hexamined] at hread
      exact ⟨_, ⟨path, List.mem_cons_self⟩, .single hread⟩
    | ok x =>
      obtain ⟨a, report⟩ := x
      rw [hexamined] at hread
      have hwrite : Step settings fixing _ _ :=
        .write w before (paths.map (·, .waiting)) path a report
      obtain ⟨tasks, hamount, hreaches⟩ :=
        ih (w.store a report) (before ++ [(path, .stored report)])
      rw [List.append_assoc, List.append_assoc] at hreaches
      exact ⟨_, hamount.cons path report, .head hread (.head hwrite hreaches)⟩

/-- One file after the other is one of the orders. -/
theorem mayEnd_run (w : Workspace) (settings : Settings) (fixing : Bool) (args : List String) :
    w.MayEnd settings fixing args (w.run settings fixing args).1
      (w.run settings fixing args).2 := by
  rw [run]
  cases hexpand : w.expand settings.includeTests args with
  | error e => exact .unexpanded hexpand
  | ok paths =>
    obtain ⟨tasks, hamount, hreaches⟩ := reaches_processAll settings fixing paths w []
    exact .ended hexpand hreaches hamount

/-! ### What is left behind -/

/-- The fixed text of the file at an address, from its text before the run and a path that arguments
stand for. -/
def FixedText (w : Workspace) (settings : Settings) (args : List String) (a : Address)
    (text : String) :
    Prop :=
  ∃ paths path source report n, w.expand settings.includeTests args = .ok paths ∧ path ∈ paths ∧
    w.locate? path = some a ∧ w.text? a = some source ∧
    checkSource path source settings true = .ok report ∧ report.fixed = some (text, n)

section Left

variable {w : Workspace} {settings : Settings} {fixing : Bool} {args paths : List String}
  {s : Progress}

/-- What was written at an address is the fixed text of the file there. -/
theorem Progress.Follows.exists_of_written (h : s.Follows w settings fixing paths) {a : Address}
    {content : ByteArray} (hwritten : w.written s.tasks a = some content) :
    ∃ path source report text n, (path, .stored report) ∈ s.tasks ∧ w.locate? path = some a ∧
      w.text? a = some source ∧ fixing = true ∧ checkSource path source settings true = .ok report ∧
      report.fixed = some (text, n) ∧ content = text.toUTF8 := by
  obtain ⟨path, t, hmem, ha, hcontent⟩ := Workspace.exists_of_written hwritten
  cases t with
  | stored report =>
    obtain ⟨⟨text, n⟩, hfixed, rfl⟩ := Option.map_eq_some_iff.mp hcontent
    obtain ⟨a', hexamined⟩ := h.fits _ hmem
    obtain ⟨source, ha', hsource, hcheck⟩ := examine_eq_ok.mp hexamined
    obtain rfl : a' = a := by simpa [ha] using ha'.symm
    obtain rfl := fixing_of_fixed hcheck hfixed
    exact ⟨path, source, report, text, n, hmem, ha, hsource, rfl, hcheck, hfixed, rfl⟩
  | waiting | checked | failed => cases hcontent

theorem Progress.Follows.lookup_cases (h : s.Follows w settings fixing paths)
    (hexpand : w.expand settings.includeTests args = .ok paths) (a : Address) :
    s.workspace.files.lookup a = w.files.lookup a ∨
      ∃ text, w.FixedText settings args a text ∧ s.workspace.files.lookup a = some text.toUTF8 := by
  rw [h.workspace_eq, lookup_rewrite]
  cases hwritten : w.written s.tasks a with
  | none => exact .inl (by simp)
  | some content =>
    obtain ⟨path, source, report, text, n, hmem, ha, hsource, -, hcheck, hfixed, rfl⟩ :=
      h.exists_of_written hwritten
    have hpath : path ∈ paths := h.paths_eq ▸ List.mem_map_of_mem hmem
    exact .inr ⟨text, ⟨paths, path, source, report, n, hexpand, hpath, ha, hsource, hcheck, hfixed⟩,
      by simp [text?_eq_some.mp hsource]⟩

/-- When all files are done, those that changed are those with a fixed text. -/
theorem Progress.Follows.lookup_ne_iff (hdistinct : w.Distinct paths)
    (h : s.Follows w settings fixing paths) {reports : List FileReport}
    (hdone : AmountTo s.tasks (.ok reports)) (a : Address) :
    s.workspace.files.lookup a ≠ w.files.lookup a ↔
      ∃ path n, (path, n) ∈ (RunReport.ofFiles reports).fixed ∧ w.locate? path = some a := by
  replace hdone : s.tasks.map (·.2) = reports.map .stored := hdone
  rw [h.workspace_eq, lookup_rewrite]
  constructor
  · intro hne
    cases hwritten : w.written s.tasks a with
    | none => simp [hwritten] at hne
    | some content =>
      obtain ⟨path, source, report, text, n, hmem, ha, -, -, hcheck, hfixed, -⟩ :=
        h.exists_of_written hwritten
      have hreport : report ∈ reports := by
        have hstored : Task.stored report ∈ reports.map .stored :=
          hdone ▸ List.mem_map.mpr ⟨_, hmem, rfl⟩
        simpa using hstored
      have hon := reportsOn_of_checkSource hcheck
      exact ⟨path, n, mem_fixed_ofFiles.mpr ⟨report, hreport, hon.path_eq,
        hon.skipped_of_fixed hfixed, text, hfixed⟩, ha⟩
  · rintro ⟨path, n, hlisted, ha⟩
    obtain ⟨report, hreport, rfl, -, text, hfixed⟩ := mem_fixed_ofFiles.mp hlisted
    obtain ⟨⟨path, t⟩, hmem, ht⟩ :=
      List.mem_map.mp (hdone ▸ List.mem_map_of_mem (f := Task.stored) hreport)
    obtain rfl : t = .stored report := ht
    obtain ⟨a', hexamined⟩ := h.fits _ hmem
    obtain ⟨source, ha', hsource, hcheck⟩ := examine_eq_ok.mp hexamined
    rw [(reportsOn_of_checkSource hcheck).path_eq] at ha
    obtain rfl : a' = a := by simpa [ha] using ha'.symm
    have hwritten : w.written s.tasks a' = some text.toUTF8 := by
      rw [written_of_mem (h.paths_eq.symm ▸ hdistinct) hmem ha]
      simp [Task.content?, hfixed]
    obtain rfl := fixing_of_fixed hcheck hfixed
    have hne := ne_of_fixed hcheck hfixed
    rw [hwritten, text?_eq_some.mp hsource]
    simpa [String.ext_iff, String.toByteArray_inj] using hne

/-- A run that only checks writes nothing. -/
theorem Progress.Follows.workspace_of_checking (h : s.Follows w settings false paths) :
    s.workspace = w := by
  have hnone : w.written s.tasks = fun _ => none := by
    funext a
    cases hwritten : w.written s.tasks a with
    | none => rfl
    | some content =>
      obtain ⟨_, _, _, _, _, -, -, -, hfixing, -⟩ := h.exists_of_written hwritten
      cases hfixing
  rw [h.workspace_eq, hnone, rewrite_none]

/-- A run that ends well is done with all files. -/
theorem MayEnd.exists_of_ok {r : RunReport} {w' : Workspace}
    (hdistinct : ∀ paths, w.expand settings.includeTests args = .ok paths → w.Distinct paths)
    (h : w.MayEnd settings fixing args (.ok r) w') :
    ∃ (paths : List String) (s : Progress) (reports : List FileReport),
      w.expand settings.includeTests args = .ok paths ∧ s.Follows w settings fixing paths ∧
      AmountTo s.tasks (.ok reports) ∧ r = .ofFiles reports ∧ w' = s.workspace := by
  generalize hok : Except.ok r = result at h
  cases h with
  | unexpanded => cases hok
  | @ended paths hexpand s hreaches result hamount =>
    cases result with
    | error e => cases hok
    | ok reports =>
      cases hok
      exact ⟨paths, s, reports, hexpand, hreaches.follows (hdistinct paths hexpand), hamount,
        rfl, rfl⟩

/-- When one order brings all files to their end, no other order fails, and all leave the same. -/
theorem MayEnd.eq_of_ok {r : RunReport} {result : Except Error RunReport} {w₁ w₂ : Workspace}
    (hdistinct : ∀ paths, w.expand settings.includeTests args = .ok paths → w.Distinct paths)
    (h₁ : w.MayEnd settings fixing args (.ok r) w₁) (h₂ : w.MayEnd settings fixing args result w₂) :
    result = .ok r ∧ w₂ = w₁ := by
  obtain ⟨paths, s₁, reports, hexpand, hfollows₁, hdone, rfl, rfl⟩ := h₁.exists_of_ok hdistinct
  have hreports := hfollows₁.reports_eq hdone
  cases h₂ with
  | unexpanded hexpand' => rw [hexpand] at hexpand'; cases hexpand'
  | @ended paths' hexpand' s₂ hreaches result hamount =>
  obtain rfl : paths = paths' := by simpa [hexpand] using hexpand'
  have hfollows₂ := hreaches.follows (hdistinct paths hexpand)
  cases result with
  | error e =>
    obtain ⟨path, hpath, hfailed⟩ := hfollows₂.exists_failed hamount
    have hmem : Except.error e ∈ reports.map Except.ok :=
      hreports ▸ List.mem_map.mpr ⟨path, hpath, by rw [hfailed]; rfl⟩
    simp at hmem
  | ok reports' =>
    have heq := (hfollows₂.reports_eq hamount).symm.trans hreports
    obtain rfl : reports' = reports := List.map_injective_iff.mpr (fun _ _ => Except.ok.inj) heq
    have htasks : s₂.tasks = s₁.tasks := by
      rw [← List.zip_unzip s₁.tasks, ← List.zip_unzip s₂.tasks]
      simp only [List.unzip_fst, List.unzip_snd]
      rw [hfollows₁.paths_eq, hfollows₂.paths_eq]
      exact congrArg _ (hamount.trans hdone.symm)
    exact ⟨rfl, by rw [hfollows₁.workspace_eq, hfollows₂.workspace_eq, htasks]⟩

end Left

/-- However a run over different files is ordered, it creates and removes nothing, and each file
keeps its content or has its fixed text afterwards, also if the run fails. A run that ends well
changes the files that it lists as fixed and no others, and its report and the workspace are those
of every order, of which one file after the other is one. Without fixing nothing changes. -/
theorem fixing_in_any_order (w : Workspace) (settings : Settings) (fixing : Bool)
    (args : List String)
    (hdistinct : ∀ paths, w.expand settings.includeTests args = .ok paths → w.Distinct paths) :
    w.MayEnd settings fixing args (w.run settings fixing args).1 (w.run settings fixing args).2 ∧
    ∀ result w', w.MayEnd settings fixing args result w' →
      (w'.files.map (·.1) = w.files.map (·.1) ∧ w'.dirs = w.dirs ∧ w'.current = w.current) ∧
      (∀ a, w'.files.lookup a = w.files.lookup a ∨
        ∃ text, w.FixedText settings args a text ∧ w'.files.lookup a = some text.toUTF8) ∧
      (∀ r, result = .ok r → ∀ a, w'.files.lookup a ≠ w.files.lookup a ↔
        ∃ path n, (path, n) ∈ r.fixed ∧ w.locate? path = some a) ∧
      (∀ r, result = .ok r ∨ (w.run settings fixing args).1 = .ok r →
        result = (w.run settings fixing args).1 ∧ w' = (w.run settings fixing args).2) ∧
      (fixing = false → w' = w) := by
  have hrun := mayEnd_run w settings fixing args
  refine ⟨hrun, fun result w' h => ?_⟩
  have hsame : ∀ r, result = .ok r ∨ (w.run settings fixing args).1 = .ok r →
      result = (w.run settings fixing args).1 ∧ w' = (w.run settings fixing args).2 := by
    rintro r (rfl | hr)
    · obtain ⟨hresult, hw⟩ := h.eq_of_ok hdistinct hrun
      exact ⟨hresult.symm, hw.symm⟩
    · rw [hr] at hrun ⊢
      exact hrun.eq_of_ok hdistinct h
  cases h with
  | unexpanded hexpand =>
    exact ⟨⟨rfl, rfl, rfl⟩, fun a => .inl rfl, fun r hr => (by cases hr), hsame, fun _ => rfl⟩
  | @ended paths hexpand s hreaches result hamount =>
    have hpaths := hdistinct _ hexpand
    have hfollows := hreaches.follows hpaths
    refine ⟨by simp [hfollows.workspace_eq], hfollows.lookup_cases hexpand, fun r hr => ?_,
      hsame, ?_⟩
    · cases result with
      | error e => cases hr
      | ok reports =>
        cases hr
        exact hfollows.lookup_ne_iff hpaths hamount
    · rintro rfl
      exact hfollows.workspace_of_checking

/-! ### A run -/

/-- A generated source, which is passed over. -/
def generatedSource : String := "// Code generated by m. DO NOT EDIT.\n"

def generatedReport : FileReport :=
  { path := "q.go", source := generatedSource, skipped := true }

/-- A file with two reads to replace, and a generated one. -/
def sampleWorkspace : Workspace where
  files := [(["p.go"], sampleSource.toUTF8), (["q.go"], generatedSource.toUTF8)]

theorem expand_sampleWorkspace :
    sampleWorkspace.expand ({} : Settings).includeTests ["p.go", "q.go"] = .ok ["p.go",
      "q.go"] := by
  cbv

theorem locate?_sampleWorkspace : sampleWorkspace.locate? "p.go" = some ["p.go"] ∧
    sampleWorkspace.locate? "q.go" = some ["q.go"] := by
  decide +kernel

theorem distinct_sampleWorkspace : sampleWorkspace.Distinct ["p.go", "q.go"] := by
  simp [Distinct, locate?_sampleWorkspace]

theorem run_sampleWorkspace : ∃ report, report.path = "p.go" ∧ report.skipped = false ∧
    report.fixed = some ("func f()\x7bif e!=nil\x7breturn\x7d\nnil()\nnil()\x7d", 2) ∧
    (sampleWorkspace.run {} true ["p.go", "q.go"]).1 = .ok (.ofFiles [report,
      generatedReport]) := by
  obtain ⟨report, hcheck, hfixed⟩ := checkSource_sampleSource
  have hon := reportsOn_of_checkSource hcheck
  refine ⟨report, hon.path_eq, hon.skipped_of_fixed hfixed, hfixed, ?_⟩
  have hp : sampleWorkspace.examine {} true "p.go" = .ok (["p.go"], report) :=
    examine_eq_ok.mpr ⟨sampleSource, locate?_sampleWorkspace.1, text?_eq_some.mpr rfl, hcheck⟩
  have hq : (sampleWorkspace.store ["p.go"] report).examine {} true "q.go" =
      .ok (["q.go"], generatedReport) := by
    simp only [store, hfixed, replace_eq]
    refine examine_eq_ok.mpr ⟨generatedSource, ?_, text?_eq_some.mpr rfl,
      if_pos (by decide +kernel)⟩
    exact (locate?_rewrite _ _ _).trans locate?_sampleWorkspace.2
  rw [run, expand_sampleWorkspace]
  simp only [processAll, process_eq, hp, hq]
  rfl

theorem fixing_in_any_order_sampleWorkspace : ∃ r, r.fixed = [("p.go", 2)] ∧
    (sampleWorkspace.run {} true ["p.go", "q.go"]).1 = .ok r ∧
    ∀ result w', sampleWorkspace.MayEnd {} true ["p.go", "q.go"] result w' →
      result = .ok r ∧ ∀ a, w'.files.lookup a ≠ sampleWorkspace.files.lookup a ↔ a = ["p.go"] := by
  obtain ⟨report, hpath, hskipped, hfixed, hrun⟩ := run_sampleWorkspace
  have hlisted : (RunReport.ofFiles [report, generatedReport]).fixed = [("p.go", 2)] := by
    simp [RunReport.ofFiles, generatedReport, hpath, hskipped, hfixed]
  refine ⟨_, hlisted, hrun, fun result w' h => ?_⟩
  have hdistinct : ∀ paths,
      sampleWorkspace.expand ({} : Settings).includeTests ["p.go", "q.go"] = .ok paths →
      sampleWorkspace.Distinct paths := by
    intro paths hpaths
    rw [expand_sampleWorkspace] at hpaths
    cases hpaths
    exact distinct_sampleWorkspace
  obtain ⟨-, -, hchanged, hsame, -⟩ :=
    (fixing_in_any_order sampleWorkspace {} true ["p.go", "q.go"] hdistinct).2 result w' h
  obtain ⟨rfl, -⟩ := hsame _ (.inr hrun)
  refine ⟨hrun, fun a => ?_⟩
  rw [hchanged _ hrun a, hlisted]
  simp [locate?_sampleWorkspace, eq_comm]

end Workspace

end NilGuard
