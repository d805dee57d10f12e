import Mathlib.Data.Finset.Dedup
import NilGuard.Proofs.Schedules

/-!
The report on a run. It has the diagnostics of all its files in the order of files and places, no
place and no name twice: the name of a diagnostic ends in its place, and a place can be read off
from the right, whatever the file is called. The counts of the report are those of the diagnostics
and of the files (`report_accounts`).
-/

namespace NilGuard

open Go Report

/-! ### Names of places -/

/-- A text is cut at the last occurrence of a character in one way. -/
theorem append_cons_inj {α : Type} {c : α} {xs ys zs ws : List α} (hys : c ∉ ys) (hws : c ∉ ws)
    (h : xs ++ c :: ys = zs ++ c :: ws) : xs = zs ∧ ys = ws := by
  rcases List.append_eq_append_iff.mp h with ⟨_ | ⟨a, as⟩, rfl, hcut⟩ | ⟨_ | ⟨a, as⟩, rfl, hcut⟩
  · simpa using hcut
  · obtain ⟨rfl, rfl⟩ := List.cons.inj hcut
    simp at hys
  · simpa using hcut.symm
  · obtain ⟨rfl, rfl⟩ := List.cons.inj hcut
    simp at hws

theorem colon_notMem_toString (n : Nat) : ':' ∉ (toString n).toList := by
  rw [Nat.toString_eq_ofList_toDigits, String.toList_ofList]
  intro h
  exact absurd (Nat.isDigit_of_mem_toDigits (by decide) (by decide) h) (by decide)

theorem toString_inj {m n : Nat} (h : (toString m).toList = (toString n).toList) : m = n :=
  Nat.repr_injective (String.toList_inj.mp h)

/-- A place can be read off its label, also if the file has colons and digits in its name. -/
theorem eq_of_label {a b : Location} (h : a.label = b.label) :
    a.file = b.file ∧ a.line = b.line ∧ a.column = b.column := by
  have hlist : ∀ l : Location, l.label.toList =
      (l.file.toList ++ ':' :: (toString l.line).toList) ++ ':' :: (toString l.column).toList := by
    intro l
    simp [Location.label, String.toList_append, ToString.toString]
  rw [← String.toList_inj, hlist, hlist] at h
  obtain ⟨h, hcolumn⟩ := append_cons_inj (colon_notMem_toString _) (colon_notMem_toString _) h
  obtain ⟨hfile, hline⟩ := append_cons_inj (colon_notMem_toString _) (colon_notMem_toString _) h
  exact ⟨String.toList_inj.mp hfile, toString_inj hline, toString_inj hcolumn⟩

/-- A place is in an earlier file than another, or ahead of it in the same one. -/
def Before (a b : Location) : Prop :=
  a.file < b.file ∨ a.file = b.file ∧ Ahead a b

theorem before_of_le {a b : Location} (hle : a.le b = true)
    (hne : ¬ (a.file = b.file ∧ a.line = b.line ∧ a.column = b.column)) : Before a b := by
  simp only [Location.le, Bool.or_eq_true, Bool.and_eq_true, decide_eq_true_eq, beq_iff_eq] at hle
  rcases hle with hlt | ⟨hfile, hplace⟩
  · exact .inl hlt
  · refine .inr ⟨hfile, ?_⟩
    unfold Ahead
    have : ¬ (a.line = b.line ∧ a.column = b.column) := fun h => hne ⟨hfile, h⟩
    omega

/-! ### Reports on single files -/

theorem id_diagnostic (f : File) (x : Finding) :
    (x.diagnostic f).id = s!"{Rule.ref001.code}-{(x.diagnostic f).location.label}" := by
  unfold Finding.diagnostic
  split <;> rfl

section Single

variable {path source : String} {settings : Settings} {fixing : Bool} {r : FileReport}

/-- The diagnostics of a file are of findings at different places in it, in their order. -/
theorem exists_findings_of_checkSource (h : checkSource path source settings fixing = .ok r) :
    (r.diagnostics.Pairwise fun d d' => Ahead d.location d'.location) ∧
      ∀ d ∈ r.diagnostics, ∃ (f : File) (x : Finding), d = x.diagnostic f ∧ x.file = path := by
  obtain ⟨-, rfl⟩ | ⟨-, f, xs, hf, hxs, hcases⟩ := checkSource_cases h
  · exact ⟨.nil, nofun⟩
  obtain ⟨decls, ts, es, horigin⟩ := File.exists_origin hf
  have hagree := File.namesAgree_of_ofSource? hf
  obtain ⟨-, rfl⟩ | ⟨-, -, fixed, hfixed, rfl⟩ := hcases
  · have htraced : ∀ x ∈ xs, ∃ y, ∃ t ∈ ts, Traced f x y t := by
      intro x hx
      obtain ⟨y, t, ht, hxt, -⟩ :=
        horigin.exists_traced (.refl f) hagree (mem_raw_of_openFindings hxs hx)
      exact ⟨y, t, ht, hxt⟩
    have hstarts : xs.Pairwise fun x y => x.span.start < y.span.start := by
      obtain ⟨found, hfound, rfl⟩ := exists_of_openFindings hxs
      rw [findings_eq hfound]
      exact (firsts_sort_pairwise_lt (ident_iff_start horigin.startsDistinct)).sublist
        List.filter_sublist
    refine ⟨List.pairwise_map.mpr (hstarts.imp_of_mem fun hx hy => ahead_of_start horigin.laid
      htraced hx hy),
      fun d hd => ?_⟩
    obtain ⟨x, hx, rfl⟩ := List.mem_map.mp hd
    obtain ⟨y, t, -, hxt⟩ := htraced x hx
    exact ⟨f, x, rfl, hxt.file_eq.trans horigin.path_eq⟩
  · obtain ⟨-, hahead, -⟩ := replaces_of_fixAll horigin hagree hxs hfixed rfl
    refine ⟨hahead, fun d hd => ?_⟩
    obtain ⟨all, -, htraced, -, hall, -⟩ := exists_replaced horigin hagree hxs hfixed
    rw [hall] at hd
    obtain ⟨x, hx, rfl⟩ := List.mem_map.mp (List.mem_mergeSort.mp hd)
    obtain ⟨y, t, -, hxt, -⟩ := htraced x hx
    exact ⟨f, x, rfl, hxt.file_eq.trans horigin.path_eq⟩

theorem file_of_checkSource (h : checkSource path source settings fixing = .ok r) {d : Diagnostic}
    (hd : d ∈ r.diagnostics) : d.location.file = path := by
  obtain ⟨f, x, rfl, hfile⟩ := (exists_findings_of_checkSource h).2 d hd
  rw [location_diagnostic, hfile]

theorem id_of_checkSource (h : checkSource path source settings fixing = .ok r) {d : Diagnostic}
    (hd : d ∈ r.diagnostics) : d.id = s!"{Rule.ref001.code}-{d.location.label}" := by
  obtain ⟨f, x, rfl, -⟩ := (exists_findings_of_checkSource h).2 d hd
  exact id_diagnostic f x

/-- With fixing, a diagnostic is reported for each read that is replaced. -/
theorem length_diagnostics_of_checkSource (h : checkSource path source settings true = .ok r) :
    r.diagnostics.length = (r.fixed.map (·.2)).getD 0 := by
  obtain ⟨-, rfl⟩ | ⟨-, f, xs, hf, hxs, ⟨hnone, rfl⟩ | ⟨-, -, fixed, hfixed, rfl⟩⟩ :=
    checkSource_cases h
  · rfl
  · rw [hnone rfl]
    rfl
  · obtain ⟨decls, ts, es, horigin⟩ := File.exists_origin hf
    obtain ⟨hcount, -⟩ := replaces_of_fixAll horigin (File.namesAgree_of_ofSource? hf) hxs
      hfixed rfl
    exact hcount.symm

end Single

/-! ### Reports on runs -/

theorem nodup_eraseDups {α : Type} [DecidableEq α] (l : List α) : l.eraseDups.Nodup := by
  induction hn : l.length using Nat.strongRecOn generalizing l with
  | ind n ih =>
    cases l with
    | nil => simp
    | cons a l =>
      have hlt : (l.filter fun b => !b == a).length < n := by
        have := List.length_filter_le (fun b => !b == a) l
        simp only [List.length_cons] at hn
        omega
      rw [List.eraseDups_cons, List.nodup_cons]
      exact ⟨by simp, ih _ hlt _ rfl⟩

theorem length_eraseDups {α : Type} [DecidableEq α] (l : List α) :
    l.eraseDups.length = l.toFinset.card := by
  rw [← List.toFinset_card_of_nodup (nodup_eraseDups l)]
  congr 1
  ext a
  simp

theorem lookup_of_mem {α β : Type} [DecidableEq α] {l : List (α × β)} (h : (l.map (·.1)).Nodup)
    {x : α × β} (hx : x ∈ l) : l.lookup x.1 = some x.2 := by
  obtain ⟨before, after, rfl⟩ := List.append_of_mem hx
  rw [List.lookup_eq_some_iff]
  refine ⟨before, after, rfl, fun y hy => ?_⟩
  rw [List.map_append, List.nodup_append] at h
  simpa using (h.2.2 y.1 (List.mem_map_of_mem hy) x.1 (by simp)).symm

/-- The text of the file that a path leads to. -/
def Workspace.source? (w : Workspace) (path : String) : Option String :=
  (w.locate? path).bind w.text?

/-- Reports are those on the files of a workspace that paths lead to. -/
def Workspace.AreReports (w : Workspace) (settings : Settings) (fixing : Bool) (paths : List String)
    (reports : List FileReport) : Prop :=
  List.Forall₂ (fun path report => ∃ source, w.source? path = some source ∧
    checkSource path source settings fixing = .ok report) paths reports

theorem Workspace.areReports_of_examine {w : Workspace} {settings : Settings} {fixing : Bool}
    {paths : List String} {reports : List FileReport}
    (h : paths.map (fun path => (w.examine settings fixing path).map Prod.snd) = reports.map .ok) :
    w.AreReports settings fixing paths reports := by
  rw [← List.forall₂_eq_eq_eq, List.forall₂_map_left_iff, List.forall₂_map_right_iff] at h
  refine h.imp fun path report hreport => ?_
  cases hexamined : w.examine settings fixing path with
  | error e => rw [hexamined] at hreport; cases hreport
  | ok x =>
    rw [hexamined] at hreport
    cases hreport
    obtain ⟨source, ha, hsource, hcheck⟩ := examine_eq_ok.mp hexamined
    exact ⟨source, by rw [source?, ha]; exact hsource, hcheck⟩

namespace Workspace.AreReports

variable {w : Workspace} {settings : Settings} {fixing : Bool} {paths : List String}
  {reports : List FileReport}

theorem paths_eq (h : w.AreReports settings fixing paths reports) :
    reports.map (·.path) = paths := by
  induction h with
  | nil => rfl
  | cons hreport _ ih =>
    obtain ⟨source, -, hcheck⟩ := hreport
    rw [List.map_cons, (reportsOn_of_checkSource hcheck).path_eq, ih]

theorem exists_source (h : w.AreReports settings fixing paths reports) {r : FileReport}
    (hr : r ∈ reports) :
    ∃ source, w.source? r.path = some source ∧
      checkSource r.path source settings fixing = .ok r := by
  induction h with
  | nil => cases hr
  | cons hreport _ ih =>
    rcases List.mem_cons.mp hr with rfl | hr
    · obtain ⟨source, hsource, hcheck⟩ := hreport
      rw [(reportsOn_of_checkSource hcheck).path_eq]
      exact ⟨source, hsource, hcheck⟩
    · exact ih hr

theorem diagnostics_perm (h : w.AreReports settings fixing paths reports) :
    (RunReport.ofFiles reports).diagnostics.Perm (reports.flatMap (·.diagnostics)) := by
  have hchecked : (reports.filter (!·.skipped)).flatMap (·.diagnostics) =
      reports.flatMap (·.diagnostics) := by
    have hskipped : ∀ r ∈ reports, r.skipped = true → r.diagnostics = [] := by
      intro r hr hskipped
      obtain ⟨source, -, hcheck⟩ := h.exists_source hr
      exact ((reportsOn_of_checkSource hcheck).of_skipped hskipped).1
    clear h
    induction reports with
    | nil => rfl
    | cons r reports ih =>
      obtain ⟨hr, hskipped⟩ := List.forall_mem_cons.mp hskipped
      rw [List.flatMap_cons, ← ih hskipped]
      cases hcase : r.skipped with
      | true => simp [hcase, hr hcase]
      | false => simp [hcase]
  exact (List.mergeSort_perm _ _).trans (.of_eq hchecked)

/-- Different files have different paths. -/
theorem paths_nodup (h : w.AreReports settings fixing paths reports)
    (hdistinct : w.Distinct paths) :
    (reports.map (·.path)).Nodup := by
  rw [h.paths_eq]
  exact hdistinct.imp fun hne heq => hne (by rw [heq])

theorem diagnostics_before (h : w.AreReports settings fixing paths reports)
    (hdistinct : w.Distinct paths) :
    (RunReport.ofFiles reports).diagnostics.Pairwise fun d d' => Before d.location d'.location := by
  have hplaces : (reports.flatMap (·.diagnostics)).Pairwise fun d d' =>
      ¬ (d.location.file = d'.location.file ∧
        d.location.line = d'.location.line ∧ d.location.column = d'.location.column) := by
    refine List.pairwise_flatMap.mpr ⟨fun r hr => ?_, ?_⟩
    · obtain ⟨source, -, hcheck⟩ := h.exists_source hr
      refine (exists_findings_of_checkSource hcheck).1.imp fun hahead => ?_
      unfold Ahead at hahead
      omega
    · refine (List.pairwise_map.mp (h.paths_nodup hdistinct)).imp_of_mem
        fun hr hr' hne d hd d' hd' heq => ?_
      obtain ⟨_, -, hcheck⟩ := h.exists_source hr
      obtain ⟨_, -, hcheck'⟩ := h.exists_source hr'
      rw [file_of_checkSource hcheck hd, file_of_checkSource hcheck' hd'] at heq
      exact hne heq.1
  have hsorted := (h.diagnostics_perm.pairwise_iff fun hne heq =>
    hne ⟨heq.1.symm, heq.2.1.symm, heq.2.2.symm⟩).mpr hplaces
  exact ((sorted_pairwise _).and hsorted).imp fun ⟨hle, hne⟩ => before_of_le hle hne

theorem exists_report (h : w.AreReports settings fixing paths reports) {d : Diagnostic}
    (hd : d ∈ (RunReport.ofFiles reports).diagnostics) : ∃ r ∈ reports, d ∈ r.diagnostics ∧
      d.location.file = r.path ∧ d.id = s!"{Rule.ref001.code}-{d.location.label}" ∧
      r.skipped = false := by
  obtain ⟨r, hr, hdr⟩ := List.mem_flatMap.mp (h.diagnostics_perm.subset hd)
  obtain ⟨source, -, hcheck⟩ := h.exists_source hr
  refine ⟨r, hr, hdr, file_of_checkSource hcheck hdr, id_of_checkSource hcheck hdr, ?_⟩
  by_contra hskipped
  rw [((reportsOn_of_checkSource hcheck).of_skipped (by simpa using hskipped)).1] at hdr
  cases hdr

theorem ids_nodup (h : w.AreReports settings fixing paths reports) (hdistinct : w.Distinct paths) :
    ((RunReport.ofFiles reports).diagnostics.map (·.id)).Nodup := by
  refine List.pairwise_map.mpr ((h.diagnostics_before hdistinct).imp_of_mem
    fun hd hd' hbefore heq => ?_)
  obtain ⟨_, -, -, -, hid, -⟩ := h.exists_report hd
  obtain ⟨_, -, -, -, hid', -⟩ := h.exists_report hd'
  rw [hid, hid', ← String.toList_inj] at heq
  simp only [String.toList_append] at heq
  obtain ⟨hfile, hline, hcolumn⟩ := eq_of_label (String.toList_inj.mp (List.append_cancel_left heq))
  rcases hbefore with hlt | ⟨-, hahead⟩
  · exact absurd (hfile ▸ hlt) (String.lt_irrefl _)
  · unfold Ahead at hahead
    omega

theorem lookup_sources (h : w.AreReports settings fixing paths reports)
    (hdistinct : w.Distinct paths) {r : FileReport} (hr : r ∈ reports)
    (hskipped : r.skipped = false) :
    (RunReport.ofFiles reports).sources.lookup r.path = w.source? r.path := by
  obtain ⟨source, hsource, hcheck⟩ := h.exists_source hr
  have hmem : (r.path, r.source) ∈ (RunReport.ofFiles reports).sources :=
    List.mem_map_of_mem (List.mem_filter.mpr ⟨hr, by simp [hskipped]⟩)
  have hnodup : ((RunReport.ofFiles reports).sources.map (·.1)).Nodup := by
    simp only [RunReport.ofFiles, List.map_map]
    exact (h.paths_nodup hdistinct).sublist (List.filter_sublist.map _)
  rw [lookup_of_mem hnodup hmem, (reportsOn_of_checkSource hcheck).source_eq, hsource]

theorem filesChecked_eq (h : w.AreReports settings fixing paths reports) :
    (RunReport.ofFiles reports).summary.filesChecked =
      (paths.filter fun path => !(settings.skipGenerated && (w.source? path).any
        isGenerated)).length := by
  rw [← h.paths_eq, List.filter_map, List.length_map]
  refine congrArg List.length (List.filter_congr fun r hr => ?_)
  obtain ⟨source, hsource, hcheck⟩ := h.exists_source hr
  simp [(reportsOn_of_checkSource hcheck).skipped_eq, hsource]

theorem fixedTotal_eq (h : w.AreReports settings true paths reports) :
    (RunReport.ofFiles reports).fixedTotal = (RunReport.ofFiles reports).diagnostics.length := by
  have hsource : ∀ r ∈ reports, (r.skipped = true → r.fixed = none) ∧
      r.diagnostics.length = (r.fixed.map (·.2)).getD 0 := by
    intro r hr
    obtain ⟨source, -, hcheck⟩ := h.exists_source hr
    exact ⟨fun hskipped => ((reportsOn_of_checkSource hcheck).of_skipped hskipped).2,
      length_diagnostics_of_checkSource hcheck⟩
  rw [h.diagnostics_perm.length_eq]
  clear h
  induction reports with
  | nil => rfl
  | cons r reports ih =>
    obtain ⟨⟨hskipped, hlength⟩, hrest⟩ := List.forall_mem_cons.mp hsource
    rw [List.flatMap_cons, List.length_append, ← ih hrest, hlength]
    simp only [RunReport.fixedTotal, RunReport.ofFiles, List.filter_cons]
    cases hcase : r.skipped with
    | true => simp [hskipped hcase]
    | false => cases hfixed : r.fixed <;> simp [hfixed]

end Workspace.AreReports

/-- The report on a run over different files. Its diagnostics are those of the files as they were
before the run, strictly in the order of their places and with names of their own. The texts they
are about are there. The counts are right: of the files that are not passed over, of the files with
diagnostics, of the diagnostics and, when fixing, of the reads replaced. -/
theorem report_accounts {w : Workspace} {settings : Settings} {fixing : Bool}
    {args paths : List String} {r : RunReport}
    (hexpand : w.expand settings.includeTests args = .ok paths) (hdistinct : w.Distinct paths)
    (hrun : (w.run settings fixing args).1 = .ok r) :
    (∃ reports, w.AreReports settings fixing paths reports ∧
      r.diagnostics.Perm (reports.flatMap (·.diagnostics))) ∧
    (r.diagnostics.Pairwise fun d d' => Before d.location d'.location) ∧
    (r.diagnostics.map (·.id)).Nodup ∧
    (∀ d ∈ r.diagnostics, d.location.file ∈ paths ∧
      ∃ source, w.source? d.location.file = some source ∧
      r.sources.lookup d.location.file = some source) ∧
    r.summary.filesChecked =
      (paths.filter fun path => !(settings.skipGenerated && (w.source? path).any
        isGenerated)).length ∧
    r.summary.filesWithIssues = (r.diagnostics.map (·.location.file)).toFinset.card ∧
    r.summary.total = r.diagnostics.length ∧
    (fixing = true → r.summary.total = r.fixedTotal) := by
  have hends := Workspace.mayEnd_run w settings fixing args
  rw [hrun] at hends
  obtain ⟨paths', s, reports, hpaths, hfollows, hdone, rfl, -⟩ :=
    hends.exists_of_ok fun paths' hpaths => by
    rw [hexpand] at hpaths
    cases hpaths
    exact hdistinct
  obtain rfl : paths = paths' := by simpa [hexpand] using hpaths
  have hreports := Workspace.areReports_of_examine (hfollows.reports_eq hdone)
  refine ⟨⟨reports, hreports, hreports.diagnostics_perm⟩, hreports.diagnostics_before hdistinct,
    hreports.ids_nodup hdistinct, fun d hd => ?_, hreports.filesChecked_eq, length_eraseDups _,
    rfl, ?_⟩
  · obtain ⟨report, hreport, -, hfile, -, hskipped⟩ := hreports.exists_report hd
    obtain ⟨source, hsource, -⟩ := hreports.exists_source hreport
    rw [hfile, hreports.lookup_sources hdistinct hreport hskipped]
    exact ⟨hreports.paths_eq ▸ List.mem_map_of_mem hreport, source, hsource, hsource⟩
  · rintro rfl
    exact hreports.fixedTotal_eq.symm

/-- The two reads of the one file that is not passed over are reported. -/
theorem report_accounts_sampleWorkspace : ∃ r,
    (Workspace.sampleWorkspace.run {} true ["p.go", "q.go"]).1 = .ok r ∧
    (r.diagnostics.Pairwise fun d d' => Before d.location d'.location) ∧
      (r.diagnostics.map (·.id)).Nodup ∧
    r.summary.filesChecked = 1 ∧ r.summary.total = 2 ∧ r.fixedTotal = 2 := by
  obtain ⟨report, -, hskipped, hfixed, hrun⟩ := Workspace.run_sampleWorkspace
  have hsource : Workspace.sampleWorkspace.source? "p.go" = some sampleSource := by
    rw [Workspace.source?, Workspace.locate?_sampleWorkspace.1]
    exact Workspace.text?_eq_some.mpr rfl
  have hgenerated : Workspace.sampleWorkspace.source? "q.go" = some Workspace.generatedSource := by
    rw [Workspace.source?, Workspace.locate?_sampleWorkspace.2]
    exact Workspace.text?_eq_some.mpr rfl
  have hpassed : isGenerated sampleSource = false ∧
      isGenerated Workspace.generatedSource = true := by
    decide +kernel
  obtain ⟨-, hbefore, hids, -, hchecked, -, -, htotal⟩ :=
    report_accounts Workspace.expand_sampleWorkspace Workspace.distinct_sampleWorkspace hrun
  have hfixedTotal : (RunReport.ofFiles [report, Workspace.generatedReport]).fixedTotal = 2 := by
    simp [RunReport.fixedTotal, RunReport.ofFiles, Workspace.generatedReport, hskipped, hfixed]
  refine ⟨_, hrun, hbefore, hids, ?_, (htotal rfl).trans hfixedTotal, hfixedTotal⟩
  rw [hchecked]
  simp [hsource, hgenerated, hpassed]

end NilGuard
