import NilGuard.Proofs.Coherence
import NilGuard.Proofs.FirstFault
import NilGuard.Proofs.Rounds

/-!
Faults. In an expression `nil` is never bound, and what is unbound there is `nil` or blank. Turning
identifiers into `nil` keeps this, so the only fault that a check of a source ends in, on the tree
of the source or on any tree that fixing leads to, is a comparison of the blank name with `nil`.
-/

namespace NilGuard

open Go

/-! ### Operands -/

namespace Go.File

/-- Every identifier that is an expression is there, it is unbound if it is `nil`, and if it is
unbound it is `nil` or blank. -/
def OperandsFit (f : File) : Prop :=
  ∀ root ∈ f.roots, ∀ span i, Node.expr (.ident span i) ∈ Descent.full.walk root →
    ∃ x, f.idents[i]? = some x ∧ (x.name = nilName → x.binding = none) ∧
      (x.binding = none → x.name = blankName ∨ x.name = nilName)

theorem Origin.operandsFit {f : File} {path source : String} {decls : List Surface.Decl}
    {ts : List Token} {es : List Event} (h : f.Origin path source decls ts es) : f.OperandsFit := by
  intro root hroot span i hi
  have hlt := h.id_lt hroot (Node.ids_subset hi Node.id_mem_ids)
  have hx : f.idents[i]? = some f.idents[i] := Array.getElem?_eq_getElem hlt
  exact ⟨_, hx, h.literal hroot hi hx, h.unbound (Array.mem_of_getElem? hx)⟩

/-- Whether an expression is just the blank name. -/
def isBlank (f : File) : Expr → Bool
  | .ident _ i => f.idents[i]?.any (·.name == blankName)
  | _ => false

/-- Some comparison by `!=` has the blank name on one side. -/
def ComparesBlank (f : File) : Prop :=
  ∃ root ∈ f.roots, ∃ span left right,
    Node.expr (.binary span .ne left right) ∈ Descent.full.walk root ∧
    (f.isBlank left = true ∨ f.isBlank right = true)

/-- What a tree can be used for without a fault, except for comparisons of the blank name. -/
structure Checkable (path : String) (f : File) : Prop where
  path_eq : f.path = path
  operandsFit : f.OperandsFit

/-! ### Fixing keeps operands -/

theorem OperandsFit.rename {f : File} (h : f.OperandsFit) (i : IdentId) :
    (f.rename i nilName).OperandsFit := by
  intro root hroot span j hj
  obtain ⟨x, hx, hfit⟩ := h root hroot span j hj
  rw [getElem?_rename, hx]
  split
  · exact ⟨_, rfl, fun _ => rfl, fun _ => .inr rfl⟩
  · exact ⟨x, rfl, hfit⟩

theorem isBlank_of_rename {f : File} {i : IdentId} {e : Expr}
    (h : (f.rename i nilName).isBlank e = true) : f.isBlank e = true := by
  cases e with
  | ident span j =>
    have hne : (nilName == blankName) = false := by decide
    rw [isBlank, getElem?_rename] at h
    split at h
    · cases hx : f.idents[j]? <;> simp [hx, hne] at h
    · exact h
  | _ => cases h

theorem ComparesBlank.of_rename {f : File} {i : IdentId} (h : (f.rename i nilName).ComparesBlank) :
    f.ComparesBlank := by
  obtain ⟨root, hroot, span, left, right, hmem, hblank⟩ := h
  exact ⟨root, hroot, span, left, right, hmem, hblank.imp isBlank_of_rename isBlank_of_rename⟩

end Go.File

/-- What renaming to `nil` keeps is kept by fixing. -/
theorem fix_induction {P : File → Prop} (hrename : ∀ f i, P f → P (f.rename i nilName)) {f : File}
    (hf : P f) (xs : List Finding) : P (fix f xs).1 := by
  have hfold : ∀ state : File × Nat, P state.1 → P (xs.foldl fixOne state).1 := by
    induction xs with
    | nil => exact fun _ h => h
    | cons x xs ih =>
      intro state h
      refine ih (fixOne state x) ?_
      obtain ⟨-, hx⟩ | ⟨-, hx⟩ := fixOne_cases state.1 state.2 x
      · rw [hx]; exact hrename _ _ h
      · rw [hx]; exact h
  exact hfold (f, 0) hf

theorem Go.File.Checkable.fix {path : String} {f : File} (h : f.Checkable path)
    (xs : List Finding) :
    (fix f xs).1.Checkable path :=
  fix_induction (P := Checkable path) (fun _ i h => ⟨h.path_eq, h.operandsFit.rename i⟩) h xs

theorem Go.File.ComparesBlank.of_fix {f : File} {xs : List Finding}
    (h : (NilGuard.fix f xs).1.ComparesBlank) : f.ComparesBlank := by
  by_contra hf
  exact fix_induction (P := fun f => ¬ ComparesBlank f) (fun _ _ h hr => h hr.of_rename) hf xs h

/-! ### Where a fault comes from -/

/-- The condition of a conditional in a searched block is below a root. -/
theorem Go.File.Scans.cond_mem_walk {f : File} {path : List Nat} {b : Block} (h : f.Scans path b)
    {span : Span} {init : Option Stmt} {cond : Expr} {body : Block} {orElse : Option Stmt}
    (hif : Stmt.ifStmt span init cond body orElse ∈ b.stmts) :
    ∃ root ∈ f.roots, Node.expr cond ∈ Descent.full.walk root := by
  obtain ⟨root, hroot, hwalk⟩ := h.mem_walk
  refine ⟨root, hroot, Descent.walk_trans hwalk ?_⟩
  refine Descent.walk_trans (Descent.mem_walk_of_next (List.mem_map_of_mem hif)) ?_
  exact Descent.mem_walk_of_next (by simp [Descent.full, Node.children, Node.ofStmt])

/-- A fault comes from a conditional in a searched block. -/
theorem exists_of_findings_error {f : File} {e : Fault} (h : findings f = .error e) :
    ∃ path b span init cond body orElse, f.Scans path b ∧
      Stmt.ifStmt span init cond body orElse ∈ b.stmts ∧ guarded? f cond body = .error e := by
  obtain ⟨path, k, ⟨b, span, init, cond, body, orElse, hscans, hif, hguarded⟩, -⟩ :=
    exists_first_fault h
  exact ⟨path, b, span, init, cond, body, orElse, hscans, List.mem_of_getElem? hif, hguarded⟩

/-- A fault about a blank name in a file. -/
def Fault.IsBlank (path : String) (fault : Fault) : Prop :=
  ∃ line column, fault = .variableUnbound blankName path line column

/-- Where operands fit, the literal of a comparison with `nil` is unbound, and a variable in it that
is unbound is blank. -/
theorem Go.File.OperandsFit.of_comparison {f : File} (hf : f.OperandsFit) {root : Node}
    (hroot : root ∈ f.roots) {cond : Expr} (hcond : Node.expr cond ∈ Descent.full.walk root)
    {v n : IdentId} (h : nilComparison? f cond = some (v, n)) :
    ∃ x y, f.idents[v]? = some x ∧ f.idents[n]? = some y ∧
      y.binding = none ∧ (x.binding = none → x.name = blankName) := by
  have hoperand : ∀ span i, Node.expr (.ident span i) ∈ (Node.expr cond).children →
      ∃ x, f.idents[i]? = some x ∧ (x.name = nilName → x.binding = none) ∧
        (x.binding = none → x.name = blankName ∨ x.name = nilName) := fun span i hi =>
    hf root hroot span i (Descent.walk_trans hcond (Descent.mem_walk_of_next hi))
  obtain ⟨⟨_, hleft⟩, _, hright⟩ := sides_mem_children h
  obtain ⟨x, hx, -, hxnone⟩ := hoperand _ v hleft
  obtain ⟨y, hy, hynil, -⟩ := hoperand _ n hright
  obtain ⟨hv, hn, -⟩ := nilComparison?_eq_some.mp h
  have hxname : x.name ≠ nilName := by simpa [File.isNil, hx, Ident.isNil] using hv
  have hyname : y.name = nilName := by simpa [File.isNil, hy, Ident.isNil] using hn
  exact ⟨x, y, hx, hy, hynil hyname, fun hnone => (hxnone hnone).resolve_right hxname⟩

/-- Where operands fit, the only fault is a comparison of a blank name. -/
theorem isBlank_of_guarded?_error {path : String} {f : File} (hf : f.Checkable path) {root : Node}
    (hroot : root ∈ f.roots) {cond : Expr} {body : Block}
    (hcond : Node.expr cond ∈ Descent.full.walk root) {e : Fault}
    (h : guarded? f cond body = .error e) :
    e.IsBlank path ∧ f.ComparesBlank := by
  cases h ▸ guardedAs_guarded? f cond body with
  | nilBound _ hcomparison hn =>
    obtain ⟨_, y, -, hy, hynone, -⟩ := hf.operandsFit.of_comparison hroot hcond hcomparison
    rw [hy, Option.getD_some, hynone] at hn
    cases hn
  | unbound _ hcomparison _ hv =>
    obtain ⟨x, _, hx, -, -, hblank⟩ := hf.operandsFit.of_comparison hroot hcond hcomparison
    rw [hx, Option.getD_some] at hv ⊢
    have hblank := hblank hv
    obtain ⟨-, -, span, lspan, l, rspan, r, rfl, hsides⟩ := nilComparison?_eq_some.mp hcomparison
    refine ⟨⟨_, _, by rw [hblank, hf.path_eq]⟩, root, hroot, span, _, _, hcond, ?_⟩
    rcases hsides with hsides | hsides <;> cases hsides
    · exact .inl (by simp [File.isBlank, hx, hblank])
    · exact .inr (by simp [File.isBlank, hx, hblank])

theorem isBlank_of_findings_error {path : String} {f : File} (hf : f.Checkable path) {e : Fault}
    (h : findings f = .error e) : e.IsBlank path ∧ f.ComparesBlank := by
  obtain ⟨_, _, _, _, cond, body, _, hscans, hif, hguarded⟩ := exists_of_findings_error h
  obtain ⟨root, hroot, hcond⟩ := hscans.cond_mem_walk hif
  exact isBlank_of_guarded?_error hf hroot hcond hguarded

/-! ### Checks -/

/-- A fault of fixing is a fault of some file on the way. -/
theorem fixAll_error {marker : String} {P : File → Prop} (hfix : ∀ f xs, P f → P (fix f xs).1)
    {f : File} {xs : List Finding} (hf : P f) {e : Fault} (h : fixAll marker f xs = .error e) :
    ∃ g, P g ∧ findings g = .error e := by
  fun_induction fixAll marker f xs with
  | case1 f xs g n hn => cases h
  | case2 f xs g n hn ih =>
    have hg : P g := hfix f xs hf
    cases hopen : findings g with
    | error e' =>
      obtain rfl : e' = e := by simpa [openFindings, hopen, Except.map, bind, Except.bind] using h
      exact ⟨g, hg, hopen⟩
    | ok ys =>
      refine ih (unsuppressed marker g ys) hg ?_
      cases hrest : fixAll marker g (unsuppressed marker g ys) with
      | error e' => simpa [openFindings, hopen, Except.map, bind, Except.bind, hrest] using h
      | ok fixed =>
        simp [openFindings, hopen, Except.map, bind, Except.bind, hrest, pure, Except.pure] at h

/-- A fault of a check is a fault of the file or of one that fixing leads to. -/
theorem checkFile_error {settings : Settings} {fixing : Bool} {P : File → Prop}
    (hfix : ∀ f xs, P f → P (fix f xs).1) {f : File} (hf : P f) {e : Fault}
    (h : checkFile settings fixing f = .error e) : ∃ g, P g ∧ findings g = .error e := by
  rw [checkFile] at h
  cases hfound : findings f with
  | error e' =>
    obtain rfl : e' = e := by simpa [openFindings, hfound, Except.map, bind, Except.bind] using h
    exact ⟨f, hf, hfound⟩
  | ok ys =>
    simp only [openFindings, hfound, Except.map, bind, Except.bind] at h
    split at h
    · cases h
    · cases hall : fixAll settings.suppressMarker f (unsuppressed settings.suppressMarker f ys) with
      | error e' =>
        obtain rfl : e' = e := by simpa [hall] using h
        exact fixAll_error hfix hf hall
      | ok fixed => simp [hall, pure, Except.pure] at h

/-- The only fault of a source is a comparison of the blank name with `nil`: on the tree of the
source, on any tree that fixing leads to, and so in a check. A source that has a tree without such a
comparison is checked to the end. -/
theorem faults_are_blank (path source : String) (settings : Settings) (fixing : Bool) :
    (∀ fault, checkSource path source settings fixing = .error (.fault fault) →
      fault.IsBlank path) ∧
    ∀ f, File.ofSource? path source = some f →
      (∀ (rounds : List (List Finding)) fault,
        findings (rounds.foldl (fun g xs => (fix g xs).1) f) = .error fault → fault.IsBlank path) ∧
      (¬ f.ComparesBlank → ∃ r, checkSource path source settings fixing = .ok r) := by
  have hcheckable : ∀ f, File.ofSource? path source = some f → f.Checkable path := by
    intro f hf
    obtain ⟨decls, ts, es, horigin⟩ := File.exists_origin hf
    exact ⟨horigin.path_eq, horigin.operandsFit⟩
  have hfaults : ∀ f, File.ofSource? path source = some f → ∀ fault,
      checkFile settings fixing f = .error fault → fault.IsBlank path ∧ f.ComparesBlank := by
    intro f hf fault h
    obtain ⟨g, ⟨hg, hblank⟩, hfindings⟩ := checkFile_error
      (P := fun g => g.Checkable path ∧ (g.ComparesBlank → f.ComparesBlank))
      (fun g xs hg => ⟨hg.1.fix xs, fun h => hg.2 h.of_fix⟩) ⟨hcheckable f hf, id⟩ h
    obtain ⟨hfault, hcompares⟩ := isBlank_of_findings_error hg hfindings
    exact ⟨hfault, hblank hcompares⟩
  refine ⟨fun fault h => ?_, fun f hf => ⟨fun rounds fault h => ?_, fun hblank => ?_⟩⟩
  · unfold checkSource at h
    split at h
    · cases h
    · split at h
      · cases h
      · next f hf =>
        cases hr : checkFile settings fixing f with
        | ok r => rw [hr] at h; cases h
        | error fault' =>
          obtain rfl : fault' = fault := by simpa [hr, Except.mapError] using h
          exact (hfaults f hf fault' hr).1
  · refine (isBlank_of_findings_error ?_ h).1
    exact List.foldlRecOn rounds _ (hcheckable f hf) fun g hg xs _ => hg.fix xs
  · unfold checkSource
    split
    · exact ⟨_, rfl⟩
    · cases hr : checkFile settings fixing f with
      | ok r => exact ⟨r, by simp [hf, hr, Except.mapError]⟩
      | error fault => exact absurd (hfaults f hf fault hr).2 hblank

/-- A source that compares the blank name. -/
def blankSource : String := "func f()\x7bif _!=nil\x7breturn\x7d\x7d"

theorem checkSource_blankSource : checkSource "p.go" blankSource {} false =
    .error (.fault (.variableUnbound "_" "p.go" 1 13)) := by
  have hgenerated : isGenerated blankSource = false := by decide +kernel
  have htokens : tokens blankSource.toList = some
      [⟨.keyword, "func", ⟨0, 4, 1, 1⟩, false⟩, ⟨.name, "f", ⟨5, 6, 1, 6⟩, false⟩,
       ⟨.operator, "(", ⟨6, 7, 1, 7⟩, false⟩, ⟨.operator, ")", ⟨7, 8, 1, 8⟩, false⟩,
       ⟨.operator, "\x7b", ⟨8, 9, 1, 9⟩, false⟩, ⟨.keyword, "if", ⟨9, 11, 1, 10⟩, false⟩,
       ⟨.name, "_", ⟨12, 13, 1, 13⟩, false⟩, ⟨.operator, "!=", ⟨13, 15, 1, 14⟩, false⟩,
       ⟨.name, "nil", ⟨15, 18, 1, 16⟩, false⟩, ⟨.operator, "\x7b", ⟨18, 19, 1, 19⟩, false⟩,
       ⟨.keyword, "return", ⟨19, 25, 1, 20⟩, false⟩, ⟨.operator, "\x7d", ⟨25, 26, 1, 26⟩, false⟩,
       ⟨.operator, "\x7d", ⟨26, 27, 1, 27⟩, false⟩] := by decide +kernel
  rw [checkSource, hgenerated, Bool.and_false, if_neg (by simp), File.ofSource?,
    Surface.Decl.ofSource?, htokens]
  cbv

theorem not_comparesBlank_sampleFile : ¬ (sampleFile false false).ComparesBlank := by
  rintro ⟨root, hroot, span, left, right, -, hblank⟩
  have hidents : ∀ e, (sampleFile false false).isBlank e = false := by
    intro e
    cases e with
    | ident s i =>
      rcases i with _ | _ | _ | _ | i <;> rfl
    | _ => rfl
  simp [hidents] at hblank

/-- One source ends in the fault, the other is checked to the end. -/
theorem faults_are_blank_sampleSource :
    checkSource "p.go" blankSource {} false = .error (.fault (.variableUnbound "_" "p.go" 1 13)) ∧
    Fault.IsBlank "p.go" (.variableUnbound "_" "p.go" 1 13) ∧
    File.ofSource? "p.go" sampleSource = some (sampleFile false false) ∧
    ¬ (sampleFile false false).ComparesBlank ∧
    ∃ r, checkSource "p.go" sampleSource {} true = .ok r :=
  ⟨checkSource_blankSource,
    (faults_are_blank "p.go" blankSource {} false).1 _ checkSource_blankSource,
    ofSource?_sampleSource, not_comparesBlank_sampleFile,
    ((faults_are_blank "p.go" sampleSource {} true).2 _ ofSource?_sampleSource).2
      not_comparesBlank_sampleFile⟩

end NilGuard
