import NilGuard.Check
import NilGuard.Proofs.Findings
import NilGuard.Proofs.Resolution

/-!
Fixing in passes. A pass replaces what is open by `nil` and looks again. In a file whose identifiers
agree on the names of their bindings no finding is `nil` already, so every pass replaces something
and uses up a bound identifier; the passes therefore end, and they end with nothing open.
-/

namespace NilGuard

open Go

/-! ### One pass -/

/-- Whether an identifier is there and has a binding. -/
def Go.File.isBound (f : File) (i : IdentId) : Bool :=
  f.idents[i]?.any (·.binding.isSome)

/-- Number of identifiers that have a binding. -/
def boundCount (f : File) : Nat :=
  f.idents.toList.countP (·.binding.isSome)

theorem Go.File.getElem?_rename (f : File) (i j : IdentId) (text : String) :
    (f.rename i text).idents[j]? =
      if i = j then f.idents[j]?.map fun x => { x with name := text, binding := none }
      else f.idents[j]? :=
  Array.getElem?_modify

theorem Go.File.NamesAgree.rename {f : File} (hf : f.NamesAgree) (i : IdentId) (text : String) :
    (f.rename i text).NamesAgree := by
  have hold : ∀ x ∈ (f.rename i text).idents, ∀ b, x.binding = some b → x ∈ f.idents := by
    intro x hx b hb
    obtain ⟨j, hj⟩ := Array.mem_iff_getElem?.mp hx
    rw [getElem?_rename] at hj
    split at hj
    · obtain ⟨y, -, rfl⟩ := Option.map_eq_some_iff.mp hj
      cases hb
    · exact Array.mem_iff_getElem?.mpr ⟨j, hj⟩
  intro x hx y hy b hxb hyb
  exact hf x (hold x hx b hxb) y (hold y hy b hyb) b hxb hyb

theorem fixOne_cases (f : File) (n : Nat) (x : Finding) :
    f.isNamed x.ident = true ∧ fixOne (f, n) x = (f.rename x.ident nilName, n + 1) ∨
      f.isNamed x.ident = false ∧ fixOne (f, n) x = (f, n) := by
  unfold fixOne
  cases h : f.isNamed x.ident <;> simp [h]

theorem foldl_fixOne_namesAgree {state : File × Nat} (h : state.1.NamesAgree) (xs : List Finding) :
    (xs.foldl fixOne state).1.NamesAgree := by
  induction xs generalizing state with
  | nil => exact h
  | cons x xs ih =>
    refine ih ?_
    obtain ⟨-, hx⟩ | ⟨-, hx⟩ := fixOne_cases state.1 state.2 x
    · rw [hx]; exact File.NamesAgree.rename h x.ident nilName
    · rw [hx]; exact h

theorem Go.File.NamesAgree.fix {f : File} (h : f.NamesAgree) (xs : List Finding) :
    (fix f xs).1.NamesAgree :=
  foldl_fixOne_namesAgree h xs

theorem source_fix (f : File) (xs : List Finding) : (fix f xs).1.source = f.source := by
  have hfold : ∀ (xs : List Finding) (state : File × Nat),
      (xs.foldl fixOne state).1.source = state.1.source := by
    intro xs
    induction xs with
    | nil => exact fun _ => rfl
    | cons x xs ih =>
      intro state
      obtain ⟨-, hx⟩ | ⟨-, hx⟩ := fixOne_cases state.1 state.2 x
      · rw [List.foldl_cons, ih, hx]; rfl
      · rw [List.foldl_cons, ih, hx]
  exact hfold xs (f, 0)

/-- A diagnostic is about the text, which fixing leaves alone. -/
theorem diagnostic_fix (f : File) (xs : List Finding) (x : Finding) :
    x.diagnostic (fix f xs).1 = x.diagnostic f := by
  simp only [Finding.diagnostic, Finding.edit?, source_fix]

theorem boundCount_rename {f : File} {i : IdentId} (h : f.isBound i) :
    boundCount (f.rename i nilName) + 1 = boundCount f := by
  simp only [boundCount, File.rename, Array.toList_modify]
  refine countP_modify_add_one (fun a => by simp) ?_
  simpa [File.isBound] using h

/-- What is named after another identifier was replaced was named before, and is as bound as it
was. -/
theorem isBound_rename {f : File} {i j : IdentId} (h : (f.rename i nilName).isNamed j) :
    f.isNamed j = true ∧ (f.rename i nilName).isBound j = f.isBound j := by
  unfold File.isNamed File.isBound at *
  rw [File.getElem?_rename] at h ⊢
  split at h
  · cases hj : f.idents[j]? <;> simp [hj, Ident.isNil] at h
  · next hne => exact ⟨h, by rw [if_neg hne]⟩

theorem boundCount_foldl_fixOne (state : File × Nat) {xs : List Finding}
    (h : ∀ x ∈ xs, state.1.isNamed x.ident → state.1.isBound x.ident) :
    boundCount (xs.foldl fixOne state).1 + (xs.foldl fixOne state).2 =
      boundCount state.1 + state.2 := by
  induction xs generalizing state with
  | nil => rfl
  | cons x xs ih =>
    have hrest := fun y hy => h y (List.mem_cons_of_mem _ hy)
    obtain ⟨hnamed, hx⟩ | ⟨-, hx⟩ := fixOne_cases state.1 state.2 x
    · rw [List.foldl_cons, hx, ih _ fun y hy hyn => ?_]
      · have := boundCount_rename (h x List.mem_cons_self hnamed)
        dsimp only
        omega
      · obtain ⟨hyn', hyb⟩ := isBound_rename hyn
        rw [hyb]
        exact hrest y hy hyn'
    · rw [List.foldl_cons, hx]
      exact ih state hrest

/-- A pass over bound identifiers uses up as many of them as it replaces. -/
theorem boundCount_fix {f : File} {xs : List Finding}
    (h : ∀ x ∈ xs, f.isNamed x.ident → f.isBound x.ident) :
    boundCount (fix f xs).1 + (fix f xs).2 = boundCount f :=
  boundCount_foldl_fixOne (f, 0) h

theorem fix_pos {f : File} {x : Finding} {xs : List Finding} (h : f.isNamed x.ident) :
    0 < (fix f (x :: xs)).2 := by
  have hmono : ∀ (ys : List Finding) (state : File × Nat),
      state.2 ≤ (ys.foldl fixOne state).2 := by
    intro ys
    induction ys with
    | nil => exact fun _ => Nat.le_refl _
    | cons y ys ih =>
      intro state
      refine Nat.le_trans ?_ (ih (fixOne state y))
      obtain ⟨-, hy⟩ | ⟨-, hy⟩ := fixOne_cases state.1 state.2 y
      · rw [hy]; exact Nat.le_succ _
      · rw [hy]
  obtain ⟨-, hx⟩ | ⟨hx, -⟩ := fixOne_cases f 0 x
  · rw [fix, List.foldl_cons, hx]
    exact Nat.lt_of_lt_of_le Nat.one_pos (hmono xs (f.rename x.ident nilName, 1))
  · rw [h] at hx; cases hx

/-! ### What is found is a bound name -/

/-- The variable of a guard is a name that stands for what is guarded. -/
theorem exists_of_guarded? {f : File} {cond : Expr} {body : Block} {b : BindingId}
    (h : guarded? f cond body = .ok (some b)) :
    ∃ left right x, nilComparison? f cond = some (left, right) ∧ f.idents[left]? = some x ∧
      x.isNil = false ∧ x.binding = some b := by
  obtain ⟨-, left, right, hcomparison, hb, -⟩ := guarded?_eq_some.mp h
  have hnil := (nilComparison?_eq_some.mp hcomparison).1
  cases hx : f.idents[left]? with
  | none => rw [hx] at hb; cases hb
  | some x =>
    rw [hx] at hb
    exact ⟨left, right, x, hcomparison, hx, by simpa [File.isNil, hx] using hnil, hb⟩

theorem Guard.ProvesNil.isNamed {f : File} (hf : f.NamesAgree) {path : List Nat} {k : Nat}
    {g : Guard} {i : IdentId} (hg : f.HasGuard path k g) (hi : g.ProvesNil f i) :
    f.isNamed i = true ∧ f.isBound i = true := by
  obtain ⟨_, _, _, _, _, _, -, -, hguarded, -, -⟩ := hg
  obtain ⟨v, _, x, -, hx, hnil, hxb⟩ := exists_of_guarded? hguarded
  obtain ⟨y, hy, hyb⟩ := File.refersTo_iff.mp hi.refersTo
  have hname := hf x (Array.mem_of_getElem? hx) y (Array.mem_of_getElem? hy) _ hxb hyb
  refine ⟨?_, by simp [File.isBound, hy, hyb]⟩
  simpa [File.isNamed, hy, Ident.isNil, ← hname] using hnil

/-- What is open are the findings that no comment suppresses. -/
theorem exists_of_openFindings {marker : String} {f : File} {xs : List Finding}
    (h : openFindings marker f = .ok xs) :
    ∃ found, findings f = .ok found ∧ unsuppressed marker f found = xs := by
  unfold openFindings at h
  cases hfound : findings f with
  | error e => rw [hfound] at h; cases h
  | ok found => rw [hfound] at h; cases h; exact ⟨found, rfl, rfl⟩

theorem mem_raw_of_openFindings {marker : String} {f : File} {xs : List Finding}
    (h : openFindings marker f = .ok xs) {x : Finding} (hx : x ∈ xs) : x ∈ f.raw := by
  obtain ⟨found, hfound, rfl⟩ := exists_of_openFindings h
  exact mem_raw_of_findings hfound (List.mem_filter.mp hx).1

/-- In a file whose identifiers agree, whatever is open is a bound name. -/
theorem isNamed_of_open {marker : String} {f : File} (hf : f.NamesAgree) {xs : List Finding}
    (h : openFindings marker f = .ok xs) {x : Finding} (hx : x ∈ xs) :
    f.isNamed x.ident = true ∧ f.isBound x.ident = true := by
  obtain ⟨_, _, g, hg, hi, -⟩ := mem_raw.mp (mem_raw_of_openFindings h hx)
  exact hi.isNamed hf hg

/-! ### Passes -/

/-- The passes from a file and what is open in it to another one, with the findings that each pass
fixed. -/
inductive Passes (marker : String) :
    File → List Finding → List (List Finding) → File → List Finding → Prop where
  | refl (f : File) (xs : List Finding) : Passes marker f xs [] f xs
  | pass {f g : File} {xs ys zs : List Finding} {rounds : List (List Finding)} (hxs : xs ≠ [])
      (hpos : 0 < (fix f xs).2) (hopen : openFindings marker (fix f xs).1 = .ok ys)
      (hrest : Passes marker (fix f xs).1 ys rounds g zs) :
      Passes marker f xs (xs :: rounds) g zs

theorem fixAll_of_pass {marker : String} {f g : File} {xs ys : List Finding} {n : Nat}
    {fixed : Fixed} (hfix : fix f xs = (g, n + 1)) (hopen : openFindings marker g = .ok ys)
    (h : fixAll marker g ys = .ok fixed) :
    fixAll marker f xs = .ok { fixed with
      count := n + 1 + fixed.count,
      diagnostics := ys.map (·.diagnostic g) ++ fixed.diagnostics } := by
  rw [fixAll, hfix, if_neg (Nat.succ_ne_zero n), hopen]
  simp only [bind, Except.bind, h, pure, Except.pure]

/-- The first pass fixes what was open. -/
theorem Passes.flatten {marker : String} {f g : File} {xs : List Finding}
    {rounds : List (List Finding)} (h : Passes marker f xs rounds g []) :
    rounds.flatten = xs ++ rounds.tail.flatten := by
  cases h <;> simp

/-- A pass keeps what makes the next one replace something. -/
theorem Passes.invariant {marker : String} {f g : File} {xs ys : List Finding}
    {rounds : List (List Finding)} (h : Passes marker f xs rounds g ys) (hf : f.NamesAgree)
    (hxs : openFindings marker f = .ok xs) :
    g.NamesAgree ∧ openFindings marker g = .ok ys ∧
      rounds.length + boundCount g ≤ boundCount f := by
  induction h with
  | refl f xs => exact ⟨hf, hxs, by simp⟩
  | pass _ hpos hopen _ ih =>
    obtain ⟨hg, hys, hcount⟩ := ih (hf.fix _) hopen
    have := boundCount_fix fun x hx _ => (isNamed_of_open hf hxs hx).2
    refine ⟨hg, hys, ?_⟩
    rw [List.length_cons]
    omega

/-- Where something is open a pass replaces something, and uses up a bound identifier. -/
theorem fix_pos_of_open {marker : String} {f : File} (hf : f.NamesAgree) {xs : List Finding}
    (h : openFindings marker f = .ok xs) (hxs : xs ≠ []) :
    0 < (fix f xs).2 ∧ 0 < boundCount f := by
  obtain ⟨x, xs, rfl⟩ := List.exists_cons_of_ne_nil hxs
  have hpos : 0 < (fix f (x :: xs)).2 := fix_pos (isNamed_of_open hf h List.mem_cons_self).1
  have := boundCount_fix fun x hx _ => (isNamed_of_open hf h hx).2
  exact ⟨hpos, by omega⟩

/-- The passes end: with nothing open, which is what fixing gives, or in a fault that fixing
gives. -/
theorem exists_last_pass {marker : String} {f : File} (hf : f.NamesAgree) {xs : List Finding}
    (hxs : openFindings marker f = .ok xs) :
    (∃ rounds fixed, Passes marker f xs rounds fixed.file [] ∧ fixAll marker f xs = .ok fixed ∧
      namedCount fixed.file + fixed.count = namedCount f ∧
      fixed.diagnostics = rounds.tail.flatten.map (·.diagnostic f)) ∨
    (∃ rounds g ys fault, Passes marker f xs rounds g ys ∧ ys ≠ [] ∧
      openFindings marker (fix g ys).1 = .error fault ∧ fixAll marker f xs = .error fault) := by
  induction hcount : namedCount f using Nat.strongRecOn generalizing f xs with
  | ind count ih =>
    subst hcount
    rw [fixAll]
    split
    · next hzero =>
      -- Nothing was replaced, so nothing was open.
      cases xs with
      | nil => exact .inl ⟨[], ⟨f, 0, []⟩, .refl f [], rfl, rfl, rfl⟩
      | cons x xs =>
        have := (fix_pos_of_open hf hxs (List.cons_ne_nil x xs)).1
        omega
    · next hpos =>
      have hne : xs ≠ [] := by rintro rfl; exact hpos rfl
      cases hys : openFindings marker (fix f xs).1 with
      | error fault => exact .inr ⟨[], f, xs, fault, .refl f xs, hne, hys, rfl⟩
      | ok ys =>
        have hlt := namedCount_fix f xs
        obtain ⟨rounds, fixed, h, hfixed, hnamed, hdiagnostics⟩ |
            ⟨rounds, g, zs, fault, h, hzs, hopen, hfault⟩ := ih _ (by omega) (hf.fix xs) hys rfl
        · refine .inl ⟨xs :: rounds, ⟨fixed.file, (fix f xs).2 + fixed.count,
            ys.map (·.diagnostic (fix f xs).1) ++ fixed.diagnostics⟩,
            .pass hne (by omega) hys h, ?_, by simp only; omega, ?_⟩
          · simp only [hfixed, bind, Except.bind, pure, Except.pure]
          · simp only [List.tail_cons, hdiagnostics, diagnostic_fix, ← List.map_append, h.flatten]
        · exact .inr ⟨xs :: rounds, g, zs, fault, .pass hne (by omega) hys h, hzs, hopen, by
            simp [hfault, bind, Except.bind]⟩

/-- Fixing ends. From a file that was read from a source, every pass over what is open replaces
something, there are at most as many passes as bound identifiers, and unless a pass ends in a fault
the last one leaves nothing open. -/
theorem fixing_ends {path source marker : String} {f : File} {xs : List Finding}
    (hf : File.ofSource? path source = some f) (hxs : openFindings marker f = .ok xs) :
    (∀ rounds g ys, Passes marker f xs rounds g ys →
      rounds.length ≤ boundCount f ∧
      (ys ≠ [] → 0 < (fix g ys).2 ∧ rounds.length < boundCount f)) ∧
    ((∃ rounds fixed, Passes marker f xs rounds fixed.file [] ∧
        fixAll marker f xs = .ok fixed ∧ openFindings marker fixed.file = .ok []) ∨
      (∃ rounds g ys fault, Passes marker f xs rounds g ys ∧ ys ≠ [] ∧
        openFindings marker (fix g ys).1 = .error fault ∧ fixAll marker f xs = .error fault)) := by
  have hagree := File.namesAgree_of_ofSource? hf
  refine ⟨fun rounds g ys h => ?_, ?_⟩
  · obtain ⟨hg, hys, hcount⟩ := h.invariant hagree hxs
    refine ⟨by omega, fun hne => ?_⟩
    obtain ⟨hpos, hbound⟩ := fix_pos_of_open hg hys hne
    exact ⟨hpos, by omega⟩
  · obtain ⟨rounds, fixed, h, hfixed, -⟩ | hfault := exists_last_pass hagree hxs
    · exact .inl ⟨rounds, fixed, h, hfixed, (h.invariant hagree hxs).2.1⟩
    · exact .inr hfault

/-- A source with two reads after a guard. -/
def sampleSource : String := "func f()\x7bif e!=nil\x7breturn\x7d\ne()\ne()\x7d"

/-- Its tokens. -/
def sampleTokens : List Token :=
  [⟨.keyword, "func", ⟨0, 4, 1, 1⟩, false⟩, ⟨.name, "f", ⟨5, 6, 1, 6⟩, false⟩,
   ⟨.operator, "(", ⟨6, 7, 1, 7⟩, false⟩, ⟨.operator, ")", ⟨7, 8, 1, 8⟩, false⟩,
   ⟨.operator, "\x7b", ⟨8, 9, 1, 9⟩, false⟩, ⟨.keyword, "if", ⟨9, 11, 1, 10⟩, false⟩,
   ⟨.name, "e", ⟨12, 13, 1, 13⟩, false⟩, ⟨.operator, "!=", ⟨13, 15, 1, 14⟩, false⟩,
   ⟨.name, "nil", ⟨15, 18, 1, 16⟩, false⟩, ⟨.operator, "\x7b", ⟨18, 19, 1, 19⟩, false⟩,
   ⟨.keyword, "return", ⟨19, 25, 1, 20⟩, false⟩, ⟨.operator, "\x7d", ⟨25, 26, 1, 26⟩, false⟩,
   ⟨.name, "e", ⟨27, 28, 2, 1⟩, true⟩, ⟨.operator, "(", ⟨28, 29, 2, 2⟩, false⟩,
   ⟨.operator, ")", ⟨29, 30, 2, 3⟩, false⟩, ⟨.name, "e", ⟨31, 32, 3, 1⟩, true⟩,
   ⟨.operator, "(", ⟨32, 33, 3, 2⟩, false⟩, ⟨.operator, ")", ⟨33, 34, 3, 3⟩, false⟩,
   ⟨.operator, "\x7d", ⟨34, 35, 3, 4⟩, false⟩]

theorem tokens_sampleSource : tokens sampleSource.toList = some sampleTokens := by
  decide +kernel

/-- An identifier of the guarded variable, or `nil` in its place. -/
def sampleRead (replaced : Bool) (span : Span) : Ident :=
  if replaced then ⟨nilName, none, span⟩ else ⟨"e", some 1, span⟩

/-- Its tree, with the reads replaced or not. -/
def sampleFile (first second : Bool) : File where
  path := "p.go"
  source := sampleSource
  decls := [.func ⟨0, 35, 1, 1⟩ "f" (some (.mk ⟨8, 35, 1, 9⟩ [
    .ifStmt ⟨9, 26, 1, 10⟩ none
      (.binary ⟨12, 18, 1, 13⟩ .ne (.ident ⟨12, 13, 1, 13⟩ 0) (.ident ⟨15, 18, 1, 16⟩ 1))
      (.mk ⟨18, 26, 1, 19⟩ [.returnStmt ⟨19, 25, 1, 20⟩ []]) none,
    .expr ⟨27, 30, 2, 1⟩ (.call ⟨27, 30, 2, 1⟩ (.ident ⟨27, 28, 2, 1⟩ 2) []),
    .expr ⟨31, 34, 3, 1⟩ (.call ⟨31, 34, 3, 1⟩ (.ident ⟨31, 32, 3, 1⟩ 3) [])]))]
  idents := #[sampleRead false ⟨12, 13, 1, 13⟩, ⟨nilName, none, ⟨15, 18, 1, 16⟩⟩,
    sampleRead first ⟨27, 28, 2, 1⟩, sampleRead second ⟨31, 32, 3, 1⟩]
  bindings := #[⟨"f", .func, some ⟨5, 6, 1, 6⟩⟩, ⟨"e", .external, none⟩]

def sampleFinding (id : IdentId) (span : Span) : Finding :=
  ⟨"p.go", id, "e", 1, span, ⟨12, 18, 1, 13⟩⟩

theorem ofSource?_sampleSource :
    File.ofSource? "p.go" sampleSource = some (sampleFile false false) := by
  rw [File.ofSource?, Surface.Decl.ofSource?, tokens_sampleSource]
  cbv

theorem openFindings_sampleFile : openFindings "afternil:ignore" (sampleFile false false) =
    .ok [sampleFinding 2 ⟨27, 28, 2, 1⟩] := by
  cbv

/-- The first pass brings the second read to light. -/
theorem fixAll_sampleFile : ∃ ds, fixAll "afternil:ignore" (sampleFile false false)
    [sampleFinding 2 ⟨27, 28, 2, 1⟩] = .ok ⟨sampleFile true true, 2, ds⟩ := by
  have hfirst : fix (sampleFile false false) [sampleFinding 2 ⟨27, 28, 2, 1⟩] =
      (sampleFile true false, 1) := by cbv
  have hopen : openFindings "afternil:ignore" (sampleFile true false) =
      .ok [sampleFinding 3 ⟨31, 32, 3, 1⟩] := by cbv
  have hsecond : fix (sampleFile true false) [sampleFinding 3 ⟨31, 32, 3, 1⟩] =
      (sampleFile true true, 1) := by cbv
  have hclosed : openFindings "afternil:ignore" (sampleFile true true) = .ok [] := by cbv
  have hlast : fixAll "afternil:ignore" (sampleFile true true) [] =
      .ok ⟨sampleFile true true, 0, []⟩ := by
    rw [fixAll]; rfl
  exact ⟨_, fixAll_of_pass hfirst hopen (fixAll_of_pass hsecond hclosed hlast)⟩

/-- The two reads of the sample take two passes. -/
theorem fixing_ends_sampleSource : ∃ (f : File) (xs : List Finding),
    File.ofSource? "p.go" sampleSource = some f ∧
    openFindings "afternil:ignore" f = .ok xs ∧ xs ≠ [] ∧
    (∀ rounds g ys, Passes "afternil:ignore" f xs rounds g ys → rounds.length ≤ boundCount f) ∧
    ∃ (rounds : List (List Finding)) (fixed : Fixed),
      Passes "afternil:ignore" f xs rounds fixed.file [] ∧
      fixed.count = 2 ∧ openFindings "afternil:ignore" fixed.file = .ok [] := by
  obtain ⟨hpasses, hend⟩ := fixing_ends ofSource?_sampleSource openFindings_sampleFile
  refine ⟨_, _, ofSource?_sampleSource, openFindings_sampleFile, by simp,
    fun rounds g ys h => (hpasses rounds g ys h).1, ?_⟩
  obtain ⟨ds, hall⟩ := fixAll_sampleFile
  obtain ⟨rounds, fixed, h, hfixed, hopen⟩ | ⟨_, _, _, _, -, -, -, hfault⟩ := hend
  · rw [hall] at hfixed
    cases hfixed
    exact ⟨rounds, _, h, rfl, hopen⟩
  · rw [hall] at hfault
    cases hfault

end NilGuard
