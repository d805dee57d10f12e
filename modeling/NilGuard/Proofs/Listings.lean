import Mathlib.Data.List.Forall2
import NilGuard.Report.Listing

/-!
What a listing shows. An entry is the heading of a diagnostic and the lines of its own file from
`max 1 (line + 1 - context)` up to its line. Counting them does not fail as long as lines are words
of 32 bits. The texts that are kept from one diagnostic to the next are those that would be looked
up again (`Listing.Faithful`), so an entry depends on its own diagnostic alone.
-/

namespace NilGuard

/-! ### Lines by their numbers -/

namespace Text

/-- The numbers from `first` to `last`. -/
def numbers (first last : Nat) : List Nat :=
  List.range' first (last + 1 - first)

/-- Lines that are skipped and taken have the numbers from the first one taken on, as far as there
are lines. -/
theorem forall₂_numbers (cs : List Char) {first : Nat} (hfirst : 0 < first) (last : Nat) :
    List.Forall₂ (fun number line => line? cs number = some line)
      (numbers first (min last (lines cs).length))
      (((lines cs).drop (first - 1)).take (last + 1 - first)) := by
  obtain ⟨skipped, rfl⟩ : ∃ skipped, first = skipped + 1 := ⟨first - 1, by omega⟩
  rw [List.forall₂_iff_get]
  refine ⟨?_, fun i hi hi' => ?_⟩
  · simp only [numbers, List.length_range', List.length_take, List.length_drop]
    omega
  · have hnumber : skipped + 1 + i = skipped + i + 1 := by omega
    simp only [numbers, List.get_eq_getElem, List.getElem_range', List.getElem_take,
      List.getElem_drop, Nat.one_mul, Nat.add_sub_cancel, hnumber, line?]
    exact List.getElem?_eq_getElem _

end Text

namespace Report

/-! ### Counting -/

/-- Counting does not fail, and the context begins with line `max 1 (last + 1 - context)`. -/
theorem window?_eq {last context : Nat} (hlast : last < UInt32.size) (hcontext : context ≠ 0) :
    window? last context =
      some (max 1 (last + 1 - context) - 1, last + 1 - max 1 (last + 1 - context)) := by
  have hfirst : max 1 (last - (context - 1)) = max 1 (last + 1 - context) := by omega
  have hsum : last + 1 < UInt64.size := by
    simp only [UInt32.size, UInt64.size] at hlast ⊢
    omega
  have hcount : max 1 (last + 1 - context) ≤ last + 1 := by omega
  rw [window?, difference?, if_pos (by omega), sum?, if_pos hsum]
  simp only [Option.bind_eq_bind, Option.bind_some, hfirst]
  rw [difference?, if_pos (Nat.le_max_left _ _), difference?, if_pos hcount]
  rfl

/-! ### Entries -/

/-- The lines that an entry for line `last` of a text shows. -/
def contextLines (source : List Char) (last context : Nat) : List (List Char) :=
  let first := max 1 (last + 1 - context)
  ((Text.lines source).drop (first - 1)).take (last + 1 - first)

/-- The entry of a diagnostic. -/
def entry (read : String → String) (context : Nat) (d : Diagnostic) : String :=
  d.heading ++
    String.join ((contextLines (read d.location.file).toList d.location.line context).map
      fun line => String.ofList line ++ "\n")

/-- No lines are shown if there are no numbers to show. -/
theorem contextLines_eq_nil {source : List Char} {last context : Nat} (h : context = 0 ∨ last = 0 ∨
    (Text.lines source).length < max 1 (last + 1 - context)) :
    contextLines source last context = [] := by
  apply List.eq_nil_of_length_eq_zero
  simp only [contextLines, List.length_take, List.length_drop]
  omega

namespace Listing

variable {read : String → String} {l : Listing} {d : Diagnostic}

/-- What is known of a file is what would be looked up. -/
def Faithful (read : String → String) (known : Sources) : Prop :=
  ∀ file text, known.lookup file = some text → text = read file

theorem Faithful.lookUp (h : Faithful read l.known) (file : String) :
    (l.lookUp read file).1 = read file ∧ Faithful read (l.lookUp read file).2 := by
  unfold Listing.lookUp
  cases hfile : l.known.lookup file with
  | some text => exact ⟨h file text hfile, h⟩
  | none =>
    refine ⟨rfl, fun other text hother => ?_⟩
    rw [List.lookup_cons] at hother
    split at hother
    · next heq =>
      obtain rfl : other = file := by simpa using heq
      exact (Option.some.inj hother).symm
    · exact h other text hother

/-- One diagnostic adds its entry. -/
theorem add?_eq (h : Faithful read l.known) (context : Nat)
    (hline : d.location.line < UInt32.size) :
    ∃ known, add? read context l d = some ⟨l.text ++ entry read context d, known⟩ ∧
      Faithful read known := by
  unfold add?
  dsimp only
  split
  · next hcontext =>
    subst hcontext
    refine ⟨l.known, ?_, h⟩
    rw [entry, contextLines_eq_nil (.inl rfl), List.map_nil, String.join_nil, String.append_empty]
  · next hcontext =>
    obtain ⟨hread, hknown⟩ := h.lookUp d.location.file
    refine ⟨_, ?_, hknown⟩
    rw [window?_eq hline hcontext, hread, entry, ← String.append_assoc]
    rfl

/-- A list of diagnostics adds their entries one behind the other. -/
theorem foldlM_add? {ds : List Diagnostic} (h : Faithful read l.known) (context : Nat)
    (hds : ∀ d ∈ ds, d.location.line < UInt32.size) :
    ∃ known, ds.foldlM (add? read context) l =
      some ⟨l.text ++ String.join (ds.map (entry read context)), known⟩ := by
  induction ds generalizing l with
  | nil => exact ⟨l.known, by simp⟩
  | cons d ds ih =>
    obtain ⟨hd, hds⟩ := List.forall_mem_cons.mp hds
    obtain ⟨known, hadd, hknown⟩ := add?_eq h context hd
    obtain ⟨last, hrest⟩ := ih (l := ⟨l.text ++ entry read context d, known⟩) hknown hds
    refine ⟨last, ?_⟩
    rw [List.foldlM_cons, hadd, Option.bind_eq_bind, Option.bind_some, hrest]
    simp [String.append_assoc]

end Listing

theorem listing?_eq {read : String → String} {ds : List Diagnostic}
    (hds : ∀ d ∈ ds, d.location.line < UInt32.size) (context : Nat) :
    listing? read ds context = some (String.join (ds.map (entry read context))) := by
  have hempty : Listing.Faithful read ({} : Listing).known := fun file text h => by cases h
  obtain ⟨known, hfold⟩ := Listing.foldlM_add? hempty context hds
  rw [listing?, hfold]
  simp

/-- A listing shows for each diagnostic its heading and then lines of the file of the diagnostic:
those from `max 1 (line + 1 - context)` up to its own line, as far as the file has them, and none if
there are no such numbers. What is shown is fixed before the list of diagnostics is, and counting
never fails. A file that is not among the sources is taken from the disk. -/
theorem listing_shows_context (sources : Sources) (disk : String → Option String) (context : Nat) :
    ∃ shown : Location → List (List Char),
      (∀ l : Location, List.Forall₂
        (fun number line => Text.line? (sources.textOr disk l.file).toList number = some line)
        (Text.numbers (max 1 (l.line + 1 - context))
          (min l.line (Text.lines (sources.textOr disk l.file).toList).length)) (shown l)) ∧
      (∀ l : Location, context = 0 ∨ l.line = 0 ∨
        (Text.lines (sources.textOr disk l.file).toList).length < max 1 (l.line + 1 - context) →
          shown l = []) ∧
      (∀ ds : List Diagnostic, (∀ d ∈ ds, d.location.line < UInt32.size) →
        listing? (sources.textOr disk) ds context = some (String.join (ds.map fun d =>
          d.heading ++
            String.join ((shown d.location).map fun line => String.ofList line ++ "\n")))) ∧
      ∀ ds : List Diagnostic, (∀ d ∈ ds, d.location.line < UInt32.size) →
        listing? sources.text ds context = some (listing ds sources context) := by
  refine ⟨fun l => contextLines (sources.textOr disk l.file).toList l.line context, fun l => ?_,
    fun l hnone => contextLines_eq_nil hnone, fun ds hds => listing?_eq hds context,
    fun ds hds => ?_⟩
  · exact Text.forall₂_numbers _ (by omega) l.line
  · rw [listing, listing?_eq hds context, Option.getD_some]

/-- Diagnostics in two files, the second one on the disk: at the last line, at no line, far behind
the end, and at a line that an earlier entry shows too. -/
def sampleDiagnostics : List Diagnostic :=
  [("p.go", 3), ("p.go", 0), ("q.go", 4294967295), ("p.go", 2)].map fun (file, line) =>
    { id := "", rule := "", severity := .error, title := "", explanation := "",
      location := ⟨file, line, 1, line, 1⟩, rootCause := none, fix := none, origin := .refAfterNil }

theorem listing_shows_context_sampleDiagnostics :
    (∀ d ∈ sampleDiagnostics, d.location.line < UInt32.size) ∧
    listing? (Sources.textOr [("p.go", "a\r\nb\nc")] fun file =>
        if file = "q.go" then some "x" else none)
      sampleDiagnostics 2 = some ("Reference after nil check at p.go:3:1\nb\nc\n" ++
        "Reference after nil check at p.go:0:1\nReference after nil check at q.go:4294967295:1\n" ++
        "Reference after nil check at p.go:2:1\na\nb\n") := by
  have hds : ∀ d ∈ sampleDiagnostics, d.location.line < UInt32.size := by decide
  obtain ⟨shown, hshown, -, hlisting, -⟩ := listing_shows_context [("p.go", "a\r\nb\nc")]
    (fun file => if file = "q.go" then some "x" else none) 2
  have hfilter : ∀ {cs ns ls}, List.Forall₂ (fun n line => Text.line? cs n = some line) ns ls →
      ls = ns.filterMap (Text.line? cs) := by
    intro cs ns ls h
    induction h with
    | nil => rfl
    | cons hline _ ih => rw [List.filterMap_cons_some hline, ← ih]
  refine ⟨hds, (hlisting _ hds).trans ?_⟩
  simp only [sampleDiagnostics, List.map_cons, List.map_nil, fun l => hfilter (hshown l)]
  decide +kernel

end Report

end NilGuard
