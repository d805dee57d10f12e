import NilGuard.Proofs.JsonText
import NilGuard.Report.Record

/-!
Records of diagnostics. A list of diagnostics comes back from its JSON text, whatever characters its
texts have and whichever of its parts are missing. Lines and columns are read as words of 32 bits,
so the list comes back if and only if they all fit (`diagnostics_read_back`).
-/

namespace NilGuard.Report

open Json

/-- Reading restores a written value that fits, and gives nothing for one that does not fit. -/
def Restores (write : α → Json) (read : Json → Option α) (Fits : α → Prop) : Prop :=
  ∀ a b, read (write a) = some b ↔ Fits a ∧ a = b

/-- A number is read back exactly if it fits in a word. -/
theorem restores_word : Restores Json.ofNat Json.word? (· < UInt32.size) := by
  intro m n
  simp [Json.ofNat, Json.word?]

/-- A list is read back exactly if its entries are. -/
theorem Restores.list {write : α → Json} {read : Json → Option α} {Fits : α → Prop}
    (h : Restores write read Fits) :
    Restores (fun as => .array (as.map write)) (Json.list? read) (fun as => ∀ a ∈ as, Fits a) := by
  intro as
  induction as with
  | nil => simp [Json.list?]
  | cons a as ih =>
    intro bs
    simp only [Json.list?, List.map_cons, List.mapM_cons, Option.bind_eq_bind, Option.pure_def,
      Option.bind_eq_some_iff, Option.some.injEq, List.forall_mem_cons] at ih ⊢
    constructor
    · rintro ⟨b, hb, bs, hbs, rfl⟩
      obtain ⟨ha, rfl⟩ := (h a b).mp hb
      obtain ⟨has, rfl⟩ := (ih bs).mp hbs
      exact ⟨⟨ha, has⟩, rfl⟩
    · rintro ⟨⟨ha, has⟩, rfl⟩
      exact ⟨a, (h a a).mpr ⟨ha, rfl⟩, as, (ih as).mpr ⟨has, rfl⟩, rfl⟩

theorem optional?_of_ne_null {name : String} {j value : Json} (read : Json → Option α)
    (hj : j.member? name = some (some value)) (hnull : value ≠ .null) :
    j.optional? name read = (read value).map some := by
  rw [Json.optional?, hj, Option.bind_eq_bind, Option.bind_some]
  cases value with
  | null => contradiction
  | _ =>
    rw [Option.map_eq_bind]
    rfl

/-- A part that may be missing is restored, as null is no written value. -/
theorem Restores.option {write : α → Json} {read : Json → Option α} {Fits : α → Prop}
    (h : Restores write read Fits) (hnull : ∀ a, write a ≠ .null) (name : String) {j : Json}
    {o : Option α} (hj : j.member? name = some (some (.ofOption write o))) (b : Option α) :
    j.optional? name read = some b ↔ (∀ a ∈ o, Fits a) ∧ o = b := by
  cases o with
  | none => simp [Json.optional?, hj, Json.ofOption]
  | some a =>
    rw [optional?_of_ne_null read hj (hnull a), Json.ofOption, Option.map_eq_some_iff]
    simp [h a _, and_assoc]

/-! ### Lines and columns -/

def Location.Fits (l : Location) : Prop :=
  l.line < UInt32.size ∧ l.column < UInt32.size ∧ l.endLine < UInt32.size ∧
    l.endColumn < UInt32.size

def RootCause.Fits (r : RootCause) : Prop :=
  r.line < UInt32.size

def Edit.Fits (e : Edit) : Prop :=
  e.startLine < UInt32.size ∧ e.endLine < UInt32.size

def Fix.Fits (f : Fix) : Prop :=
  ∀ e ∈ f.edits, e.Fits

/-- The lines and columns of a diagnostic are words of 32 bits. -/
def Diagnostic.Fits (d : Diagnostic) : Prop :=
  d.location.Fits ∧ (∀ r ∈ d.rootCause, r.Fits) ∧ ∀ f ∈ d.fix, f.Fits

attribute [local simp] Json.required? Json.member? Json.string? Option.bind_eq_some_iff

theorem restores_location : Restores Location.toJson Location.ofJson? Location.Fits := by
  rintro ⟨⟩ b
  simp [Location.toJson, Location.ofJson?, restores_word _ _, Location.Fits, and_assoc]

theorem restores_rootCause : Restores RootCause.toJson RootCause.ofJson? RootCause.Fits := by
  rintro ⟨⟩ b
  simp [RootCause.toJson, RootCause.ofJson?, restores_word _ _, RootCause.Fits]

theorem restores_edit : Restores Edit.toJson Edit.ofJson? Edit.Fits := by
  rintro ⟨_, _, _, _ | _, _⟩ b <;>
    simp [Edit.toJson, Edit.ofJson?, restores_word _ _, Edit.Fits, and_assoc, Json.optional?,
      Json.ofOption]

theorem restores_fix : Restores Fix.toJson Fix.ofJson? Fix.Fits := by
  rintro ⟨⟩ b
  simp [Fix.toJson, Fix.ofJson?, restores_edit.list _ _, Fix.Fits]

/-- A diagnostic is read back exactly if its places are words. -/
theorem restores_diagnostic : Restores Diagnostic.toJson Diagnostic.ofJson? Diagnostic.Fits := by
  intro d b
  have hseverity : d.toJson.required? "severity" Severity.ofJson? = some d.severity := by
    simp [Diagnostic.toJson, Severity.ofJson?]
  have horigin : d.toJson.required? "source" Origin.ofJson? = some d.origin := by
    simp [Diagnostic.toJson, Origin.ofJson?]
  have hcause := restores_rootCause.option (j := d.toJson) (o := d.rootCause)
    (by simp [RootCause.toJson]) "root_cause" (by simp [Diagnostic.toJson])
  have hfix := restores_fix.option (j := d.toJson) (o := d.fix) (by simp [Fix.toJson]) "fix"
    (by simp [Diagnostic.toJson])
  simp only [Diagnostic.ofJson?, Option.bind_eq_bind, hseverity, horigin, Option.bind_some,
    Option.bind_eq_some_iff, hcause, hfix]
  simp [Diagnostic.toJson, restores_location _ _, Diagnostic.Fits, and_assoc]

/-! ### Texts -/

theorem whole_toJson (d : Diagnostic) : d.toJson.Whole := by
  simp [Diagnostic.toJson, Location.toJson, RootCause.toJson, Fix.toJson, Edit.toJson, Json.ofNat]

/-- A list of diagnostics comes back from its text if and only if its lines and columns are words of
32 bits. -/
theorem diagnostics_read_back (ds : List Diagnostic) :
    ofRecord? (record ds) = some ds ↔ ∀ d ∈ ds, d.Fits := by
  have hwhole : (Json.array (ds.map Diagnostic.toJson)).Whole := .array (by simp [whole_toJson])
  rw [ofRecord?, record, parse?_write hwhole]
  exact (restores_diagnostic.list ds ds).trans (and_iff_left rfl)

end NilGuard.Report
