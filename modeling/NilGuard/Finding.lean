import NilGuard.Reads

/-!
Findings: reads of a variable that a guard proves to be nil. Every block of a file is searched for
guards, except that the body of a case is no block.
-/

namespace NilGuard

open Go

/-- A read of a variable that can only be nil. -/
structure Finding where
  file : String
  ident : IdentId
  name : String
  binding : BindingId
  span : Span
  /-- Where the condition of the guard stands. -/
  guard : Span
  deriving DecidableEq, Repr

def Finding.line (x : Finding) : Nat := x.span.line

def Finding.column (x : Finding) : Nat := x.span.column

/-- Enters everything, and takes the statements of a case as part of the case. -/
def scanned : Descent where
  next
    | .clause (.mk values comm body) =>
      values.map .expr ++ comm.toList.map .stmt ++ Node.ofBlock body
    | n => n.children
  size_lt n m h := by
    cases n with
    | clause c =>
      obtain ⟨values, comm, body⟩ := c
      simp only [List.mem_append, or_assoc] at h
      simp only [Node.size_clause, Clause.mk.sizeOf_spec]
      rcases h with h | h | h
      · have := Node.size_lt_of_mem_map_expr h; omega
      · have := Node.size_lt_of_mem_opt_stmt h; omega
      · have := Node.size_lt_of_mem_ofBlock h; omega
    | _ => exact Node.size_lt_of_mem_children h

/-- The blocks that are searched for guards, each before those inside it. -/
def scannedBlocks (f : File) : List Block :=
  (f.roots.flatMap scanned.walk).filterMap fun
    | .block b => some b
    | _ => none

/-- The finding for a read. -/
def findingOf (f : File) (g : Guard) (id : IdentId) : Finding :=
  let ident := f.idents[id]?.getD default
  { file := f.path, ident := id, name := ident.name, binding := g.binding, span := ident.span,
    guard := g.span }

/-- The findings of the guards among the statements of a block. -/
def blockFindings (f : File) : List Stmt → Except Fault (List Finding)
  | [] => return []
  | s :: ss => do
    let here := match ← guardAt? f (s :: ss) with
      | none => []
      | some g => (g.reads f).map (findingOf f g)
    return here ++ (← blockFindings f ss)

/-- The findings of several blocks in their order. The first fault ends the search. -/
def allFindings (f : File) : List Block → Except Fault (List Finding)
  | [] => return []
  | b :: bs => do
    let here ← blockFindings f b.stmts
    return here ++ (← allFindings f bs)

/-- The findings of a file in the order of the source, each read once. -/
def findings (f : File) : Except Fault (List Finding) := do
  let found ← allFindings f (scannedBlocks f)
  return (found.mergeSort fun x y => x.span.start ≤ y.span.start).eraseRepsBy
    fun x y => x.ident == y.ident

/-! ### Fixing -/

/-- Replaces one read by `nil`, unless it is `nil` already, and counts it. -/
def fixOne (state : File × Nat) (x : Finding) : File × Nat :=
  let (f, n) := state
  if f.isNamed x.ident then (f.rename x.ident nilName, n + 1) else (f, n)

/-- Replaces the reads by `nil`. Gives the number of those that were not `nil` yet. -/
def fix (f : File) (xs : List Finding) : File × Nat :=
  xs.foldl fixOne (f, 0)

/-- Number of identifiers that are not the nil literal. -/
def namedCount (f : File) : Nat :=
  f.idents.toList.countP (!·.isNil)

theorem countP_modify_add_one {p : α → Bool} {g : α → α} (hg : ∀ a, p (g a) = false) {as : List α}
    {i : Nat} (h : as[i]?.any p) : (as.modify i g).countP p + 1 = as.countP p := by
  induction as generalizing i with
  | nil => simp at h
  | cons a as ih =>
    cases i with
    | zero => simp_all
    | succ i =>
      have := ih (i := i) (by simpa using h)
      simp only [List.modify_succ_cons, List.countP_cons]
      omega

theorem namedCount_rename {f : File} {id : IdentId} (h : f.isNamed id) :
    namedCount (f.rename id nilName) + 1 = namedCount f := by
  simp only [namedCount, File.rename, Array.toList_modify]
  refine countP_modify_add_one (fun a => by simp [Ident.isNil]) ?_
  simpa [File.isNamed] using h

theorem namedCount_foldl_fixOne (state : File × Nat) (xs : List Finding) :
    namedCount (xs.foldl fixOne state).1 + (xs.foldl fixOne state).2
      = namedCount state.1 + state.2 := by
  induction xs generalizing state with
  | nil => rfl
  | cons x xs ih =>
    rw [List.foldl_cons, ih, fixOne]
    split
    · next h => have := namedCount_rename h; dsimp only; omega
    · rfl

/-- Fixing leaves as many names fewer as it counts. -/
theorem namedCount_fix (f : File) (xs : List Finding) :
    namedCount (fix f xs).1 + (fix f xs).2 = namedCount f :=
  namedCount_foldl_fixOne (f, 0) xs

end NilGuard
