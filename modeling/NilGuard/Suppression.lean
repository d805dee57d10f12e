import NilGuard.Finding
import NilGuard.Go.Render

/-!
Suppression: a finding is dropped when its line has a `//` comment that contains a marker.
-/

namespace NilGuard

open Go

/-- Where a scan along a line stands. -/
inductive LineState where
  | code
  /-- Inside a literal that the given quote began and will end. -/
  | literal (quote : Char)
  /-- Behind a backslash inside a literal. -/
  | escaped (quote : Char)
  deriving DecidableEq, Repr

namespace LineState

/-- Whether a character begins a literal. -/
def isQuote (c : Char) : Bool :=
  c == '"' || c == '\'' || c == '\x60'

/-- The state behind a character. Nothing is escaped between back quotes. -/
def next : LineState → Char → LineState
  | .code, c => if isQuote c then .literal c else .code
  | .literal q, c =>
    if c = '\\' ∧ q ≠ '\x60' then .escaped q
    else if c = q then .code
    else .literal q
  | .escaped q, _ => .literal q

/-- Offset of the first `//` in the code of a line that is scanned from a state. -/
def commentStart? : LineState → List Char → Option Nat
  | _, [] => none
  | state, c :: cs =>
    if state = .code ∧ "//".toList <+: c :: cs then some 0
    else (commentStart? (state.next c) cs).map (c.utf8Size + ·)

end LineState

/-- Offset of the `//` that begins the comment of a line. A literal that was begun on an earlier
line is not known here. -/
def commentStart? (line : List Char) : Option Nat :=
  LineState.code.commentStart? line

/-- Whether the comment of a line contains the marker. The empty marker is in no comment. -/
def suppressed (marker line : List Char) : Bool :=
  !marker.isEmpty &&
    ((commentStart? line).bind (Text.dropBytes line)).any (Text.contains marker)

/-- The findings on lines whose comment does not contain the marker. -/
def unsuppressed (marker : String) (f : File) (xs : List Finding) : List Finding :=
  let source := f.source.toList
  xs.filter fun x => !(Text.line? source x.line).any (suppressed marker.toList)

/-- A comment begins where a character begins. -/
theorem LineState.exists_of_commentStart? {state : LineState} {line : List Char} {n : Nat}
    (h : state.commentStart? line = some n) :
    ∃ before comment, line = before ++ "//".toList ++ comment ∧ Text.byteLength before = n := by
  fun_induction LineState.commentStart? state line generalizing n with
  | case1 => simp at h
  | case2 state c cs hstart =>
    obtain ⟨comment, hcomment⟩ := hstart.2
    exact ⟨[], comment, by simpa using hcomment.symm, by simpa using h⟩
  | case3 state c cs _ ih =>
    simp only [Option.map_eq_some_iff] at h
    obtain ⟨m, hm, rfl⟩ := h
    obtain ⟨before, comment, rfl, rfl⟩ := ih hm
    exact ⟨c :: before, comment, by simp, by simp⟩

end NilGuard
