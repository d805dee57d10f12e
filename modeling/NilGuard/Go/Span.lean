import NilGuard.Text.Bytes

/-!
Places in a source text. Offsets and columns count bytes; lines and columns count from one.
-/

namespace NilGuard.Go

/-- The bytes from `start` up to `stop`, with the line and column of the first. -/
structure Span where
  start : Nat
  stop : Nat
  line : Nat
  column : Nat
  deriving DecidableEq, Repr, Inhabited

/-- The span from the beginning of one span to the end of a later one. -/
def Span.upTo (first last : Span) : Span :=
  { first with stop := last.stop }

/-- A point between two characters of a text. -/
structure Position where
  offset : Nat := 0
  line : Nat := 1
  column : Nat := 1
  deriving DecidableEq, Repr, Inhabited

namespace Position

/-- The point after one more character. -/
def next (p : Position) (c : Char) : Position :=
  if c = '\n' then { offset := p.offset + c.utf8Size, line := p.line + 1, column := 1 }
  else { p with offset := p.offset + c.utf8Size, column := p.column + c.utf8Size }

/-- The point after a text. -/
def after (p : Position) (cs : List Char) : Position :=
  cs.foldl next p

/-- The span of a text that begins at a point. -/
def spanOf (p : Position) (cs : List Char) : Span :=
  { start := p.offset, stop := p.offset + Text.byteLength cs, line := p.line, column := p.column }

@[simp] theorem offset_next (p : Position) (c : Char) :
    (p.next c).offset = p.offset + c.utf8Size := by
  unfold next; split <;> rfl

@[simp] theorem offset_after (p : Position) (cs : List Char) :
    (p.after cs).offset = p.offset + Text.byteLength cs := by
  induction cs generalizing p with
  | nil => rfl
  | cons c cs ih => simp only [after, List.foldl_cons] at ih ⊢; rw [ih]; simp; omega

end Position

end NilGuard.Go
