import NilGuard.Text.Bytes

/-!
Lines of a text. A line ends with a newline, which may have one carriage return before it; the last
line may lack both.
-/

namespace NilGuard.Text

/-- Cuts a text after each newline. -/
def pieces : List Char → List (List Char)
  | [] => []
  | c :: cs =>
    if c = '\n' then [c] :: pieces cs
    else match pieces cs with
      | [] => [[c]]
      | piece :: rest => (c :: piece) :: rest

/-- A piece without its line ending. A carriage return counts only in front of a newline. -/
def chomp (piece : List Char) : List Char :=
  match piece.reverse with
  | '\n' :: '\r' :: rest => rest.reverse
  | '\n' :: rest => rest.reverse
  | _ => piece

/-- The lines of a text, without their endings. -/
def lines (cs : List Char) : List (List Char) :=
  (pieces cs).map chomp

/-- The line with the given number, counted from one. -/
def line? (cs : List Char) : Nat → Option (List Char)
  | 0 => none
  | n + 1 => (lines cs)[n]?

theorem flatten_pieces (cs : List Char) : (pieces cs).flatten = cs := by
  fun_induction pieces cs with
  | case1 => rfl
  | case2 _ ih => simp [ih]
  | case3 c cs hc hnil ih => simp_all
  | case4 c cs hc piece rest hcons ih => simp_all

end NilGuard.Text
