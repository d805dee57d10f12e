/-!
Readers. A reader takes items from the front of a list or fails; a failed reader takes none, so
another one can be tried in its place.
-/

namespace NilGuard

abbrev Reader (τ : Type) := StateT (List τ) Option

namespace Reader

variable {τ α β : Type}

/-- Takes one item. -/
def next : Reader τ τ
  | t :: ts => some (t, ts)
  | [] => none

/-- Tries a reader. -/
def attempt (p : Reader τ α) : Reader τ (Option α) :=
  (some <$> p) <|> pure none

def manyUpTo (p : Reader τ (Option α)) : Nat → Reader τ (List α)
  | 0 => pure []
  | n + 1 => do
    match ← p with
    | none => return []
    | some a => return a :: (← manyUpTo p n)

/-- Repeats a reader until it gives nothing. When it gives something it must take an item. -/
def many (p : Reader τ (Option α)) : Reader τ (List α) := do
  manyUpTo p ((← get).length + 1)

def iterateUpTo (step : α → Reader τ (Option α)) : Nat → α → Reader τ α
  | 0, a => pure a
  | n + 1, a => do
    match ← step a with
    | none => return a
    | some b => iterateUpTo step n b

/-- Repeats a step from a value on until it gives nothing. When it gives something it must take an
item. -/
def iterate (step : α → Reader τ (Option α)) (a : α) : Reader τ α := do
  iterateUpTo step ((← get).length + 1) a

/-- What a reader would give here. Takes nothing. -/
def lookahead (p : Reader τ α) : Reader τ (Option α) :=
  fun ts => some ((p ts).map (·.1), ts)

/-- Reads the same items in two ways. The second way need not work, or not for the same items. -/
def both (p : Reader τ α) (q : Reader τ β) : Reader τ (α × Option β) := fun ts =>
  match p ts, q ts with
  | none, _ => none
  | some (a, rest), none => some ((a, none), rest)
  | some (a, rest), some (b, rest') =>
    some ((a, if rest'.length = rest.length then some b else none), rest)

/-- Takes the items of a class that stand in front. -/
def takeWhile (p : τ → Bool) : Reader τ (List τ) :=
  fun ts => some (ts.span p)

/-- Takes the given items. -/
def exactly [BEq τ] (items : List τ) : Reader τ Unit :=
  fun ts => if items.isPrefixOf ts then some ((), ts.drop items.length) else none

/-- Fails unless all is taken. -/
def atEnd : Reader τ Unit := do
  guard (← get).isEmpty

/-- What a reader makes of a whole list. -/
def readAll? (p : Reader τ α) (ts : List τ) : Option α :=
  ((p <* atEnd).run ts).map (·.1)

end Reader

end NilGuard
