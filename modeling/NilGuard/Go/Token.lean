import NilGuard.Go.Lexeme
import NilGuard.Go.Span

/-!
Tokens: the lexemes that carry meaning, each with its span and with a mark for a newline in front of
it. A newline inside a comment does not count.
-/

namespace NilGuard.Go

/-- A name as it is written in the source. -/
structure Name where
  text : String
  span : Span
  deriving DecidableEq, Repr, Inhabited

structure Token where
  kind : Lexeme.Kind
  text : String
  span : Span
  /-- Whether a newline stands between this token and the one before it. -/
  fresh : Bool
  deriving DecidableEq, Repr, Inhabited

namespace Token

/-- Whether a token is the given keyword, operator or punctuation mark. -/
def is (t : Token) (text : String) : Bool :=
  (t.kind == .keyword || t.kind == .operator) && t.text == text

/-- The name that a token spells. -/
def name? (t : Token) : Option Name :=
  if t.kind == .name then some ⟨t.text, t.span⟩ else none

/-- The tokens among lexemes that begin at a point. `fresh` tells of a newline right before it. -/
def ofLexemes (p : Position) (fresh : Bool) : List Lexeme → List Token
  | [] => []
  | l :: ls =>
    let p' := p.after l.text
    match l.kind with
    | .blank => ofLexemes p' (fresh || l.text.contains '\n') ls
    | .comment => ofLexemes p' fresh ls
    | kind => ⟨kind, String.ofList l.text, p.spanOf l.text, fresh⟩ :: ofLexemes p' false ls

end Token

/-- The tokens of a source text. A byte order mark may stand in front of it. -/
def tokens (source : List Char) : Option (List Token) :=
  match source with
  | '\ufeff' :: cs => (lexemes cs).map (Token.ofLexemes (({} : Position).next '\ufeff') false)
  | cs => (lexemes cs).map (Token.ofLexemes {} false)

end NilGuard.Go
