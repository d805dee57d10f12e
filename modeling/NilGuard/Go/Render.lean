import NilGuard.Go.Tree
import NilGuard.Text.Line

/-!
The text of a file whose identifiers may have been renamed. An identifier is an edit when its name
is not what the source has at its span.
-/

namespace NilGuard.Go.File

/-- Whether the source has an identifier's name at its span. -/
def inSource (source : List Char) (ident : Ident) : Bool :=
  Text.slice source ident.span.start ident.span.stop == some ident.name.toList

/-- The identifiers whose name is not in the source, in the order of the source, one for each
place. -/
def edits (f : File) : List Ident :=
  let source := f.source.toList
  ((f.idents.toList.filter (!inSource source ·)).mergeSort
    fun x y => x.span.start ≤ y.span.start).eraseRepsBy fun x y => x.span.start == y.span.start

/-- The text from offset `cursor` on with edits applied. An edit that begins before `cursor` or ends
after the text is left out. -/
def applyEdits (source : List Char) (cursor : Nat) : List Ident → List Char
  | [] => (Text.dropBytes source cursor).getD []
  | x :: xs =>
    if x.span.start < cursor || Text.byteLength source < x.span.stop then
      applyEdits source cursor xs
    else
      (Text.slice source cursor x.span.start).getD [] ++ x.name.toList
        ++ applyEdits source x.span.stop xs

/-- The source with every renamed identifier written by its new name. -/
def render (f : File) : String :=
  String.ofList (applyEdits f.source.toList 0 f.edits)

/-- The text of a line, counted from one. -/
def line? (f : File) (n : Nat) : Option String :=
  (Text.line? f.source.toList n).map String.ofList

end NilGuard.Go.File
