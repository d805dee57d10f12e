import NilGuard.Text.Letter
import NilGuard.Text.Line

/-!
Generated sources say so in a comment before the package clause.
-/

namespace NilGuard

/-- Whether a line is the remark that a file is generated. -/
def isGeneratedRemark (line : List Char) : Bool :=
  "// Code generated ".toList.isPrefixOf line
    && " DO NOT EDIT.".toList.isSuffixOf (Text.trimEnd line)

/-- Whether a source has the remark on a line before its package clause. -/
def isGenerated (source : String) : Bool :=
  ((Text.lines source.toList).takeWhile fun line => !"package ".toList.isPrefixOf line).any
    isGeneratedRemark

end NilGuard
