/-!
# Lines and columns

Where an offset of a text stands, as line and column, both counted from one. A line ends after a line break; a carriage return and the line feed behind it are one break. A break at the very end of a text starts no further line, and an empty text has no line at all.
-/

namespace Blockscript

structure Location where
  line : Nat
  column : Nat
deriving DecidableEq

namespace Location

/-- Line feed, vertical tab, form feed, carriage return, next line, line separator and paragraph separator. -/
def isLineBreak (c : Char) : Bool :=
  c == '\n' || c == '\x0b' || c == '\x0c' || c == '\r' || c == '\u0085' || c == '\u2028' || c == '\u2029'

/-- Whether a new line starts between the character and what follows it. -/
def startsLine (c : Char) (rest : List Char) : Bool :=
  isLineBreak c && !rest.isEmpty && !(c == '\r' && rest.head? == some '\n')

/-- The location `offset` characters further on. -/
def advance (l : Location) : (offset : Nat) → (text : List Char) → Location
  | 0, _ => l
  | _ + 1, [] => l
  | offset + 1, c :: rest =>
    advance (if startsLine c rest then ⟨l.line + 1, 1⟩ else ⟨l.line, l.column + 1⟩) offset rest

/-- The location of an offset; one behind the end counts as the end. Nothing stands in an empty text. -/
def ofOffset? (text : String) (offset : Nat) : Option Location :=
  match text.toList with
  | [] => none
  | c :: rest => some (advance ⟨1, 1⟩ offset (c :: rest))

end Location

end Blockscript
