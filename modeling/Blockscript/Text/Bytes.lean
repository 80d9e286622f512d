/-!
# Texts as bytes

The text that bytes stand for in UTF-8, and the lines of a stream of bytes.
-/

namespace Blockscript.Text

/-- The text of a list of bytes, none if they are not valid UTF-8. -/
def decode? (bytes : List UInt8) : Option String :=
  String.fromUTF8? (ByteArray.mk bytes.toArray)

/-- Cuts after every line feed. A last line may lack it. -/
def splitLines : List UInt8 → List (List UInt8)
  | [] => []
  | b :: rest =>
    if b = 10 then [b] :: splitLines rest
    else match splitLines rest with
    | [] => [[b]]
    | line :: more => (b :: line) :: more

end Blockscript.Text
