import Blockscript.Fault

/-!
# Reading tokens

A source text is cut into pieces from left to right, each as long as its rule allows: a white space character, a comment with the line break that ends it, or a token. A text is refused at the first place where no piece fits.
-/

namespace Blockscript.Scan

/-- What a piece of the source contributes. -/
inductive Content where
  | blank
  | token (kind : Kind) (literal : Option Value)
deriving DecidableEq

/-- A piece is given by the number of its characters after the first one. -/
structure Piece where
  after : Nat
  content : Content
deriving DecidableEq

/-- Why no piece fits. -/
inductive Problem where
  | unexpectedCharacter (c : Char)
  | unterminatedString
  /-- A second decimal point, with the text up to it. -/
  | repeatedPoint (text : String)
  /-- A text that was taken for a number and has no value. -/
  | unreadableNumber (text : String)
deriving DecidableEq

def Problem.message (offset : Nat) : Problem → String
  | unexpectedCharacter c => "Unexpected character '" ++ c.toString ++ "' at " ++ toString offset
  | unterminatedString => "Unterminated string"
  | repeatedPoint text => "Invalid number format: multiple decimal points in '" ++ text ++ "'"
  | unreadableNumber text => "Invalid number format: '" ++ text ++ "'"

/-- A problem and the number of characters that it concerns. -/
structure Refusal where
  problem : Problem
  width : Nat
deriving DecidableEq

def isBlank (c : Char) : Bool :=
  c == ' ' || c == '\t' || c == '\r' || c == '\n'

def isQuote (c : Char) : Bool := c == '"'

def isPoint (c : Char) : Bool := c == '.'

/-- Characters that continue a name. -/
def isWordChar (c : Char) : Bool :=
  c.isAlphanum || c == '_'

/-- Tokens of one character that no second character can change. -/
def single? (c : Char) : Option Kind :=
  match c with
  | ';' => some .semicolon
  | ',' => some .comma
  | '\x7b' => some .leftBrace
  | '\x7d' => some .rightBrace
  | '(' => some .leftParen
  | ')' => some .rightParen
  | '+' => some .add
  | '-' => some .subtract
  | '*' => some .multiply
  | '|' => some .or
  | _ => none

/-- Tokens that an equals sign after them turns into another one: both kinds. -/
def paired? (c : Char) : Option (Kind × Kind) :=
  match c with
  | '<' => some (.lessThan, .lessEqual)
  | '>' => some (.greaterThan, .greaterEqual)
  | '=' => some (.assign, .equivalent)
  | '!' => some (.not, .notEqual)
  | _ => none

/-- The kind of a word: a keyword by its exact text, else a name. -/
def wordKind (text : String) : Kind :=
  match text with
  | "if" => .ifWord
  | "else" => .elseWord
  | "for" => .forWord
  | "while" => .whileWord
  | "true" => .trueWord
  | "false" => .falseWord
  | "fun" => .funWord
  | "return" => .returnWord
  | "var" => .varWord
  | "print" => .printWord
  | "null" => .nullWord
  | _ => .identifier

/-- The number written as a whole part and the digits after the point. -/
def numberValue (whole fraction : List Char) : Value :=
  .number (Number.ofDecimal (Nat.ofDigitChars 10 (whole ++ fraction) 0) fraction.length)

/-- The rest of a comment after its two slashes: up to and including the next line break. -/
def commentLength (cs : List Char) : Nat :=
  match cs.dropWhile (· != '\n') with
  | [] => cs.length
  | _ :: _ => (cs.takeWhile (· != '\n')).length + 1

/-- A string after its opening quote. -/
def stringPiece (cs : List Char) : Except Refusal Piece :=
  let inside := cs.takeWhile (!isQuote ·)
  match cs.dropWhile (!isQuote ·) with
  | [] => .error ⟨.unterminatedString, cs.length + 1⟩
  | _ :: _ => .ok ⟨inside.length + 1, .token .string (some (.string (String.ofList inside)))⟩

/-- The value of a decimal text: digits with at most one point among them. Any other text has none. -/
def readNumber? (text : List Char) : Option Value :=
  let whole := text.takeWhile Char.isDigit
  match text.dropWhile Char.isDigit with
  | [] => if whole = [] then none else some (numberValue whole [])
  | c :: fraction =>
    if isPoint c ∧ fraction.all Char.isDigit ∧ whole ++ fraction ≠ [] then some (numberValue whole fraction)
    else none

/-- The piece of a text that is taken for a number. -/
def numberToken (first : Char) (more : List Char) : Except Refusal Piece :=
  match readNumber? (first :: more) with
  | some value => .ok ⟨more.length, .token .number (some value)⟩
  | none => .error ⟨.unreadableNumber (String.ofList (first :: more)), more.length + 1⟩

/-- A number after its first digit. -/
def numberPiece (first : Char) (cs : List Char) : Except Refusal Piece :=
  let whole := cs.takeWhile Char.isDigit
  match cs.dropWhile Char.isDigit with
  | [] => numberToken first whole
  | c :: rest =>
    if isPoint c then
      let fraction := rest.takeWhile Char.isDigit
      if (rest.dropWhile Char.isDigit).head?.any isPoint then
        let text := first :: whole ++ '.' :: fraction ++ ['.']
        .error ⟨.repeatedPoint (String.ofList text), text.length⟩
      else numberToken first (whole ++ '.' :: fraction)
    else numberToken first whole

/-- A name or keyword after its first letter. -/
def wordPiece (first : Char) (cs : List Char) : Piece :=
  let more := cs.takeWhile isWordChar
  ⟨more.length, .token (wordKind (String.ofList (first :: more))) none⟩

/-- The piece that begins with `c` when `cs` follows. -/
def piece (c : Char) (cs : List Char) : Except Refusal Piece :=
  if isBlank c then .ok ⟨0, .blank⟩
  else match single? c with
  | some kind => .ok ⟨0, .token kind none⟩
  | none =>
    match paired? c with
    | some (plain, withEquals) =>
      if cs.head? = some '=' then .ok ⟨1, .token withEquals none⟩ else .ok ⟨0, .token plain none⟩
    | none =>
      if c = '/' then
        if cs.head? = some '/' then .ok ⟨1 + commentLength cs.tail, .blank⟩
        else .ok ⟨0, .token .divide none⟩
      else if isQuote c then stringPiece cs
      else if c.isDigit then numberPiece c cs
      else if c.isAlpha then .ok (wordPiece c cs)
      else .error ⟨.unexpectedCharacter c, 1⟩

/-- A text refused at a place. -/
structure Misread where
  place : Place
  problem : Problem
deriving DecidableEq

def Misread.fault (m : Misread) : Fault :=
  .lexical m.place (m.problem.message m.place.span.start)

/-- The tokens of a text and the number of its lines. -/
structure Reading where
  tokens : List Token
  lines : Nat
deriving DecidableEq

/-- Puts a piece in front of what was read after it. -/
def Reading.cons (text : List Char) (place : Place) (content : Content) (r : Reading) : Reading :=
  match content with
  | .blank => r
  | .token kind literal => { r with tokens := ⟨kind, String.ofList text, place, literal⟩ :: r.tokens }

/-- Reads on from a line and an offset. -/
def readFrom (line offset : Nat) (source : List Char) : Except Misread Reading :=
  match source with
  | [] => .ok ⟨[], line⟩
  | c :: cs =>
    match piece c cs with
    | .error r => .error ⟨⟨line, ⟨offset, offset + r.width⟩⟩, r.problem⟩
    | .ok p =>
      let text := c :: cs.take p.after
      match readFrom (line + text.count '\n') (offset + text.length) (cs.drop p.after) with
      | .error m => .error m
      | .ok r => .ok (r.cons text ⟨line, ⟨offset, offset + text.length⟩⟩ p.content)
termination_by source.length
decreasing_by simp only [List.length_drop, List.length_cons]; omega

/-- Reads a whole text. -/
def read (source : String) : Except Misread Reading :=
  readFrom 1 0 source.toList

end Blockscript.Scan

namespace Blockscript

/-- The tokens of a source text, or the fault at the first place where no token fits. -/
def scan (source : String) : Except Fault (List Token) :=
  match Scan.read source with
  | .ok r => .ok r.tokens
  | .error m => .error m.fault

end Blockscript
