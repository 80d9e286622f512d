import Blockscript.Proofs.Scope.Frame
import Blockscript.Session.Eval

/-!
# Programs over a stack of maps

The plain meaning of a program, without handles and generations. The variables of a running program are a list of finite maps, one for each open block, the innermost first. A block runs with an empty map in front of the others and drops that map when it ends, whether it succeeds or not.
-/

namespace Blockscript

/-- The variables of all open blocks, the innermost first. -/
abbrev Frames := List Frame

namespace Frames

/-- The value of a name in the first frame that holds it. -/
def get? (name : String) : Frames → Option Value
  | [] => none
  | frame :: outer =>
    match frame.lookup name with
    | some value => some value
    | none => get? name outer

/-- Puts a name into the innermost frame. -/
def define (name : String) (value : Value) : Frames → Frames
  | [] => []
  | frame :: outer => frame.insert name value :: outer

/-- Replaces a name in the first frame that holds it; none if no frame does. -/
def assign? (name : String) (value : Value) : Frames → Option Frames
  | [] => none
  | frame :: outer =>
    if name ∈ frame then some (frame.insert name value :: outer)
    else (assign? name value outer).map (frame :: ·)

end Frames

/-- What a piece of a program means: it reads and changes the frames, and gives a value or a fault. -/
abbrev Meaning (α : Type) := ExceptT Fault (StateM Frames) α

namespace Meaning

variable {α β : Type}

/-- The value or fault of a meaning on given frames, and the frames it leaves. -/
def outcome (m : Meaning α) (frames : Frames) : Except Fault α × Frames :=
  StateT.run (ExceptT.run m) frames

/-- Runs inside an empty frame of its own, which is dropped in the end. -/
def inBlock (m : Meaning α) : Meaning α :=
  ExceptT.mk fun frames => ((m.outcome (∅ :: frames)).1, (m.outcome (∅ :: frames)).2.tail)

/-- Reads a name. One that no frame holds is null. -/
def read (name : String) : Meaning Value := do
  let frames ← get
  return (Frames.get? name frames).getD .null

/-- Changes a name and gives its new value. It is a fault at the name if no frame holds it. -/
def write (name : Token) (value : Value) : Meaning Value := do
  match Frames.assign? name.lexeme value (← get) with
  | some frames =>
    set frames
    return value
  | none => throw (.undefinedVariable name.place name.lexeme)

/-- Puts a name into the innermost frame. -/
def declare (name : String) (value : Value) : Meaning Unit :=
  modify (Frames.define name value)

theorem outcome_bind_ok {m : Meaning α} {frames after : Frames} {value : α}
    (h : m.outcome frames = (.ok value, after)) (next : α → Meaning β) :
    (m >>= next).outcome frames = (next value).outcome after := by
  change StateT.run (ExceptT.run m) frames = _ at h
  change StateT.run (ExceptT.run m >>= ExceptT.bindCont next) frames = _
  rw [StateT.run_bind, h]
  rfl

theorem outcome_bind_error {m : Meaning α} {frames after : Frames} {fault : Fault}
    (h : m.outcome frames = (.error fault, after)) (next : α → Meaning β) :
    (m >>= next).outcome frames = (.error fault, after) := by
  change StateT.run (ExceptT.run m) frames = _ at h
  change StateT.run (ExceptT.run m >>= ExceptT.bindCont next) frames = _
  rw [StateT.run_bind, h]
  rfl

theorem outcome_get (frames : Frames) : (get : Meaning Frames).outcome frames = (.ok frames, frames) := rfl

theorem outcome_read (name : String) (frames : Frames) :
    (read name).outcome frames = (.ok ((Frames.get? name frames).getD .null), frames) := rfl

theorem outcome_write_some {name : Token} {value : Value} {frames after : Frames}
    (h : Frames.assign? name.lexeme value frames = some after) :
    (write name value).outcome frames = (.ok value, after) := by
  rw [write, outcome_bind_ok (outcome_get frames)]
  simp only [h]
  rfl

theorem outcome_write_none {name : Token} {value : Value} {frames : Frames}
    (h : Frames.assign? name.lexeme value frames = none) :
    (write name value).outcome frames =
      (.error (.undefinedVariable name.place name.lexeme), frames) := by
  rw [write, outcome_bind_ok (outcome_get frames)]
  simp only [h]
  rfl

end Meaning

/-- What an expression means. A name that no frame holds reads as null. -/
def Expr.meaning : Expr → Meaning Value
  | .literal value _ => pure value
  | .grouping inner _ => inner.meaning
  | .unary operator right _ => do
    let value ← right.meaning
    liftExcept (Operator.applyUnary operator value)
  | .binary left operator right _ => do
    let a ← left.meaning
    let b ← right.meaning
    liftExcept (Operator.applyBinary operator a b)
  | .reference name => .read name.lexeme
  | .assign name inner _ => do
    let value ← inner.meaning
    .write name value

/-- What the value of a declaration means, null if none is written. -/
def Expr.meaningOptional : Option Expr → Meaning Value
  | some e => e.meaning
  | none => pure .null

mutual

/-- What a statement means: the values that it gives. Those of assignments are left out. -/
def Stmt.meaning : Stmt → Meaning (List Value)
  | .expression (.assign name inner span) _ => do
    let _ ← (Expr.assign name inner span).meaning
    return []
  | .expression e _ => do
    let value ← e.meaning
    return [value]
  | .var name initializer _ => do
    let value ← Expr.meaningOptional initializer
    .declare name.lexeme value
    return []
  | .block body _ => (Stmt.meaningAll body).inBlock

/-- What statements mean one after another. The first fault ends them. -/
def Stmt.meaningAll : List Stmt → Meaning (List Value)
  | [] => pure []
  | stmt :: rest => do
    let values ← stmt.meaning
    let more ← Stmt.meaningAll rest
    return values ++ more

end

namespace Frames

/-- A global frame without variables. -/
def fresh : Frames := [∅]

/-- The outcomes of programs run one after another, each on the frames that the one before left. -/
def runAll : List (List Stmt) → Frames → List (Except Fault (List Value) × Frames)
  | [], _ => []
  | program :: rest, frames =>
    let outcome := (Stmt.meaningAll program).outcome frames
    outcome :: runAll rest outcome.2

end Frames

end Blockscript
