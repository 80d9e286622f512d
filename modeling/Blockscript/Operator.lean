import Blockscript.Fault

/-!
# Operators on values

An operator is applied to the values of its operands. Operands that it does not accept are a fault at the operator's place.
-/

namespace Blockscript.Operator

def mistyped (operator : Token) (operands : List Value) : Fault :=
  .invalidType operator.place operator.lexeme operands

def applyUnary (operator : Token) (right : Value) : Except Fault Value :=
  match operator.kind with
  | .not => .ok (.bool (!right.truthy))
  | .subtract =>
    match right with
    | .number x => .ok (.number (-x))
    | _ => .error (mistyped operator [right])
  | _ => .error (mistyped operator [right])

/-- Joins texts if a string takes part, else adds numbers. -/
def add (operator : Token) (left right : Value) : Except Fault Value :=
  if left.isString || right.isString then .ok (.string (left.text ++ right.text))
  else match left, right with
  | .number x, .number y => .ok (.number (x + y))
  | _, _ => .error (mistyped operator [left, right])

/-- The operators that take two numbers; none for any other kind. -/
def arithmetic? (kind : Kind) (x y : Float) : Option Value :=
  match kind with
  | .subtract => some (.number (x - y))
  | .multiply => some (.number (x * y))
  | .divide => some (.number (x / y))
  | .greaterThan => some (.bool (x > y))
  | .greaterEqual => some (.bool (x ≥ y))
  | .lessThan => some (.bool (x < y))
  | .lessEqual => some (.bool (x ≤ y))
  | _ => none

def calculate (operator : Token) (left right : Value) : Except Fault Value :=
  match left, right with
  | .number x, .number y =>
    match arithmetic? operator.kind x y with
    | some value => .ok value
    | none => .error (mistyped operator [left, right])
  | _, _ => .error (mistyped operator [left, right])

def applyBinary (operator : Token) (left right : Value) : Except Fault Value :=
  match operator.kind with
  | .add => add operator left right
  | .equivalent => .ok (.bool (left.equivalent right))
  | .notEqual => .ok (.bool (!left.equivalent right))
  | .or => .ok (.bool (left.truthy || right.truthy))
  | _ => calculate operator left right

/-! ### Faults of operators

An operator refuses its operands at its own place, and for no other reason than their types. -/

theorem applyUnary_error {operator : Token} {right : Value} {fault : Fault}
    (h : applyUnary operator right = .error fault) : fault = mistyped operator [right] := by
  unfold applyUnary at h
  split at h
  · cases h
  · split at h
    · cases h
    · exact (Except.error.inj h).symm
  · exact (Except.error.inj h).symm

theorem add_error {operator : Token} {left right : Value} {fault : Fault}
    (h : add operator left right = .error fault) : fault = mistyped operator [left, right] := by
  unfold add at h
  split at h
  · cases h
  · split at h
    · cases h
    · exact (Except.error.inj h).symm

theorem calculate_error {operator : Token} {left right : Value} {fault : Fault}
    (h : calculate operator left right = .error fault) : fault = mistyped operator [left, right] := by
  unfold calculate at h
  split at h
  · split at h
    · cases h
    · exact (Except.error.inj h).symm
  · exact (Except.error.inj h).symm

theorem applyBinary_error {operator : Token} {left right : Value} {fault : Fault}
    (h : applyBinary operator left right = .error fault) : fault = mistyped operator [left, right] := by
  unfold applyBinary at h
  split at h
  · exact add_error h
  · cases h
  · cases h
  · cases h
  · exact calculate_error h

end Blockscript.Operator
