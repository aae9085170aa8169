/-
The value of a literal.

The scanner has already decided between integers and doubles.  The tick that groups digits
is dropped wherever it stands, and what is left has to be a number of that type.
-/
import StackCalc.Decimal.Read
import StackCalc.Expr.Basic
import StackCalc.Value.Basic

namespace StackCalc.Value

/-- The characters of a number without the ticks between them. -/
def withoutTicks (text : String) : List Char :=
  text.toList.filter fun c => c != '\''

/-- An integer whose magnitude is above this has more than 32 bits. -/
def magnitudeBound : Nat := 2147483648

/-- The integer that the digits name, if it has at most 32 bits. -/
def integerOf? (text : String) : Option Value :=
  (readInt? magnitudeBound (withoutTicks text)).bind fun n =>
    if inRange n then some (.integer (Int32.ofInt n)) else none

/-- The value of a literal of the given kind. -/
def ofLiteral (kind : LiteralKind) (text : String) : Except ValueError Value :=
  match kind with
  | .number .integer => (integerOf? text).elim (.error (.invalidLiteral .integer text)) .ok
  | .number .double =>
    match readDouble? (withoutTicks text) with
    | some x => .ok (.double x)
    | none => .error (.invalidLiteral .double text)
  | .string => .ok (.string text)
  | .bool =>
    if text = "true" then .ok (.bool true)
    else if text = "false" then .ok (.bool false)
    else .error (.invalidLiteral .bool text)

end StackCalc.Value
