import Scriptlet.Decimal.Layout
import Scriptlet.Decimal.Numeral
import Scriptlet.Value.Fault

/-!
# Scriptlet.Value.Basic

**Values.** The values that programs compute with, the type that each has, and the conversions
between a value and the place that wants it. The only implicit conversion is that of an integer to a
float where a float is declared.
-/

namespace Scriptlet

/-- A value of the language. -/
inductive Value where
  | int (n : Int64)
  | float (x : Float)
  | bool (b : Bool)
  | str (s : String)
  /-- The absence of a value: what a function gives that never returns one. -/
  | void
  deriving DecidableEq

namespace Value

/-- The type of a value. -/
def type : Value → Ty
  | int _ => .int
  | float _ => .float
  | bool _ => .bool
  | str _ => .string
  | void => .void

/-- The text of a value, as `print` shows it. -/
def text : Value → String
  | int n => toString n.toInt
  | float x => Decimal.floatText x
  | bool b => if b then "true" else "false"
  | str s => s
  | void => "void"

/-- Whether a value is an integer or a float. -/
def isNumber : Value → Bool
  | int _ | float _ => true
  | _ => false

/-- The value of a variable that is declared without one. -/
def initial : Ty → Except Fault Value
  | .int => .ok (int 0)
  | .float => .ok (float 0.0)
  | .bool => .ok (bool false)
  | .string => .ok (str "")
  | .void => .error (.typeMismatch .noDefault)

/-- The float nearest to an integer. -/
def promote (n : Int64) : Float :=
  Decimal.ofInt n.toInt

/-- The boolean that a place asks for. -/
def toBool (place : TestPlace) : Value → Except Fault Bool
  | bool b => .ok b
  | v => .error (.typeMismatch (.notBool place v.type))

/-- A number as a float. -/
def toFloat : Value → Except Fault Float
  | float x => .ok x
  | int n => .ok (promote n)
  | v => .error (.typeMismatch (.notNumber v.type))

/-- The value to store in a slot of type `t`: an integer becomes a float where a float is declared,
any other value must have the declared type. -/
def conform (slot : Slot) (t : Ty) (v : Value) : Except Fault Value :=
  match t, v with
  | .float, int n => .ok (float (promote n))
  | t, v => if v.type = t then .ok v else .error (.typeMismatch (.unfit slot t v.type))

end Value

end Scriptlet
