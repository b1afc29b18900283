import Scriptlet.Decimal.Rank
import Scriptlet.Syntax.Operator

/-!
# Scriptlet.Syntax.Basic

**Syntax trees.** Expressions, statements, functions and programs. A binary operator takes the whole
rest of its expression as right operand, so a chain such as `1 + 2 * 3` is a tree that leans to the
right.

`Expr.same`, `Stmt.same` and `Program.same` compare trees as programs compare numbers: the two zeros
are the same literal and a NaN is not the same as itself.
-/

namespace Scriptlet

/-- An expression. -/
inductive Expr where
  | int (n : Int64)
  | float (x : Float)
  | str (s : String)
  | bool (b : Bool)
  | var (name : String)
  | call (function : String) (args : List Expr)
  | binary (left : Expr) (op : BinOp) (right : Expr)
  /-- A variable stepped up or down in place. -/
  | step (s : Step) (place : Placement) (operand : Expr)

/-- A statement. -/
inductive Stmt where
  /-- Declares a variable with an initial value. -/
  | init (type : Ty) (name : String) (value : Expr)
  /-- Declares a variable with the initial value of its type. -/
  | declare (type : Ty) (name : String)
  | assign (name : String) (value : Expr)
  /-- An expression evaluated for its effects. -/
  | eval (e : Expr)
  /-- A choice between two blocks; a missing second block is empty. -/
  | branch (condition : Expr) (yes no : List Stmt)
  | loop (condition : Expr) (body : List Stmt)
  | ret (value : Expr)

/-- A parameter of a function. -/
structure Param where
  type : Ty
  name : String
  deriving Repr, DecidableEq

/-- A function definition. -/
structure Function where
  result : Ty
  name : String
  params : List Param
  body : List Stmt

/-- A program: its functions in the order of the source. -/
abbrev Program := List Function

namespace Expr

/-- Whether an expression can be an operand without parentheses. -/
def isAtom : Expr → Bool
  | binary .. | step .. => false
  | _ => true

/-! ### Sameness -/

mutual

/-- Whether two expressions are the same, with equality of numbers on float literals. -/
def same : Expr → Expr → Bool
  | int m, int n => m == n
  | float x, float y => Decimal.sameNumber x y
  | str s, str t => s == t
  | bool a, bool b => a == b
  | var x, var y => x == y
  | call f as, call g bs => f == g && sameAll as bs
  | binary l op r, binary l' op' r' => op == op' && l.same l' && r.same r'
  | step s p e, step s' p' e' => s == s' && p == p' && e.same e'
  | _, _ => false

/-- Whether two lists of expressions are the same. -/
def sameAll : List Expr → List Expr → Bool
  | [], [] => true
  | a :: as, b :: bs => a.same b && sameAll as bs
  | _, _ => false

end

end Expr

namespace Stmt

mutual

/-- Whether two statements are the same. -/
def same : Stmt → Stmt → Bool
  | init t x e, init t' x' e' => t == t' && x == x' && e.same e'
  | declare t x, declare t' x' => t == t' && x == x'
  | assign x e, assign x' e' => x == x' && e.same e'
  | eval e, eval e' => e.same e'
  | branch c yes no, branch c' yes' no' => c.same c' && sameAll yes yes' && sameAll no no'
  | loop c body, loop c' body' => c.same c' && sameAll body body'
  | ret e, ret e' => e.same e'
  | _, _ => false

/-- Whether two lists of statements are the same. -/
def sameAll : List Stmt → List Stmt → Bool
  | [], [] => true
  | s :: ss, t :: ts => s.same t && sameAll ss ts
  | _, _ => false

end

end Stmt

/-- Whether two functions are the same. -/
def Function.same (f g : Function) : Bool :=
  f.result == g.result && f.name == g.name && f.params == g.params && Stmt.sameAll f.body g.body

/-- Whether two programs are the same. -/
def Program.same : Program → Program → Bool
  | [], [] => true
  | f :: p, g :: q => f.same g && Program.same p q
  | _, _ => false

end Scriptlet
