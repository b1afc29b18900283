import Scriptlet.Decimal.Layout
import Scriptlet.Syntax.Basic
import Scriptlet.Text.Quoted

/-!
# Scriptlet.Syntax.Printer

**The canonical text of a program.** One layout for all programs: a statement to a line, four spaces
for each block around it, a blank line between functions, and parentheses only where the grammar
needs them. Right operands need none, since a chain of operators leans to the right; a left operand
and the operand of a step need them unless they are atoms.

The writers append to the text written so far, and the right spine of a chain is a tail call, so a
long chain costs neither stack nor repeated copying.
-/

namespace Scriptlet

namespace Expr

mutual

/-- Appends the text of an expression. -/
def write (out : String) : Expr → String
  | int n => out ++ toString n.toInt
  | float x => out ++ Decimal.floatText x
  | str s => out ++ Text.quote s
  | bool b => out ++ (if b then "true" else "false")
  | var x => out ++ x
  | call f args => writeArgs (out ++ f ++ "(") args ++ ")"
  | binary l op r =>
    let left := if l.isAtom then l.write out else l.write (out ++ "(") ++ ")"
    r.write (left ++ " " ++ op.symbol ++ " ")
  | step s .before e =>
    if e.isAtom then e.write (out ++ s.symbol) else e.write (out ++ s.symbol ++ "(") ++ ")"
  | step s .after e =>
    (if e.isAtom then e.write out else e.write (out ++ "(") ++ ")") ++ s.symbol

/-- Appends the arguments of a call. -/
def writeArgs (out : String) : List Expr → String
  | [] => out
  | [a] => a.write out
  | a :: rest => writeArgs (a.write out ++ ", ") rest

end

/-- The text of an expression. -/
def print (e : Expr) : String :=
  e.write ""

end Expr

/-- Appends the indentation of `depth` blocks. -/
def writeIndent (out : String) : Nat → String
  | 0 => out
  | depth + 1 => writeIndent (out ++ "    ") depth

namespace Stmt

mutual

/-- Appends the lines of a statement inside `depth` blocks. -/
def write (depth : Nat) (out : String) : Stmt → String
  | init t x e => e.write (writeIndent out depth ++ t.text ++ " " ++ x ++ " = ") ++ ";\n"
  | declare t x => writeIndent out depth ++ t.text ++ " " ++ x ++ ";\n"
  | assign x e => e.write (writeIndent out depth ++ x ++ " = ") ++ ";\n"
  | eval e => e.write (writeIndent out depth) ++ ";\n"
  | branch c yes no =>
    let head := c.write (writeIndent out depth ++ "if (") ++ ") \x7b\n"
    let middle := writeIndent (writeAll (depth + 1) head yes) depth ++ "\x7d else \x7b\n"
    writeIndent (writeAll (depth + 1) middle no) depth ++ "\x7d\n"
  | loop c body =>
    let head := c.write (writeIndent out depth ++ "while (") ++ ") \x7b\n"
    writeIndent (writeAll (depth + 1) head body) depth ++ "\x7d\n"
  | ret e => e.write (writeIndent out depth ++ "return ") ++ ";\n"

/-- Appends the lines of several statements. -/
def writeAll (depth : Nat) (out : String) : List Stmt → String
  | [] => out
  | s :: rest => writeAll depth (s.write depth out) rest

end

end Stmt

/-- The text of a parameter. -/
def Param.print (p : Param) : String :=
  p.type.text ++ " " ++ p.name

/-- Appends the lines of a function. -/
def Function.write (out : String) (f : Function) : String :=
  let params := String.intercalate ", " (f.params.map Param.print)
  let head := out ++ f.result.text ++ " " ++ f.name ++ "(" ++ params ++ ") \x7b\n"
  Stmt.writeAll 1 head f.body ++ "\x7d\n"

/-- Appends the functions of a program, with a blank line between them. -/
def Program.writeOnto (out : String) : Program → String
  | [] => out
  | [f] => f.write out
  | f :: rest => Program.writeOnto (f.write out ++ "\n") rest

/-- The canonical text of a program. -/
def Program.print (p : Program) : String :=
  Program.writeOnto "" p

end Scriptlet
