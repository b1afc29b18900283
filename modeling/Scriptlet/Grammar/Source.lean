import Scriptlet.Grammar.Body
import Scriptlet.Syntax.Printer
import Scriptlet.Token.Lexer

/-!
# Scriptlet.Grammar.Source

**Definitions and programs.** A program is a sequence of function definitions that fills its text.

```
definition := type name "(" [type name ("," type name)*] ")" block
program    := definition* end
```

The rules named `read…` are the public ones: they bound depth and length by the number of tokens
they are given, which no reading exceeds. `Program.parse` reads a text, and `Program.format` gives
its canonical layout.
-/

namespace Scriptlet.Grammar

open Rule

/-- Reads a parameter. -/
def param : Rule Param := do
  let t ← type
  let x ← name
  return ⟨t, x⟩

/-- Reads a function definition. -/
def definition (bound : Nat) : Rule Function := do
  let t ← type
  let f ← name
  let _ ← expect (.mark .openParen)
  let params ← listOf bound param (.mark .closeParen)
  let body ← block bound
  return ⟨t, f, params, body⟩

/-- Reads definitions as long as a type comes next, and then the end. -/
def definitions (bound : Nat) : Nat → Rule Program
  | 0 => exhausted
  | n + 1 => do
    match ← peek with
    | .type _ =>
      let f ← definition bound
      let rest ← definitions bound n
      return f :: rest
    | _ =>
      let _ ← expectAs .definitionOrEnd .endOfInput
      return []

/-! ### Public rules -/

/-- Reads an expression. -/
def readExpression : Rule Expr := fun ts => expression (ts.length + 1) ts

/-- Reads an atom. -/
def readAtom : Rule Expr := fun ts => atom (ts.length + 1) (expression (ts.length + 1)) ts

/-- Reads a statement. -/
def readStatement : Rule Stmt := fun ts => statement (ts.length + 1) ts

/-- Reads a block, braces included. -/
def readBlock : Rule (List Stmt) := fun ts => block (ts.length + 1) ts

/-- Reads a function definition. -/
def readDefinition : Rule Function := fun ts => definition (ts.length + 1) ts

/-- Reads a program and the end of the text. -/
def readProgram : Rule Program := fun ts => definitions (ts.length + 1) (ts.length + 1) ts

end Scriptlet.Grammar

namespace Scriptlet

/-- What a rule reads from a list of tokens, whatever is left over. -/
def Rule.result {α : Type} (r : Rule α) (ts : List Token) : Except SyntaxError α :=
  match r ts with
  | .ok a _ => .ok a
  | .error e _ => .error e

/-- Reads a text as a program. -/
def Program.parse (source : String) : Except SyntaxError Program :=
  Grammar.readProgram.result (Token.lex source)

/-- The canonical text of the program that a text spells. -/
def Program.format (source : String) : Except SyntaxError String :=
  (Program.parse source).map Program.print

end Scriptlet
