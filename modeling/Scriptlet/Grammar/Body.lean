import Scriptlet.Grammar.Chain

/-!
# Scriptlet.Grammar.Body

**Statements and blocks.** The next kinds decide which form a statement has: a keyword or a type
commits to its form, a name followed by `=` is an assignment, and anything else is an expression.
Choices and loops end with a block; all other forms end with a semicolon.

```
statement := "return" expression ";" | "if" condition block ["else" block]
           | "while" condition block | type name ["=" expression] ";"
           | name "=" expression ";" | expression ";"
block     := "{" statement* "}"
```
-/

namespace Scriptlet.Grammar

open Rule

/-- Reads the semicolon that ends a statement. -/
def ended (s : Stmt) : Rule Stmt := do
  let _ ← expect (.mark .semicolon)
  return s

/-- Reads a condition in parentheses. -/
def condition (expression : Rule Expr) : Rule Expr := do
  let _ ← expect (.mark .openParen)
  let c ← expression
  let _ ← expect (.mark .closeParen)
  return c

/-- Reads the block after `else`, if there is one. -/
def alternative (block : Rule (List Stmt)) : Rule (List Stmt) := do
  match ← peek with
  | .keyword .else =>
    advance
    block
  | _ => return []

/-- Reads a declaration. -/
def declaration (expression : Rule Expr) : Rule Stmt := do
  let t ← type
  let x ← name
  match ← peek with
  | .mark .assign =>
    advance
    let e ← expression
    ended (.init t x e)
  | .mark .semicolon => ended (.declare t x)
  | _ => fail .assignOrSemicolon

/-- Reads an assignment or an expression. -/
def simple (expression : Rule Expr) : Rule Stmt := fun ts =>
  if kindAt ts 0 = .identifier ∧ kindAt ts 1 = .mark .assign then
    (do
      let x ← name
      advance
      let e ← expression
      ended (.assign x e) : Rule Stmt) ts
  else
    (do
      let e ← expression
      ended (.eval e) : Rule Stmt) ts

/-- Reads a statement, given rules for the expressions and blocks in it. -/
def statementOf (expression : Rule Expr) (block : Rule (List Stmt)) : Rule Stmt := do
  match ← peek with
  | .keyword .return =>
    advance
    let e ← expression
    ended (.ret e)
  | .keyword .if =>
    advance
    let c ← condition expression
    let yes ← block
    let no ← alternative block
    return .branch c yes no
  | .keyword .while =>
    advance
    let c ← condition expression
    let body ← block
    return .loop c body
  | .type _ => declaration expression
  | _ => simple expression

/-- Reads statements up to the closing brace. -/
def statements (statement : Rule Stmt) : Nat → Rule (List Stmt)
  | 0 => exhausted
  | n + 1 => do
    match ← peek with
    | .mark .closeBrace =>
      advance
      return []
    | .endOfInput => fail (.kind (.mark .closeBrace))
    | _ =>
      let s ← statement
      let rest ← statements statement n
      return s :: rest

/-- Reads a block. -/
def blockOf (bound : Nat) (statement : Rule Stmt) : Rule (List Stmt) := do
  let _ ← expect (.mark .openBrace)
  statements statement bound

/-- Reads a statement that nests less than the given depth. -/
def statement : Nat → Rule Stmt
  | 0 => exhausted
  | n + 1 => statementOf (expression (n + 1)) (blockOf n (statement n))

/-- Reads a block that nests less than the given depth. -/
def block (n : Nat) : Rule (List Stmt) :=
  blockOf n (statement n)

end Scriptlet.Grammar
