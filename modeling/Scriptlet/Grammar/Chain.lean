import Scriptlet.Decimal.Numeral
import Scriptlet.Grammar.Rule
import Scriptlet.Syntax.Basic
import Scriptlet.Text.Quoted

/-!
# Scriptlet.Grammar.Chain

**Expressions.** An expression is a chain of atoms joined by binary operators. The first operator
takes the whole rest of the chain as its right operand, so all operators have one precedence and
chains lean to the right. A step before or after an atom ends the chain:

```
expression := step atom | atom step | atom operator expression | atom
atom       := literal | name | name "(" [expression ("," expression)*] ")" | "(" expression ")"
```

A chain is read in a loop that keeps the operands and operators passed so far, nearest first, and
builds the tree from the right once the last operand is known. Only parentheses and arguments make
the recursion deeper. The number that `expression` takes bounds that depth and the length of every
chain and list; one more than the number of tokens is always enough.
-/

namespace Scriptlet.Grammar

open Rule

/-- Joins the operands and operators before the last operand of a chain to it. -/
def joinChain (pending : List (Expr × BinOp)) (last : Expr) : Expr :=
  pending.foldl (fun right p => .binary p.1 p.2 right) last

/-- Reads an atom; `expression` reads what stands inside parentheses. -/
def atom (bound : Nat) (expression : Rule Expr) : Rule Expr
  | [] => .error (.unexpectedEnd .expression) []
  | t :: rest =>
    match t.kind with
    | .int =>
      match Decimal.readInt64? t.lexeme with
      | some n => .ok (.int n) rest
      | none => .error (.literalTooLarge t.lexeme t.offset) (t :: rest)
    | .float =>
      match Decimal.readFloat? t.lexeme with
      | some x => .ok (.float x) rest
      | none => .error (.literalTooLarge t.lexeme t.offset) (t :: rest)
    | .str => .ok (.str (Text.unquote t.lexeme)) rest
    | .keyword .true => .ok (.bool true) rest
    | .keyword .false => .ok (.bool false) rest
    | .identifier =>
      if kindAt rest 0 = .mark .openParen then
        (Expr.call t.lexeme <$> listOf bound expression (.mark .closeParen)) rest.tail
      else .ok (.var t.lexeme) rest
    | .mark .openParen =>
      (do let e ← expression; let _ ← expect (.mark .closeParen); return e : Rule Expr) rest
    | _ => .error (.expressionExpected t.lexeme t.offset) (t :: rest)

/-- Reads the rest of a chain after the operands and operators in `pending`. -/
def chainOnto (atom : Rule Expr) : Nat → List (Expr × BinOp) → Rule Expr
  | 0, _ => exhausted
  | n + 1, pending => do
    match ← peek with
    | .step s =>
      advance
      let e ← atom
      return joinChain pending (.step s .before e)
    | _ =>
      let e ← atom
      match ← peek with
      | .step s =>
        advance
        return joinChain pending (.step s .after e)
      | .operator op =>
        advance
        chainOnto atom n ((e, op) :: pending)
      | _ => return joinChain pending e

/-- Reads an expression that nests less than the given depth. -/
def expression : Nat → Rule Expr
  | 0 => exhausted
  | n + 1 => chainOnto (atom n (expression n)) (n + 1) []

end Scriptlet.Grammar
