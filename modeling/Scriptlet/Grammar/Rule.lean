import Scriptlet.Grammar.SyntaxError

/-!
# Scriptlet.Grammar.Rule

**Rules.** A rule reads something from the front of a list of tokens. It either succeeds with what
it has read and the tokens left over, or fails with an error and the tokens from the offending one
on: a rule that fails has taken exactly the tokens before the one it complains about.

Rules are `EStateM` computations whose state is the list of tokens still to be read. There is no
backtracking; every choice is made by looking at kinds ahead of the cursor, and beyond the end of
the list the kind seen is that of the end of the text.

Repetition takes a bound on its rounds. Every round reads a token, so a bound above the number of
tokens is never reached; `exhausted` is what a rule would answer there.
-/

namespace Scriptlet

/-- Reads an `α` from the front of a list of tokens. -/
abbrev Rule (α : Type) := EStateM SyntaxError (List Token) α

/-- The kind of the token at a distance from the cursor. -/
def kindAt (ts : List Token) (n : Nat) : Kind :=
  match ts[n]? with
  | some t => t.kind
  | none => .endOfInput

namespace Rule

/-- The kind of the next token, which stays where it is. -/
@[inline] def peek : Rule Kind := fun ts => .ok (kindAt ts 0) ts

/-- Passes over the next token. -/
@[inline] def advance : Rule Unit := fun ts => .ok () ts.tail

/-- Fails at the next token. -/
def fail {α : Type} (expected : Expected) : Rule α
  | [] => .error (.unexpectedEnd expected) []
  | t :: rest => .error (.unexpectedToken expected t.lexeme t.offset) (t :: rest)

/-- The answer of a rule whose bound is used up. -/
def exhausted {α : Type} : Rule α :=
  fail .expression

/-- Reads a token of the given kind. -/
def expectAs (expected : Expected) (k : Kind) : Rule Token
  | [] => .error (.unexpectedEnd expected) []
  | t :: rest =>
    if t.kind = k then .ok t rest
    else .error (.unexpectedToken expected t.lexeme t.offset) (t :: rest)

/-- Reads a token of the given kind. -/
def expect (k : Kind) : Rule Token :=
  expectAs (.kind k) k

/-- Reads a name. -/
def name : Rule String := do
  let t ← expect .identifier
  return t.lexeme

/-- Reads a type. -/
def type : Rule Ty := do
  match ← peek with
  | .type t =>
    advance
    return t
  | _ => fail .type

/-- Reads one or more items, separated by commas, and the closing token after the last. -/
def items {α : Type} (item : Rule α) (closing : Kind) : Nat → Rule (List α)
  | 0 => exhausted
  | n + 1 => do
    let a ← item
    fun
    | [] => .error (.unexpectedEnd (.kind closing)) []
    | t :: rest =>
      if t.kind = .mark .comma then ((a :: ·) <$> items item closing n) rest
      else if t.kind = closing then .ok [a] rest
      else .error (.unexpectedToken (.commaOr closing) t.lexeme t.offset) (t :: rest)

/-- Reads a list of items, which may be empty, and its closing token. -/
def listOf {α : Type} (bound : Nat) (item : Rule α) (closing : Kind) : Rule (List α) := do
  if (← peek) = closing then
    advance
    return []
  else items item closing bound

end Rule

end Scriptlet
