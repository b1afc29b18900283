import Scriptlet.Token.Basic

/-!
# Scriptlet.Grammar.SyntaxError

**Syntax errors.** Why a list of tokens cannot be read. Except at the end of the list, an error
carries the lexeme and the offset of the token that could not be read.
-/

namespace Scriptlet

/-- What the grammar asks for at a place. -/
inductive Expected where
  | kind (k : Kind)
  | type
  | expression
  /-- After the last definition. -/
  | definitionOrEnd
  /-- After an item of a list that is closed by `closing`. -/
  | commaOr (closing : Kind)
  /-- After the name in a declaration. -/
  | assignOrSemicolon
  deriving Repr, DecidableEq

/-- How messages speak of what is expected. -/
def Expected.text : Expected → String
  | .kind k => k.describe
  | .type => "type"
  | .expression => "expression"
  | .definitionOrEnd => "type keyword or end of input"
  | .commaOr closing => Kind.describe (.mark .comma) ++ " or " ++ closing.describe
  | .assignOrSemicolon =>
    Kind.describe (.mark .assign) ++ " or " ++ Kind.describe (.mark .semicolon)

/-- The reasons for which reading fails. -/
inductive SyntaxError where
  | unexpectedToken (expected : Expected) (found : String) (offset : Nat)
  /-- No expression starts at the token. -/
  | expressionExpected (found : String) (offset : Nat)
  /-- A number that the language cannot represent. -/
  | literalTooLarge (literal : String) (offset : Nat)
  /-- There are no more tokens, not even one for the end of the text. -/
  | unexpectedEnd (expected : Expected)
  deriving Repr, DecidableEq

namespace SyntaxError

/-- How messages speak of a lexeme; the end of the text has an empty one. -/
def describeFound (found : String) : String :=
  if found = "" then "end of input" else "\"" ++ found ++ "\""

/-- The message that reports an error. -/
def message : SyntaxError → String
  | unexpectedToken expected found offset =>
    "Parse error: Unexpected token " ++ describeFound found ++ " at position " ++
      toString offset ++ ". " ++ expected.text ++ " expected."
  | expressionExpected found offset =>
    "Parse error: Expression expected at position " ++ toString offset ++ ", found " ++
      describeFound found ++ "."
  | literalTooLarge literal offset =>
    "Parse error: Literal " ++ literal ++ " at position " ++ toString offset ++ " is too large."
  | unexpectedEnd expected =>
    "Parse error: Unexpected end of input. " ++ expected.text ++ " expected."

/-- The offset that an error points at. -/
def offset? : SyntaxError → Option Nat
  | unexpectedToken _ _ offset => some offset
  | expressionExpected _ offset => some offset
  | literalTooLarge _ offset => some offset
  | unexpectedEnd _ => none

end SyntaxError

end Scriptlet
