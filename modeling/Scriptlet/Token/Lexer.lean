import Scriptlet.Token.Pattern

/-!
# Scriptlet.Token.Lexer

**From a text to its tokens.** `Token.lex` cuts a text into tokens. At each place the longest match
is taken; white space and comments are passed over; a character at which nothing matches becomes a
token of its own. The list ends with a token for the end of the text, and offsets count bytes.

The walk goes through the text one character at a time. `skip` counts the characters that still
belong to the lexeme taken last, so the recursion is on the text itself and offsets add up without
any look back.
-/

namespace Scriptlet

/-- The lexeme that starts at a character, with its kind and its number of characters beyond the
first. -/
def lexemeAt (c : Char) (rest : List Char) : Kind × Nat :=
  match munch (c :: rest) with
  | (_, 0) => (.unknown, 0)
  | (kind, n + 1) => (kind, n)

/-- The tokens of the rest of a text that starts at byte `offset`, after `skip` more characters of
the last lexeme. -/
def lexFrom (skip offset : Nat) : List Char → List Token
  | [] => [⟨.endOfInput, "", offset⟩]
  | c :: rest =>
    match skip with
    | skip + 1 => lexFrom skip (offset + c.utf8Size) rest
    | 0 =>
      let (kind, more) := lexemeAt c rest
      if kind.isSkipped then lexFrom more (offset + c.utf8Size) rest
      else
        ⟨kind, String.ofList (c :: rest.take more), offset⟩ ::
          lexFrom more (offset + c.utf8Size) rest

/-- The tokens of a text. -/
def Token.lex (source : String) : List Token :=
  lexFrom 0 0 source.toList

end Scriptlet
