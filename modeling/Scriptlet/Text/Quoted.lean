/-!
# Scriptlet.Text.Quoted

**Quoted text.** A string literal is a text between double quotes in which the characters that
cannot stand for themselves are escaped by a backslash. `quote` writes the literal of a text and
`unquote` reads a literal back.

Design points:

* Both work on `List Char`, one character at a time, so that their laws are inductions on the text.
* Reading is total. An escape that has no meaning of its own stands for the escaped character, a
  backslash with nothing after it stands for itself, and a text that is not enclosed in quotes is
  read as it stands.
-/

namespace Scriptlet.Text

/-! ### Writing -/

/-- The written form of one character inside a literal. -/
def escapeChar (c : Char) : List Char :=
  if c = '"' then ['\\', '"']
  else if c = '\\' then ['\\', '\\']
  else if c = '\n' then ['\\', 'n']
  else if c = '\t' then ['\\', 't']
  else if c = '\r' then ['\\', 'r']
  else if c = '\x00' then ['\\', '0']
  else [c]

/-- The inside of the literal that stands for a text. -/
def escapeChars (cs : List Char) : List Char :=
  cs.flatMap escapeChar

/-- The string literal that stands for `s`, quotes included. -/
def quote (s : String) : String :=
  String.ofList ('"' :: escapeChars s.toList ++ ['"'])

/-! ### Reading -/

/-- What a character means after a backslash. -/
def escapedMeaning (c : Char) : Char :=
  if c = 'n' then '\n'
  else if c = 't' then '\t'
  else if c = 'r' then '\r'
  else if c = '0' then '\x00'
  else c

/-- Resolves the escapes of the inside of a literal. -/
def unescapeChars : List Char → List Char
  | [] => []
  | ['\\'] => ['\\']
  | '\\' :: c :: rest => escapedMeaning c :: unescapeChars rest
  | c :: rest => c :: unescapeChars rest

/-- Takes away an opening and a closing quote if the text has both; otherwise the text stays. -/
def stripQuotes (cs : List Char) : List Char :=
  match cs with
  | '"' :: inner => if inner.getLast? = some '"' then inner.dropLast else cs
  | _ => cs

/-- The text that a string literal stands for. -/
def unquote (lexeme : String) : String :=
  String.ofList (unescapeChars (stripQuotes lexeme.toList))

/-! ### Laws -/

@[simp] theorem escapeChars_nil : escapeChars [] = [] := rfl

@[simp] theorem escapeChars_cons (c : Char) (cs : List Char) :
    escapeChars (c :: cs) = escapeChar c ++ escapeChars cs := rfl

@[simp] theorem stripQuotes_quoted (cs : List Char) : stripQuotes ('"' :: cs ++ ['"']) = cs := by
  simp [stripQuotes]

end Scriptlet.Text
