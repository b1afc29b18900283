import Scriptlet.Token.Basic

/-!
# Scriptlet.Token.Pattern

**The classes of lexemes.** For every class, the length of the longest beginning of a text that
belongs to it, and `munch`, which compares the classes: the longest match wins, and of equally long
matches the one listed first. The fixed spellings are listed before the identifiers, so `while` is a
keyword and `whileTrue` a name.

A length of zero says that no beginning of the text belongs to the class; no class has an empty
lexeme.

Main definitions:

* `Pattern`: a kind with its length function.
* `patterns`: all classes, in the order that settles ties.
* `munch`: the best match at the start of a text.
-/

namespace Scriptlet

/-! ### Characters -/

/-- A character that can start a name. -/
def isNameStart (c : Char) : Bool :=
  c.isAlpha || c == '_'

/-- A character that can continue a name. -/
def isNamePart (c : Char) : Bool :=
  c.isAlphanum || c == '_'

/-- White space between tokens: space, tab, carriage return, line feed and form feed. -/
def isSpace (c : Char) : Bool :=
  c == ' ' || c == '\t' || c == '\r' || c == '\n' || c == '\x0c'

/-! ### Lengths -/

/-- The length of the run of characters with a property at the start of a text. -/
def runLength (p : Char → Bool) (cs : List Char) : Nat :=
  (cs.takeWhile p).length

/-- The length of a fixed spelling, if the text starts with it. -/
def spellingLength (w : List Char) (cs : List Char) : Nat :=
  if w.isPrefixOf cs then w.length else 0

/-- A name: a letter or underscore, then letters, digits and underscores. -/
def nameLength : List Char → Nat
  | [] => 0
  | c :: rest => if isNameStart c then runLength isNamePart rest + 1 else 0

/-- An exponent: `e` or `E`, a sign or none, and at least one digit. -/
def exponentLength : List Char → Nat
  | [] => 0
  | c :: rest =>
    if c = 'e' ∨ c = 'E' then
      match rest with
      | [] => 0
      | s :: digits =>
        if s = '+' ∨ s = '-' then
          if runLength Char.isDigit digits = 0 then 0 else runLength Char.isDigit digits + 2
        else if runLength Char.isDigit rest = 0 then 0
        else runLength Char.isDigit rest + 1
    else 0

/-- A point, at least one digit, and an exponent if there is one. -/
def fractionLength : List Char → Nat
  | [] => 0
  | c :: rest =>
    let n := runLength Char.isDigit rest
    if c = '.' ∧ n ≠ 0 then n + 1 + exponentLength (rest.drop n) else 0

/-- A float: digits or none followed by a fraction, or digits followed by an exponent. -/
def floatLength (cs : List Char) : Nat :=
  let n := runLength Char.isDigit cs
  let rest := cs.drop n
  let fraction := fractionLength rest
  if fraction ≠ 0 then n + fraction
  else if n = 0 then 0
  else if exponentLength rest = 0 then 0
  else n + exponentLength rest

/-- The length of the inside of a string literal and its closing quote, on top of `n`; zero if no
quote closes the literal on its line. A backslash takes the next character with it. -/
def stringTailLength (n : Nat) : List Char → Nat
  | [] => 0
  | '"' :: _ => n + 1
  | '\n' :: _ => 0
  | ['\\'] => 0
  | '\\' :: c :: rest => if c = '\n' then 0 else stringTailLength (n + 2) rest
  | _ :: rest => stringTailLength (n + 1) rest

/-- A string literal. -/
def stringLength : List Char → Nat
  | '"' :: rest => stringTailLength 1 rest
  | _ => 0

/-- A character literal: one character, or a backslash and one character, between quotes. -/
def charLength : List Char → Nat
  | '\'' :: '\\' :: c :: '\'' :: _ => if c = '\n' then 0 else 4
  | '\'' :: c :: '\'' :: _ => if c = '\'' ∨ c = '\\' ∨ c = '\n' then 0 else 3
  | _ => 0

/-- A comment from `//` to the end of the line. -/
def lineCommentLength : List Char → Nat
  | '/' :: '/' :: rest => runLength (fun c => c != '\n' && c != '\r') rest + 2
  | _ => 0

/-- The length of a block comment's inside and closing mark, on top of `n`; zero if nothing closes
it. -/
def blockTailLength (n : Nat) : List Char → Nat
  | [] => 0
  | '*' :: '/' :: _ => n + 2
  | _ :: rest => blockTailLength (n + 1) rest

/-- A comment from `/*` to the first `*/` after it. -/
def blockCommentLength : List Char → Nat
  | '/' :: '*' :: rest => blockTailLength 2 rest
  | _ => 0

/-! ### The table -/

/-- A class of lexemes: its kind, and the length of its longest member at the start of a text. -/
structure Pattern where
  kind : Kind
  length : List Char → Nat

/-- The class of a fixed spelling. -/
def Pattern.ofKind (k : Kind) : Pattern :=
  ⟨k, spellingLength ((k.spelling?.getD "").toList)⟩

/-- All classes of lexemes. Between equally long matches the earlier one wins. -/
def patterns : List Pattern :=
  Kind.fixed.map Pattern.ofKind ++
    [⟨.identifier, nameLength⟩, ⟨.int, runLength Char.isDigit⟩, ⟨.float, floatLength⟩,
      ⟨.str, stringLength⟩, ⟨.char, charLength⟩, ⟨.whitespace, runLength isSpace⟩,
      ⟨.lineComment, lineCommentLength⟩, ⟨.blockComment, blockCommentLength⟩]

/-- The better of a match found so far and the match of one more class. -/
def Pattern.improve (cs : List Char) (best : Kind × Nat) (p : Pattern) : Kind × Nat :=
  let n := p.length cs
  if best.2 < n then (p.kind, n) else best

/-- The kind and length of the longest match at the start of a text; the length is zero if there is
none. -/
def munch (cs : List Char) : Kind × Nat :=
  patterns.foldl (Pattern.improve cs) (.unknown, 0)

end Scriptlet
