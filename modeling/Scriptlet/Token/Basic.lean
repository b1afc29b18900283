import Scriptlet.Syntax.Operator

/-!
# Scriptlet.Token.Basic

**Tokens.** A token is a classified piece of a text with its position. The kind says which class of
lexemes the piece belongs to. Kinds of keywords, types, marks, steps and operators have one fixed
spelling; the others are open classes.
-/

namespace Scriptlet

/-- The reserved words that are not types. -/
inductive Keyword where
  | true
  | false
  | return
  | if
  | else
  | while
  deriving Repr, DecidableEq

namespace Keyword

/-- The spelling of a keyword. -/
def text : Keyword → String
  | true => "true"
  | false => "false"
  | .return => "return"
  | .if => "if"
  | .else => "else"
  | .while => "while"

/-- All keywords. -/
def all : List Keyword := [true, false, .return, .if, .else, .while]

theorem mem_all (k : Keyword) : k ∈ all := by cases k <;> decide

end Keyword

/-- The marks of punctuation. -/
inductive Mark where
  | openParen
  | closeParen
  | openBrace
  | closeBrace
  | semicolon
  | comma
  | assign
  deriving Repr, DecidableEq

namespace Mark

/-- The spelling of a mark. -/
def text : Mark → String
  | openParen => "("
  | closeParen => ")"
  | openBrace => "\x7b"
  | closeBrace => "\x7d"
  | semicolon => ";"
  | comma => ","
  | assign => "="

/-- All marks. -/
def all : List Mark := [openParen, closeParen, openBrace, closeBrace, semicolon, comma, assign]

theorem mem_all (m : Mark) : m ∈ all := by cases m <;> decide

end Mark

/-- The classes of lexemes. -/
inductive Kind where
  /-- A number with a fraction or an exponent. -/
  | float
  /-- A run of digits. -/
  | int
  /-- A string literal, quotes included. -/
  | str
  /-- A character literal, which no rule of the grammar uses. -/
  | char
  | keyword (k : Keyword)
  | type (t : Ty)
  | identifier
  /-- A comment up to the end of its line. -/
  | lineComment
  /-- A comment up to the first closing mark. -/
  | blockComment
  | mark (m : Mark)
  | step (s : Step)
  | operator (o : BinOp)
  | whitespace
  /-- One character that starts no lexeme. -/
  | unknown
  /-- The end of the text. -/
  | endOfInput
  deriving Repr, DecidableEq

namespace Kind

/-- The one spelling of a kind that has a fixed one. -/
def spelling? : Kind → Option String
  | keyword k => some k.text
  | type t => some t.text
  | mark m => some m.text
  | step s => some s.symbol
  | operator o => some o.symbol
  | _ => none

/-- How messages speak of a kind. -/
def describe : Kind → String
  | float => "float literal"
  | int => "integer literal"
  | str => "string literal"
  | char => "char literal"
  | identifier => "identifier"
  | lineComment | blockComment => "comment"
  | whitespace => "whitespace"
  | unknown => "unknown character"
  | endOfInput => "end of input"
  | keyword k => "'" ++ k.text ++ "'"
  | type t => "'" ++ t.text ++ "'"
  | mark m => "'" ++ m.text ++ "'"
  | step s => "'" ++ s.symbol ++ "'"
  | operator o => "'" ++ o.symbol ++ "'"

/-- The name of a kind in listings of tokens. -/
def name : Kind → String
  | float => "Float"
  | int => "Int"
  | str => "Str"
  | char => "Char"
  | keyword .true => "True"
  | keyword .false => "False"
  | keyword .return => "Return"
  | keyword .if => "If"
  | keyword .else => "Else"
  | keyword .while => "While"
  | type .int => "TypeInt"
  | type .bool => "TypeBool"
  | type .float => "TypeFloat"
  | type .string => "TypeString"
  | type .void => "TypeVoid"
  | identifier => "Identifier"
  | lineComment => "Comment"
  | blockComment => "MultiLineComment"
  | mark .openParen => "LParen"
  | mark .closeParen => "RParen"
  | mark .openBrace => "LBrace"
  | mark .closeBrace => "RBrace"
  | mark .semicolon => "Semicolon"
  | mark .comma => "Comma"
  | mark .assign => "Assign"
  | step .increment => "Increment"
  | step .decrement => "Decrement"
  | operator .add => "Plus"
  | operator .sub => "Minus"
  | operator .mul => "Star"
  | operator .div => "Slash"
  | operator .eq => "EqualEqual"
  | operator .ne => "BangEqual"
  | operator .ge => "GreaterEqual"
  | operator .gt => "Greater"
  | operator .le => "LessEqual"
  | operator .lt => "Less"
  | operator .and => "AndAnd"
  | operator .or => "PipePipe"
  | whitespace => "Whitespace"
  | unknown => "Unknown"
  | endOfInput => "End"

/-- The kinds with a fixed spelling. -/
def fixed : List Kind :=
  Keyword.all.map keyword ++ Ty.all.map type ++ Mark.all.map mark ++ Step.all.map step ++
    BinOp.all.map operator

/-- All kinds. -/
def all : List Kind :=
  fixed ++ [float, int, str, char, identifier, lineComment, blockComment, whitespace, unknown,
    endOfInput]

theorem mem_all (k : Kind) : k ∈ all := by
  cases k <;> simp [all, fixed, Keyword.mem_all, Ty.mem_all, Mark.mem_all, Step.mem_all,
    BinOp.mem_all]

/-- The kind that has the given name in listings. -/
def ofName? (s : String) : Option Kind :=
  all.find? (·.name = s)

/-- Whether tokens of this kind are left out of the token list. -/
def isSkipped : Kind → Bool
  | lineComment | blockComment | whitespace => true
  | _ => false

/-- Whether the kind is one of the five types. -/
def isType : Kind → Bool
  | type _ => true
  | _ => false

/-- The binary operator that the kind spells. -/
def binaryOperator? : Kind → Option BinOp
  | operator o => some o
  | _ => none

end Kind

/-- A piece of a text: its class, its characters and the byte at which it starts. -/
structure Token where
  kind : Kind
  lexeme : String
  offset : Nat
  deriving Repr, DecidableEq

/-- How a listing shows a token. -/
def Token.describe (t : Token) : String :=
  "(" ++ t.kind.name ++ " " ++ t.lexeme ++ " at position " ++ toString t.offset ++ ")"

end Scriptlet
