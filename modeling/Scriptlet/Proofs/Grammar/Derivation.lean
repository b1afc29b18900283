import Scriptlet.Decimal.Numeral
import Scriptlet.Syntax.Basic
import Scriptlet.Text.Quoted
import Scriptlet.Token.Basic

/-!
# Scriptlet.Proofs.Grammar.Derivation

**The grammar as a relation.** Which lists of tokens derive which trees, production by production
and without any reading order. The rules of `Scriptlet.Grammar` are one way to find a derivation;
that they find exactly the derivations is shown in the modules after this one.

```
program    := definition* end
definition := type name "(" [type name ("," type name)*] ")" block
block      := "{" statement* "}"
statement  := type name "=" expression ";" | type name ";" | name "=" expression ";"
            | expression ";" | "if" "(" expression ")" block ["else" block]
            | "while" "(" expression ")" block | "return" expression ";"
expression := step atom | atom step | atom operator expression | atom
atom       := literal | name | name "(" [expression ("," expression)*] ")" | "(" expression ")"
```

A derivation looks at the kinds and the lexemes of tokens, never at their offsets. An integer token
derives a literal only if its lexeme is a number of 64 bits, and a float token only if its lexeme is
a finite number.
-/

namespace Scriptlet.Grammar

/-! ### Expressions -/

mutual

/-- The tokens of an expression. -/
inductive DerivesExpr : List Token → Expr → Prop
  | before {t : Token} {ts : List Token} {s : Step} {a : Expr} (ht : t.kind = .step s)
      (ha : DerivesAtom ts a) : DerivesExpr (t :: ts) (.step s .before a)
  | after {t : Token} {ts : List Token} {s : Step} {a : Expr} (ha : DerivesAtom ts a)
      (ht : t.kind = .step s) : DerivesExpr (ts ++ [t]) (.step s .after a)
  | chain {t : Token} {ts us : List Token} {op : BinOp} {a e : Expr} (ha : DerivesAtom ts a)
      (ht : t.kind = .operator op) (he : DerivesExpr us e) :
      DerivesExpr (ts ++ t :: us) (.binary a op e)
  | atom {ts : List Token} {a : Expr} (ha : DerivesAtom ts a) : DerivesExpr ts a

/-- The tokens of an atom. -/
inductive DerivesAtom : List Token → Expr → Prop
  | int {t : Token} {n : Int64} (ht : t.kind = .int) (hn : Decimal.readInt64? t.lexeme = some n) :
      DerivesAtom [t] (.int n)
  | float {t : Token} {x : Float} (ht : t.kind = .float)
      (hx : Decimal.readFloat? t.lexeme = some x) : DerivesAtom [t] (.float x)
  | str {t : Token} (ht : t.kind = .str) : DerivesAtom [t] (.str (Text.unquote t.lexeme))
  | true {t : Token} (ht : t.kind = .keyword .true) : DerivesAtom [t] (.bool true)
  | false {t : Token} (ht : t.kind = .keyword .false) : DerivesAtom [t] (.bool false)
  | var {t : Token} (ht : t.kind = .identifier) : DerivesAtom [t] (.var t.lexeme)
  | callNone {f l r : Token} (hf : f.kind = .identifier) (hl : l.kind = .mark .openParen)
      (hr : r.kind = .mark .closeParen) : DerivesAtom [f, l, r] (.call f.lexeme [])
  | call {f l r : Token} {ts : List Token} {args : List Expr} (hf : f.kind = .identifier)
      (hl : l.kind = .mark .openParen) (hargs : DerivesArgs ts args)
      (hr : r.kind = .mark .closeParen) :
      DerivesAtom (f :: l :: (ts ++ [r])) (.call f.lexeme args)
  | group {l r : Token} {ts : List Token} {e : Expr} (hl : l.kind = .mark .openParen)
      (he : DerivesExpr ts e) (hr : r.kind = .mark .closeParen) :
      DerivesAtom (l :: (ts ++ [r])) e

/-- The tokens of one or more arguments, separated by commas. -/
inductive DerivesArgs : List Token → List Expr → Prop
  | one {ts : List Token} {e : Expr} (he : DerivesExpr ts e) : DerivesArgs ts [e]
  | more {c : Token} {ts us : List Token} {e : Expr} {es : List Expr} (he : DerivesExpr ts e)
      (hc : c.kind = .mark .comma) (hes : DerivesArgs us es) :
      DerivesArgs (ts ++ c :: us) (e :: es)

end

/-! ### Statements -/

mutual

/-- The tokens of a statement. -/
inductive DerivesStmt : List Token → Stmt → Prop
  | init {t x q z : Token} {ts : List Token} {ty : Ty} {e : Expr} (ht : t.kind = .type ty)
      (hx : x.kind = .identifier) (hq : q.kind = .mark .assign) (he : DerivesExpr ts e)
      (hz : z.kind = .mark .semicolon) :
      DerivesStmt (t :: x :: q :: (ts ++ [z])) (.init ty x.lexeme e)
  | declare {t x z : Token} {ty : Ty} (ht : t.kind = .type ty) (hx : x.kind = .identifier)
      (hz : z.kind = .mark .semicolon) : DerivesStmt [t, x, z] (.declare ty x.lexeme)
  | assign {x q z : Token} {ts : List Token} {e : Expr} (hx : x.kind = .identifier)
      (hq : q.kind = .mark .assign) (he : DerivesExpr ts e) (hz : z.kind = .mark .semicolon) :
      DerivesStmt (x :: q :: (ts ++ [z])) (.assign x.lexeme e)
  | eval {z : Token} {ts : List Token} {e : Expr} (he : DerivesExpr ts e)
      (hz : z.kind = .mark .semicolon) : DerivesStmt (ts ++ [z]) (.eval e)
  | branch {i l r : Token} {ts us : List Token} {c : Expr} {yes : List Stmt}
      (hi : i.kind = .keyword .if) (hl : l.kind = .mark .openParen) (hc : DerivesExpr ts c)
      (hr : r.kind = .mark .closeParen) (hyes : DerivesBlock us yes) :
      DerivesStmt (i :: l :: (ts ++ r :: us)) (.branch c yes [])
  | branchElse {i l r o : Token} {ts us vs : List Token} {c : Expr} {yes no : List Stmt}
      (hi : i.kind = .keyword .if) (hl : l.kind = .mark .openParen) (hc : DerivesExpr ts c)
      (hr : r.kind = .mark .closeParen) (hyes : DerivesBlock us yes)
      (ho : o.kind = .keyword .else) (hno : DerivesBlock vs no) :
      DerivesStmt (i :: l :: (ts ++ r :: (us ++ o :: vs))) (.branch c yes no)
  | loop {i l r : Token} {ts us : List Token} {c : Expr} {body : List Stmt}
      (hi : i.kind = .keyword .while) (hl : l.kind = .mark .openParen) (hc : DerivesExpr ts c)
      (hr : r.kind = .mark .closeParen) (hbody : DerivesBlock us body) :
      DerivesStmt (i :: l :: (ts ++ r :: us)) (.loop c body)
  | ret {i z : Token} {ts : List Token} {e : Expr} (hi : i.kind = .keyword .return)
      (he : DerivesExpr ts e) (hz : z.kind = .mark .semicolon) :
      DerivesStmt (i :: (ts ++ [z])) (.ret e)

/-- The tokens of a block. -/
inductive DerivesBlock : List Token → List Stmt → Prop
  | block {l r : Token} {ts : List Token} {ss : List Stmt} (hl : l.kind = .mark .openBrace)
      (hss : DerivesStmts ts ss) (hr : r.kind = .mark .closeBrace) :
      DerivesBlock (l :: (ts ++ [r])) ss

/-- The tokens of a sequence of statements. -/
inductive DerivesStmts : List Token → List Stmt → Prop
  | nil : DerivesStmts [] []
  | cons {ts us : List Token} {s : Stmt} {ss : List Stmt} (hs : DerivesStmt ts s)
      (hss : DerivesStmts us ss) : DerivesStmts (ts ++ us) (s :: ss)

end

/-! ### Programs -/

/-- The tokens of one or more parameters, separated by commas. -/
inductive DerivesParams : List Token → List Param → Prop
  | one {t x : Token} {ty : Ty} (ht : t.kind = .type ty) (hx : x.kind = .identifier) :
      DerivesParams [t, x] [⟨ty, x.lexeme⟩]
  | more {t x c : Token} {ty : Ty} {ts : List Token} {ps : List Param} (ht : t.kind = .type ty)
      (hx : x.kind = .identifier) (hc : c.kind = .mark .comma) (hps : DerivesParams ts ps) :
      DerivesParams (t :: x :: c :: ts) (⟨ty, x.lexeme⟩ :: ps)

/-- The tokens of a function definition. -/
inductive DerivesDefinition : List Token → Function → Prop
  | noParams {t f l r : Token} {us : List Token} {ty : Ty} {body : List Stmt}
      (ht : t.kind = .type ty) (hf : f.kind = .identifier) (hl : l.kind = .mark .openParen)
      (hr : r.kind = .mark .closeParen) (hbody : DerivesBlock us body) :
      DerivesDefinition (t :: f :: l :: r :: us) ⟨ty, f.lexeme, [], body⟩
  | params {t f l r : Token} {ts us : List Token} {ty : Ty} {ps : List Param} {body : List Stmt}
      (ht : t.kind = .type ty) (hf : f.kind = .identifier) (hl : l.kind = .mark .openParen)
      (hps : DerivesParams ts ps) (hr : r.kind = .mark .closeParen)
      (hbody : DerivesBlock us body) :
      DerivesDefinition (t :: f :: l :: (ts ++ r :: us)) ⟨ty, f.lexeme, ps, body⟩

/-- The tokens of a program, the end of the text included. -/
inductive DerivesProgram : List Token → Program → Prop
  | done {t : Token} (ht : t.kind = .endOfInput) : DerivesProgram [t] []
  | more {ts us : List Token} {f : Function} {p : Program} (hf : DerivesDefinition ts f)
      (hp : DerivesProgram us p) : DerivesProgram (ts ++ us) (f :: p)

/-- The only token for the end of the text is the last one. -/
def EndsOnce (ts : List Token) : Prop :=
  ∃ body last, ts = body ++ [last] ∧ last.kind = .endOfInput ∧ ∀ t ∈ body, t.kind ≠ .endOfInput

end Scriptlet.Grammar
