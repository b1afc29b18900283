import Scriptlet.Proofs.Syntax.Spelling

/-!
# Scriptlet.Proofs.Syntax.Sign

**Signs of literals.** A tree may have literals that no text spells: a negative integer, or a float
with its sign bit set. They are printed with a minus in front, and this minus is a token of its own,
whatever stands before it. So the minus tokens of the printed text are more than the subtractions of
the tree, one more for each sign. The grammar knows minus as an operator only, so the minus tokens
of a text from which a tree is read are as many as the subtractions of that tree.

`Spellable` is what is needed for the text to be cut into the tokens of the tree: names are words
that are read as names, and floats are finite.
-/

namespace Scriptlet

open Grammar

/-- The number of minus tokens. -/
def minuses (ts : List Token) : Nat :=
  ts.countP fun t => t.kind = .operator .sub

@[simp] theorem minuses_nil : minuses [] = 0 := rfl

@[simp] theorem minuses_cons (t : Token) (ts : List Token) :
    minuses (t :: ts) = minuses ts + if t.kind = .operator .sub then 1 else 0 := by
  simp [minuses, List.countP_cons]

@[simp] theorem minuses_append (ts us : List Token) :
    minuses (ts ++ us) = minuses ts + minuses us :=
  List.countP_append

/-! ### Trees -/

mutual

/-- The minus signs that an expression is printed with: its subtractions, and the signs of its
literals. -/
def Expr.minuses : Expr → Nat
  | .int n => if n.toInt < 0 then 1 else 0
  | .float x => if Decimal.isNegative x then 1 else 0
  | .str _ => 0
  | .bool _ => 0
  | .var _ => 0
  | .call _ args => Expr.minusesAll args
  | .binary l op r => l.minuses + (if op = .sub then 1 else 0) + r.minuses
  | .step _ _ e => e.minuses

def Expr.minusesAll : List Expr → Nat
  | [] => 0
  | a :: rest => a.minuses + Expr.minusesAll rest

end

mutual

/-- The minus signs that a statement is printed with. -/
def Stmt.minuses : Stmt → Nat
  | .init _ _ e => e.minuses
  | .declare _ _ => 0
  | .assign _ e => e.minuses
  | .eval e => e.minuses
  | .branch c yes no => c.minuses + Stmt.minusesAll yes + Stmt.minusesAll no
  | .loop c body => c.minuses + Stmt.minusesAll body
  | .ret e => e.minuses

def Stmt.minusesAll : List Stmt → Nat
  | [] => 0
  | s :: rest => s.minuses + Stmt.minusesAll rest

end

/-- The minus signs that a program is printed with. -/
def Program.minuses (p : Program) : Nat :=
  (p.map fun f => Stmt.minusesAll f.body).sum

mutual

/-- The names of an expression can be read, and its floats are finite. -/
def Expr.Spellable : Expr → Prop
  | .int _ => True
  | .float x => Decimal.isFinite x
  | .str _ => True
  | .bool _ => True
  | .var x => IsName x
  | .call f args => IsName f ∧ Expr.SpellableAll args
  | .binary l _ r => l.Spellable ∧ r.Spellable
  | .step _ _ e => e.Spellable

def Expr.SpellableAll : List Expr → Prop
  | [] => True
  | a :: rest => a.Spellable ∧ Expr.SpellableAll rest

end

mutual

/-- The names of a statement can be read, and its floats are finite. -/
def Stmt.Spellable : Stmt → Prop
  | .init _ x e => IsName x ∧ e.Spellable
  | .declare _ x => IsName x
  | .assign x e => IsName x ∧ e.Spellable
  | .eval e => e.Spellable
  | .branch c yes no => c.Spellable ∧ Stmt.SpellableAll yes ∧ Stmt.SpellableAll no
  | .loop c body => c.Spellable ∧ Stmt.SpellableAll body
  | .ret e => e.Spellable

def Stmt.SpellableAll : List Stmt → Prop
  | [] => True
  | s :: rest => s.Spellable ∧ Stmt.SpellableAll rest

end

/-- The names of a function can be read, and its floats are finite. -/
structure Function.Spellable (f : Function) : Prop where
  name : IsName f.name
  params : ∀ p ∈ f.params, IsName p.name
  body : Stmt.SpellableAll f.body

/-! ### Derived trees -/

namespace Grammar

mutual

/-- The minus tokens of a derivation are the subtractions of the tree, which has no signs. -/
theorem DerivesExpr.minuses_eq {us : List Token} {e : Expr} (h : DerivesExpr us e)
    (he : e.Printable) : minuses us = e.minuses := by
  match h with
  | .before ht ha => simp [Expr.minuses, ht, ha.minuses_eq he]
  | .after ha ht => simp [Expr.minuses, ht, ha.minuses_eq he]
  | .chain ha ht he' =>
    simp only [minuses_append, minuses_cons, ht, ha.minuses_eq he.1, he'.minuses_eq he.2,
      Expr.minuses, Kind.operator.injEq]
    omega
  | .atom ha => exact ha.minuses_eq he

theorem DerivesAtom.minuses_eq {us : List Token} {a : Expr} (h : DerivesAtom us a)
    (ha : a.Printable) : minuses us = a.minuses := by
  match h with
  | .int ht hn => simp [Expr.minuses, ht, Int.not_lt.2 ha]
  | .float ht hx =>
    obtain ⟨r, hr, rfl⟩ := ha
    simp [Expr.minuses, ht, Decimal.isNegative_ofRank hr]
  | .str ht | .true ht | .false ht | .var ht => simp [Expr.minuses, ht]
  | .callNone hf hl hr => simp [Expr.minuses, Expr.minusesAll, hf, hl, hr]
  | .call hf hl hargs hr => simp [Expr.minuses, hf, hl, hr, hargs.minuses_eq ha.2]
  | .group hl he hr => simp [hl, hr, he.minuses_eq ha]

theorem DerivesArgs.minuses_eq {us : List Token} {args : List Expr} (h : DerivesArgs us args)
    (hargs : Expr.PrintableAll args) : minuses us = Expr.minusesAll args := by
  match h with
  | .one he => exact he.minuses_eq hargs.1
  | .more he hc hes =>
    simp [Expr.minusesAll, hc, he.minuses_eq hargs.1, hes.minuses_eq hargs.2]

end

mutual

theorem DerivesStmt.minuses_eq {us : List Token} {s : Stmt} (h : DerivesStmt us s)
    (hs : s.Printable) : minuses us = s.minuses := by
  match h with
  | .init ht hx hq he hz => simp [Stmt.minuses, ht, hx, hq, hz, he.minuses_eq hs.2]
  | .declare ht hx hz => simp [Stmt.minuses, ht, hx, hz]
  | .assign hx hq he hz => simp [Stmt.minuses, hx, hq, hz, he.minuses_eq hs.2]
  | .eval he hz => simp [Stmt.minuses, hz, he.minuses_eq hs]
  | .branch hi hl hc hr hyes =>
    simp [Stmt.minuses, Stmt.minusesAll, hi, hl, hr, hc.minuses_eq hs.1, hyes.minuses_eq hs.2.1]
  | .branchElse hi hl hc hr hyes ho hno =>
    simp [Stmt.minuses, hi, hl, hr, ho, hc.minuses_eq hs.1, hyes.minuses_eq hs.2.1,
      hno.minuses_eq hs.2.2, Nat.add_assoc]
  | .loop hi hl hc hr hbody =>
    simp [Stmt.minuses, hi, hl, hr, hc.minuses_eq hs.1, hbody.minuses_eq hs.2]
  | .ret hi he hz => simp [Stmt.minuses, hi, hz, he.minuses_eq hs]

theorem DerivesBlock.minuses_eq {us : List Token} {ss : List Stmt} (h : DerivesBlock us ss)
    (hss : Stmt.PrintableAll ss) : minuses us = Stmt.minusesAll ss := by
  match h with
  | .block hl hss' hr => simp [hl, hr, hss'.minuses_eq hss]

theorem DerivesStmts.minuses_eq {us : List Token} {ss : List Stmt} (h : DerivesStmts us ss)
    (hss : Stmt.PrintableAll ss) : minuses us = Stmt.minusesAll ss := by
  match h with
  | .nil => rfl
  | .cons hs hss' => simp [Stmt.minusesAll, hs.minuses_eq hss.1, hss'.minuses_eq hss.2]

end

theorem DerivesParams.minuses_eq {us : List Token} {ps : List Param} (h : DerivesParams us ps) :
    minuses us = 0 := by
  induction h with
  | one ht hx => simp [ht, hx]
  | more ht hx hc _ ih => simp [ht, hx, hc, ih]

theorem DerivesProgram.minuses_eq {us : List Token} {p : Program} (h : DerivesProgram us p)
    (hp : p.Printable) : minuses us = p.minuses := by
  induction h with
  | done ht => simp [Program.minuses, ht]
  | more hf _ ih =>
    obtain ⟨hfp, hp⟩ := List.forall_mem_cons.1 hp
    rw [minuses_append, ih hp, Program.minuses, Program.minuses, List.map_cons, List.sum_cons]
    congr 1
    cases hf with
    | noParams ht hf hl hr hbody => simp [ht, hf, hl, hr, hbody.minuses_eq hfp.body]
    | params ht hf hl hps hr hbody =>
      simp [ht, hf, hl, hr, hps.minuses_eq, hbody.minuses_eq hfp.body]

end Grammar

/-! ### Printed literals -/

/-- Where `rest` follows, the text is cut into tokens with `n` minus tokens among them. -/
def HasMinuses (s : String) (rest : List Char) (n : Nat) : Prop :=
  CutsInto s rest (minuses · = n)

namespace HasMinuses

variable {s t : String} {rest : List Char} {m n : Nat}

theorem append (hs : HasMinuses s (t.toList ++ rest) m) (ht : HasMinuses t rest n) :
    HasMinuses (s ++ t) rest (m + n) := by
  refine (CutsInto.append hs ht).mono fun ts hts => ?_
  obtain ⟨us, vs, rfl, rfl, rfl⟩ := hts
  exact minuses_append us vs

theorem of_token {k : Kind} (h : CutsInto s rest (OneToken k s)) :
    HasMinuses s rest (if k = .operator .sub then 1 else 0) := by
  refine h.mono fun ts hts => ?_
  obtain ⟨t, rfl, rfl, -⟩ := hts
  simp

theorem of_eq (h : HasMinuses s rest m) (hmn : m = n) : HasMinuses s rest n :=
  hmn ▸ h

theorem empty (rest : List Char) : HasMinuses "" rest 0 :=
  (CutsInto.space rfl rest).mono fun ts hts => by rw [hts, minuses_nil]

theorem before_blank (hs : HasMinuses s (" ".toList ++ rest) n) : HasMinuses (s ++ " ") rest n :=
  CutsInto.before_blank hs

theorem before_newline (hs : HasMinuses s ("\n".toList ++ rest) n) :
    HasMinuses (s ++ "\n") rest n :=
  CutsInto.before_newline hs

theorem after_indent (depth : Nat) (hs : HasMinuses s rest n) :
    HasMinuses (indent depth ++ s) rest n :=
  CutsInto.after_space (isSpace_indent depth) hs

end HasMinuses

/-- A minus is a token of its own, unless another one follows. -/
theorem cutsInto_minus {rest : List Char} (hrest : rest.head? ≠ some '-') :
    CutsInto "-" rest (OneToken (.operator .sub) "-") := by
  refine .token (.of_bound ((Kind.spells_fixed rfl).2 rfl) (fun k w h hw => ?_) nofun) rfl
  obtain ⟨u, rfl, hu⟩ := h.exists_cons hw
  cases hk : k.spelling? with
  | some s =>
    have hfixed : ∀ k ∈ Kind.fixed, ∀ s ∈ k.spelling?, s.toList.head? = some '-' →
        s.toList = ['-'] ∨ s.toList = ['-', '-'] := by decide
    have hs := (Kind.spells_fixed hk).1 h
    obtain heq | heq := hfixed k (mem_fixed hk) s hk (by rw [← hs]; rfl)
    · rw [hs, heq]
      exact Nat.le_refl _
    · rw [heq, List.cons.injEq] at hs
      obtain ⟨-, rfl⟩ := hs
      obtain ⟨tail, rfl⟩ := hu
      exact absurd rfl hrest
  | none =>
    obtain rfl : .unknown = k := sortOf_eq hk h
    exact absurd h (Kind.not_spells_unknown _)

/-- A number with a sign in front of it, or without. -/
theorem hasMinuses_number {k : Kind} {s : String} (negative : Bool) (hk : k = .int ∨ k = .float)
    (hs : k.Spells s.toList) {rest : List Char} (hrest : Separated rest) :
    HasMinuses ((if negative then "-" else "") ++ s) rest (if negative then 1 else 0) := by
  have hnumber : HasMinuses s rest 0 := by
    obtain rfl | rfl := hk
    · exact .of_token (.token (best_int hs hrest.numberEnds) rfl)
    · exact .of_token (.token (best_float hs hrest.numberEnds) rfl)
  cases negative with
  | false => exact (HasMinuses.empty _).append hnumber
  | true =>
    -- no number starts with a minus
    have hhead : (s.toList ++ rest).head? ≠ some '-' := by
      obtain ⟨c, u, hcu⟩ := List.exists_cons_of_ne_nil hs.ne_nil
      rw [hcu] at hs ⊢
      rintro ⟨⟩
      obtain rfl | rfl := hk
      · exact nomatch (sortOf_eq rfl hs : Kind.unknown = .int)
      · exact nomatch (sortOf_eq rfl hs : Kind.unknown = .float)
    exact (HasMinuses.of_token (cutsInto_minus hhead)).append hnumber

theorem hasMinuses_int (n : Int64) {rest : List Char} (hrest : Separated rest) :
    HasMinuses (toString n.toInt) rest (Expr.int n).minuses := by
  have hs : Kind.int.Spells (toString (n.toInt.natAbs : Int)).toList := by
    rw [Decimal.toList_toString_nonneg (Int.natCast_nonneg _)]
    exact Kind.spells_int.2 (Decimal.digits_toDigits _)
  have hnumber := hasMinuses_number (decide (n.toInt < 0)) (.inl rfl) hs hrest
  simpa only [Decimal.toString_eq_sign n.toInt, Expr.minuses, decide_eq_true_eq] using hnumber

theorem hasMinuses_float {x : Float} (hx : Decimal.isFinite x) {rest : List Char}
    (hrest : Separated rest) : HasMinuses (Decimal.floatText x) rest (Expr.float x).minuses := by
  obtain ⟨r, hr, heq⟩ := Decimal.exists_ofRank_of_isFinite hx
  have hnumber := hasMinuses_number (Decimal.isNegative x) (.inr rfl) (Decimal.spells_floatText hr)
    hrest
  rwa [← Decimal.floatText_ofRank hr, ← heq] at hnumber

theorem hasMinuses_bool (b : Bool) {rest : List Char} (hrest : Separated rest) :
    HasMinuses (if b then "true" else "false") rest 0 := by
  cases b with
  | true => exact .of_token (cutsInto_reserved (k := .keyword .true) rfl rfl hrest)
  | false => exact .of_token (cutsInto_reserved (k := .keyword .false) rfl rfl hrest)

/-! ### Printed expressions -/

theorem hasMinuses_mark {m : Mark} (hm : m ≠ .assign) (rest : List Char) :
    HasMinuses m.text rest 0 :=
  .of_token (cutsInto_mark hm rest)

theorem IsName.hasMinuses {x : String} (h : IsName x) {rest : List Char} (hrest : Separated rest) :
    HasMinuses x rest 0 :=
  .of_token (h.cuts hrest)

theorem HasMinuses.operand {e : Expr} {rest : List Char} (hrest : Separated rest)
    (h : ∀ rest, Separated rest → HasMinuses e.print rest e.minuses) :
    HasMinuses e.printOperand rest e.minuses := by
  rw [Expr.printOperand]
  split
  · exact h rest hrest
  · have hinner := h (")".toList ++ rest) (.of_head rfl (by decide) rest)
    have htext := ((hasMinuses_mark (m := .openParen) (by simp) _).append hinner).append
      (hasMinuses_mark (m := .closeParen) (by simp) rest)
    exact htext.of_eq (by simp)

mutual

/-- **The minus signs of a printed expression** are tokens of their own. -/
theorem Expr.hasMinuses (e : Expr) (he : e.Spellable) {rest : List Char}
    (hrest : Separated rest) : HasMinuses e.print rest e.minuses := by
  match e with
  | .int n =>
    rw [Expr.print_int]
    exact hasMinuses_int n hrest
  | .float x =>
    rw [Expr.print_float]
    exact hasMinuses_float he hrest
  | .str s =>
    rw [Expr.print_str]
    exact .of_token (.token (best_str (Text.spells_quote s) rest) rfl)
  | .bool b =>
    rw [Expr.print_bool]
    exact hasMinuses_bool b hrest
  | .var x =>
    rw [Expr.print_var]
    exact IsName.hasMinuses he hrest
  | .call f args =>
    rw [Expr.print_call]
    have hname := fun rest => he.1.hasMinuses (.of_head (s := "(") rfl (by decide) rest)
    have hargs := Expr.hasMinuses_args args he.2 (.of_head (s := ")") rfl (by decide) rest)
    have htext := (hname _).append (hasMinuses_mark (m := .openParen) (by simp) _)
      |>.append hargs |>.append (hasMinuses_mark (m := .closeParen) (by simp) rest)
    exact htext.of_eq (by simp [Expr.minuses])
  | .binary l op r =>
    rw [Expr.print_binary]
    have hleft := fun rest => HasMinuses.operand (separated_operator op rest) fun _ =>
      l.hasMinuses he.1
    have hop := fun rest => HasMinuses.of_token (cutsInto_operator op rest)
    have htext := (hleft _).before_blank |>.append (hop _)
      |>.before_blank |>.append (r.hasMinuses he.2 hrest)
    exact htext.of_eq (by simp [Expr.minuses])
  | .step s .before e =>
    rw [Expr.print_before]
    have htext := (HasMinuses.of_token (cutsInto_step s _)).append
      (.operand hrest fun _ => e.hasMinuses he)
    exact htext.of_eq (by simp [Expr.minuses])
  | .step s .after e =>
    rw [Expr.print_after]
    have hoperand := HasMinuses.operand (separated_step s rest) fun _ => e.hasMinuses he
    have htext := hoperand.append (.of_token (cutsInto_step s rest))
    exact htext.of_eq (by simp [Expr.minuses])

theorem Expr.hasMinuses_args (args : List Expr) (h : Expr.SpellableAll args) {rest : List Char}
    (hrest : Separated rest) :
    HasMinuses (Expr.printArgs args) rest (Expr.minusesAll args) := by
  match args with
  | [] => exact .empty rest
  | [a] =>
    rw [Expr.printArgs_singleton]
    exact (a.hasMinuses h.1 hrest).of_eq (by simp [Expr.minusesAll])
  | a :: b :: args =>
    rw [Expr.printArgs_cons_cons]
    have hfirst := fun rest => a.hasMinuses h.1 (.of_head (s := ",") rfl (by decide) rest)
    have htext := (hfirst _).append (hasMinuses_mark (m := .comma) (by simp) _)
      |>.before_blank |>.append (Expr.hasMinuses_args (b :: args) h.2 hrest)
    exact htext.of_eq (by simp [Expr.minusesAll])

end

/-! ### Printed statements -/

theorem hasMinuses_type (t : Ty) {rest : List Char} (hrest : Separated rest) :
    HasMinuses t.text rest 0 :=
  .of_token (cutsInto_type t hrest)

theorem hasMinuses_assign (rest : List Char) : HasMinuses "=" (" ".toList ++ rest) 0 :=
  .of_token (cutsInto_assign rest)

theorem hasMinuses_word {k : Kind} {s : String} (hk : k.isReserved) (hs : k.spelling? = some s)
    (rest : List Char) : HasMinuses s (" ".toList ++ rest) 0 := by
  refine (HasMinuses.of_token
    (cutsInto_reserved hk hs (.of_head (s := " ") rfl (by decide) rest))).of_eq (if_neg ?_)
  rintro rfl
  cases hk

/-- What stands before a semicolon and the end of a line. -/
theorem HasMinuses.endLine {s : String} {n : Nat} (rest : List Char)
    (h : ∀ rest, Separated rest → HasMinuses s rest n) :
    HasMinuses (s ++ ";" ++ "\n") rest n :=
  (h _ (.of_head (s := ";") rfl (by decide) _)).append
    (hasMinuses_mark (m := .semicolon) (by simp) _) |>.before_newline

/-- A condition in parentheses, after its keyword. -/
theorem hasMinuses_condition {k : Kind} {s : String} (hk : k.isReserved)
    (hs : k.spelling? = some s) {c : Expr} (hc : c.Spellable) (rest : List Char) :
    HasMinuses (s ++ " " ++ "(" ++ c.print ++ ")") rest c.minuses := by
  have hcond := c.hasMinuses hc (.of_head (s := ")") rfl (by decide) rest)
  have htext := (hasMinuses_word hk hs _).before_blank
    |>.append (hasMinuses_mark (m := .openParen) (by simp) _)
    |>.append hcond |>.append (hasMinuses_mark (m := .closeParen) (by simp) rest)
  exact htext.of_eq (by simp)

theorem Stmt.hasMinuses_block {depth : Nat} {ss : List Stmt}
    (hss : ∀ rest, HasMinuses (Stmt.linesAll (depth + 1) ss) rest (Stmt.minusesAll ss))
    (rest : List Char) : HasMinuses (Stmt.printBlock depth ss) rest (Stmt.minusesAll ss) := by
  have hopen := fun rest => hasMinuses_mark (m := .openBrace) (by simp) rest
  have hclose := (hasMinuses_mark (m := .closeBrace) (by simp) rest).after_indent depth
  have htext := (hopen _).before_newline |>.append (hss _) |>.append hclose
  rw [Stmt.printBlock, String.append_assoc]
  exact htext.of_eq (by simp)

mutual

/-- **The minus signs of a printed statement** are tokens of their own. -/
theorem Stmt.hasMinuses (depth : Nat) (s : Stmt) (hs : s.Spellable) (rest : List Char) :
    HasMinuses (s.lines depth) rest s.minuses := by
  match s with
  | .init t x e =>
    rw [Stmt.lines_init]
    have htype := fun rest => hasMinuses_type t (.of_head (s := " ") rfl (by decide) rest)
    have hname := fun rest => hs.1.hasMinuses (.of_head (s := " ") rfl (by decide) rest)
    have htext := HasMinuses.endLine rest fun rest hrest =>
      ((htype _).after_indent depth).before_blank |>.append (hname _)
        |>.before_blank |>.append (hasMinuses_assign _)
        |>.before_blank |>.append (e.hasMinuses hs.2 hrest)
    exact htext.of_eq (by simp [Stmt.minuses])
  | .declare t x =>
    rw [Stmt.lines_declare]
    have htype := fun rest => hasMinuses_type t (.of_head (s := " ") rfl (by decide) rest)
    have htext := HasMinuses.endLine rest fun rest hrest =>
      ((htype _).after_indent depth).before_blank |>.append (IsName.hasMinuses hs hrest)
    exact htext.of_eq (by simp [Stmt.minuses])
  | .assign x e =>
    rw [Stmt.lines_assign]
    have hname := fun rest => hs.1.hasMinuses (.of_head (s := " ") rfl (by decide) rest)
    have htext := HasMinuses.endLine rest fun rest hrest =>
      ((hname _).after_indent depth).before_blank |>.append (hasMinuses_assign _)
        |>.before_blank |>.append (e.hasMinuses hs.2 hrest)
    exact htext.of_eq (by simp [Stmt.minuses])
  | .eval e =>
    rw [Stmt.lines_eval]
    exact HasMinuses.endLine rest fun rest hrest => (e.hasMinuses hs hrest).after_indent depth
  | .branch c yes no =>
    rw [Stmt.lines_branch]
    have hcond := fun rest => hasMinuses_condition (k := .keyword .if) rfl rfl hs.1 rest
    have hyes := Stmt.hasMinuses_block (Stmt.hasMinuses_all (depth + 1) yes hs.2.1)
    have hno := Stmt.hasMinuses_block (Stmt.hasMinuses_all (depth + 1) no hs.2.2)
    have helse := fun rest => hasMinuses_word (k := .keyword .else) rfl rfl rest
    have htext := ((hcond _).after_indent depth).before_blank |>.append (hyes _)
      |>.before_blank |>.append (helse _)
      |>.before_blank |>.append (hno ("\n".toList ++ rest))
    exact htext.before_newline.of_eq (by simp [Stmt.minuses])
  | .loop c body =>
    rw [Stmt.lines_loop]
    have hcond := fun rest => hasMinuses_condition (k := .keyword .while) rfl rfl hs.1 rest
    have hbody := Stmt.hasMinuses_block (Stmt.hasMinuses_all (depth + 1) body hs.2)
    have htext := ((hcond _).after_indent depth).before_blank
      |>.append (hbody ("\n".toList ++ rest))
    exact htext.before_newline.of_eq (by simp [Stmt.minuses])
  | .ret e =>
    rw [Stmt.lines_ret]
    have hword := fun rest => hasMinuses_word (k := .keyword .return) rfl rfl rest
    have htext := HasMinuses.endLine rest fun rest hrest =>
      ((hword _).after_indent depth).before_blank |>.append (e.hasMinuses hs hrest)
    exact htext.of_eq (by simp [Stmt.minuses])

theorem Stmt.hasMinuses_all (depth : Nat) (ss : List Stmt) (hss : Stmt.SpellableAll ss)
    (rest : List Char) : HasMinuses (Stmt.linesAll depth ss) rest (Stmt.minusesAll ss) := by
  match ss with
  | [] => exact .empty rest
  | s :: ss =>
    rw [Stmt.linesAll_cons]
    exact (Stmt.hasMinuses depth s hss.1 _).append (Stmt.hasMinuses_all depth ss hss.2 rest)

end

/-! ### Printed programs -/

theorem hasMinuses_param (p : Param) (hp : IsName p.name) {rest : List Char}
    (hrest : Separated rest) : HasMinuses p.print rest 0 := by
  have htype := fun rest => hasMinuses_type p.type (.of_head (s := " ") rfl (by decide) rest)
  exact (htype _).before_blank.append (hp.hasMinuses hrest)

theorem hasMinuses_params (ps : List Param) (hps : ∀ p ∈ ps, IsName p.name) {rest : List Char}
    (hrest : Separated rest) : HasMinuses (Param.printAll ps) rest 0 := by
  induction ps with
  | nil => exact .empty rest
  | cons p ps ih =>
    obtain ⟨hp, hps⟩ := List.forall_mem_cons.1 hps
    cases ps with
    | nil => exact hasMinuses_param p hp hrest
    | cons q ps =>
      rw [Param.printAll_cons_cons]
      have hfirst := fun rest => hasMinuses_param p hp (.of_head (s := ",") rfl (by decide) rest)
      exact (hfirst _).append (hasMinuses_mark (m := .comma) (by simp) _)
        |>.before_blank |>.append (ih hps)

theorem Function.hasMinuses {f : Function} (hf : f.Spellable) (rest : List Char) :
    HasMinuses f.print rest (Stmt.minusesAll f.body) := by
  have htype := fun rest => hasMinuses_type f.result (.of_head (s := " ") rfl (by decide) rest)
  have hname := fun rest => hf.name.hasMinuses (.of_head (s := "(") rfl (by decide) rest)
  have hparams := fun rest => hasMinuses_params f.params hf.params
    (.of_head (s := ")") rfl (by decide) rest)
  have hbody := Stmt.hasMinuses_block (Stmt.hasMinuses_all 1 f.body hf.body)
  rw [Function.print_eq]
  have htext := (htype _).before_blank |>.append (hname _)
    |>.append (hasMinuses_mark (m := .openParen) (by simp) _) |>.append (hparams _)
    |>.append (hasMinuses_mark (m := .closeParen) (by simp) _)
    |>.before_blank |>.append (hbody ("\n".toList ++ rest))
  exact htext.before_newline.of_eq (by simp)

/-- **The minus signs of a printed program** are tokens of their own. -/
theorem Program.hasMinuses (p : Program) (hp : ∀ f ∈ p, f.Spellable) (rest : List Char) :
    HasMinuses p.print rest p.minuses := by
  induction p with
  | nil => exact .empty rest
  | cons f p ih =>
    obtain ⟨hf, hp⟩ := List.forall_mem_cons.1 hp
    cases p with
    | nil => exact (Function.hasMinuses hf rest).of_eq (by simp [Program.minuses])
    | cons g p =>
      rw [Program.print_cons_cons]
      exact (Function.hasMinuses hf _).before_newline.append (ih hp)

end Scriptlet
