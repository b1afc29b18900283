import Scriptlet.Proofs.Syntax.Printable
import Scriptlet.Proofs.Syntax.Text
import Scriptlet.Proofs.Text.Quoted
import Scriptlet.Proofs.Token.Cut

/-!
# Scriptlet.Proofs.Syntax.Spelling

**The printed text spells the tree.** The tokens of the text of a printable tree derive that tree,
for expressions by induction on the tree and for statements, functions and programs on top of that.
The parentheses around an operand are what makes it an atom of the grammar.
-/

namespace Scriptlet

open Grammar

/-! ### Literals and names -/

theorem IsName.cuts {x : String} (h : IsName x) {rest : List Char} (hrest : Separated rest) :
    CutsInto x rest (OneToken .identifier x) :=
  .token (best_identifier h.spells h.not_reserved hrest.no_name) rfl

theorem cutsInto_int {n : Int64} (hn : 0 ≤ n.toInt) {rest : List Char} (hrest : Separated rest) :
    CutsInto (toString n.toInt) rest (DerivesAtom · (.int n)) := by
  have hspells : Kind.int.Spells (toString n.toInt).toList := by
    rw [Decimal.toList_toString_nonneg hn]
    exact Kind.spells_int.2 (Decimal.digits_toDigits _)
  refine (CutsInto.token (best_int hspells hrest.numberEnds) rfl).mono ?_
  intro tokens htokens
  obtain ⟨t, rfl, ht, hlex⟩ := htokens
  exact .int ht (by rw [hlex, Decimal.readInt64?_toString hn])

theorem cutsInto_float {r : Nat} (hr : r < Decimal.infinityRank) {rest : List Char}
    (hrest : Separated rest) :
    CutsInto (Decimal.floatText (Decimal.ofRank false r)) rest
      (DerivesAtom · (.float (Decimal.ofRank false r))) := by
  refine (CutsInto.token (best_float (Decimal.spells_floatText hr) hrest.numberEnds) rfl).mono ?_
  intro tokens htokens
  obtain ⟨t, rfl, ht, hlex⟩ := htokens
  exact .float ht (by rw [hlex, Decimal.readFloat?_floatText hr])

theorem cutsInto_str (s : String) (rest : List Char) :
    CutsInto (Text.quote s) rest (DerivesAtom · (.str s)) := by
  refine (CutsInto.token (best_str (Text.spells_quote s) rest) rfl).mono ?_
  intro tokens htokens
  obtain ⟨t, rfl, ht, hlex⟩ := htokens
  have hstr := DerivesAtom.str ht
  rwa [hlex, Text.unquote_quote] at hstr

theorem cutsInto_bool (b : Bool) {rest : List Char} (hrest : Separated rest) :
    CutsInto (if b then "true" else "false") rest (DerivesAtom · (.bool b)) := by
  cases b with
  | true =>
    refine (cutsInto_reserved (k := .keyword .true) rfl rfl hrest).mono ?_
    intro tokens htokens
    obtain ⟨t, rfl, ht, -⟩ := htokens
    exact .true ht
  | false =>
    refine (cutsInto_reserved (k := .keyword .false) rfl rfl hrest).mono ?_
    intro tokens htokens
    obtain ⟨t, rfl, ht, -⟩ := htokens
    exact .false ht

/-! ### Expressions -/

/-- The tokens of an expression, which are those of an atom if it is one. -/
structure DerivesAs (e : Expr) (ts : List Token) : Prop where
  expr : DerivesExpr ts e
  atom : e.isAtom → DerivesAtom ts e

theorem DerivesAs.of_atom {e : Expr} {ts : List Token} (h : DerivesAtom ts e) : DerivesAs e ts :=
  ⟨.atom h, fun _ => h⟩

/-- An operand is an atom, if need be by its parentheses. -/
theorem cutsInto_operand {e : Expr} {rest : List Char} (hrest : Separated rest)
    (h : ∀ rest, Separated rest → CutsInto e.print rest (DerivesAs e)) :
    CutsInto e.printOperand rest (DerivesAtom · e) := by
  rw [Expr.printOperand]
  split
  · rename_i hatom
    exact (h rest hrest).mono fun ts hts => hts.atom hatom
  · have hinner := h (")".toList ++ rest) (.of_head rfl (by decide) rest)
    have htext := ((cutsInto_mark (m := .openParen) (by simp) _).append hinner).append
      (cutsInto_mark (m := .closeParen) (by simp) rest)
    refine htext.mono ?_
    intro tokens htokens
    obtain ⟨_, _, rfl, ⟨_, ts, rfl, ⟨l, rfl, hl, -⟩, he⟩, r, rfl, hr, -⟩ := htokens
    exact .group hl he.expr hr

theorem separated_operator (op : BinOp) (rest : List Char) :
    Separated (" ".toList ++ (op.symbol.toList ++ rest)) :=
  .of_head rfl (by decide) _

theorem separated_step (s : Step) (rest : List Char) : Separated (s.symbol.toList ++ rest) := by
  cases s
  · exact .of_head rfl (by decide) rest
  · exact .of_head rfl (by decide) rest

mutual

/-- **The text of an expression spells it.** -/
theorem Expr.cuts (e : Expr) (he : e.Printable) {rest : List Char} (hrest : Separated rest) :
    CutsInto e.print rest (DerivesAs e) := by
  match e with
  | .int n =>
    rw [Expr.print_int]
    exact (cutsInto_int he hrest).mono fun _ => .of_atom
  | .float x =>
    obtain ⟨r, hr, rfl⟩ := he
    rw [Expr.print_float]
    exact (cutsInto_float hr hrest).mono fun _ => .of_atom
  | .str s =>
    rw [Expr.print_str]
    exact (cutsInto_str s rest).mono fun _ => .of_atom
  | .bool b =>
    rw [Expr.print_bool]
    exact (cutsInto_bool b hrest).mono fun _ => .of_atom
  | .var x =>
    rw [Expr.print_var]
    refine (IsName.cuts he hrest).mono ?_
    intro tokens htokens
    obtain ⟨t, rfl, ht, rfl⟩ := htokens
    exact .of_atom (.var ht)
  | .call f [] =>
    -- the grammar has calls without arguments as a form of their own
    rw [Expr.print_call]
    have hname := fun rest => he.1.cuts (.of_head (s := "(") rfl (by decide) rest)
    have htext := (hname _).append (cutsInto_mark (m := .openParen) (by simp) _)
      |>.before_space (t := "") rfl |>.append (cutsInto_mark (m := .closeParen) (by simp) rest)
    refine htext.mono ?_
    intro tokens htokens
    obtain ⟨_, _, rfl, ⟨_, _, rfl, ⟨t, rfl, ht, rfl⟩, l, rfl, hl, -⟩, r, rfl, hr, -⟩ := htokens
    exact .of_atom (.callNone ht hl hr)
  | .call f (a :: args) =>
    rw [Expr.print_call]
    have hname := fun rest => he.1.cuts (.of_head (s := "(") rfl (by decide) rest)
    have hargs :=
      Expr.cuts_args (a :: args) (by simp) he.2 (.of_head (s := ")") rfl (by decide) rest)
    have hopened := fun rest => (hname _).append (cutsInto_mark (m := .openParen) (by simp) rest)
    have htext :=
      ((hopened _).append hargs).append (cutsInto_mark (m := .closeParen) (by simp) rest)
    refine htext.mono ?_
    intro tokens htokens
    obtain ⟨_, _, rfl, ⟨_, ts, rfl, ⟨_, _, rfl, ⟨t, rfl, ht, rfl⟩, l, rfl, hl, -⟩, hts⟩,
      r, rfl, hr, -⟩ := htokens
    exact .of_atom (.call ht hl hts hr)
  | .binary l op r =>
    rw [Expr.print_binary]
    have hright := r.cuts he.2 hrest
    have hleft := fun rest => cutsInto_operand (separated_operator op rest) fun _ => l.cuts he.1
    have htext := (hleft _).before_blank |>.append (cutsInto_operator op _)
      |>.before_blank |>.append hright
    refine htext.mono ?_
    intro tokens htokens
    obtain ⟨_, us, rfl, ⟨ts, _, rfl, hl, t, rfl, ht, -⟩, hr⟩ := htokens
    rw [List.append_assoc]
    exact ⟨.chain hl ht hr.expr, fun h => nomatch h⟩
  | .step s .before e =>
    rw [Expr.print_before]
    have htext := (cutsInto_step s _).append (cutsInto_operand hrest fun _ => e.cuts he)
    refine htext.mono ?_
    intro tokens htokens
    obtain ⟨_, ts, rfl, ⟨t, rfl, ht, -⟩, ha⟩ := htokens
    exact ⟨.before ht ha, fun h => nomatch h⟩
  | .step s .after e =>
    rw [Expr.print_after]
    have htext := (cutsInto_operand (separated_step s rest) fun _ => e.cuts he).append
      (cutsInto_step s rest)
    refine htext.mono ?_
    intro tokens htokens
    obtain ⟨ts, _, rfl, ha, t, rfl, ht, -⟩ := htokens
    exact ⟨.after ha ht, fun h => nomatch h⟩

/-- The text of one or more arguments spells them. -/
theorem Expr.cuts_args (args : List Expr) (hne : args ≠ []) (h : Expr.PrintableAll args)
    {rest : List Char} (hrest : Separated rest) :
    CutsInto (Expr.printArgs args) rest (DerivesArgs · args) := by
  match args with
  | [] => exact absurd rfl hne
  | [a] =>
    rw [Expr.printArgs_singleton]
    exact (a.cuts h.1 hrest).mono fun _ ha => .one ha.expr
  | a :: b :: args =>
    rw [Expr.printArgs_cons_cons]
    have hfirst := fun rest => a.cuts h.1 (.of_head (s := ",") rfl (by decide) rest)
    have htext := (hfirst _).append (cutsInto_mark (m := .comma) (by simp) _)
      |>.before_blank |>.append (Expr.cuts_args (b :: args) (by simp) h.2 hrest)
    refine htext.mono ?_
    intro tokens htokens
    obtain ⟨_, us, rfl, ⟨ts, _, rfl, ha, c, rfl, hc, -⟩, hargs⟩ := htokens
    rw [List.append_assoc]
    exact .more ha.expr hc hargs

end

/-! ### Statements -/

theorem isSpace_indent (depth : Nat) : (indent depth).toList.all isSpace := by
  induction depth with
  | zero => rfl
  | succ depth ih =>
    rw [indent, writeIndent, writeIndent_eq, String.toList_append, List.all_append]
    exact ih

theorem cutsInto_type (t : Ty) {rest : List Char} (hrest : Separated rest) :
    CutsInto t.text rest (OneToken (.type t) t.text) :=
  cutsInto_reserved rfl rfl hrest

/-- What stands before a semicolon and the end of a line. -/
theorem CutsInto.endLine {s : String} (rest : List Char) {D : List Token → Prop}
    (h : ∀ rest, Separated rest → CutsInto s rest D) :
    CutsInto (s ++ ";" ++ "\n") rest (Followed D (OneToken (.mark .semicolon) ";")) :=
  (h _ (.of_head (s := ";") rfl (by decide) _)).append (cutsInto_mark (m := .semicolon) (by simp) _)
    |>.before_newline

/-- A condition in parentheses, after its keyword. -/
theorem cutsInto_condition {k : Kind} {s : String} (hk : k.isReserved) (hs : k.spelling? = some s)
    {c : Expr} (hc : c.Printable) (rest : List Char) :
    CutsInto (s ++ " " ++ "(" ++ c.print ++ ")") rest fun ts =>
      ∃ i l us r, ts = i :: l :: (us ++ [r]) ∧ i.kind = k ∧ l.kind = .mark .openParen ∧
        DerivesExpr us c ∧ r.kind = .mark .closeParen := by
  have hword := fun rest => cutsInto_reserved hk hs (.of_head (s := " ") rfl (by decide) rest)
  have hcond := c.cuts hc (.of_head (s := ")") rfl (by decide) rest)
  have htext := (hword _).before_blank |>.append (cutsInto_mark (m := .openParen) (by simp) _)
    |>.append hcond |>.append (cutsInto_mark (m := .closeParen) (by simp) rest)
  refine htext.mono ?_
  intro tokens htokens
  obtain ⟨_, _, rfl, ⟨_, us, rfl, ⟨_, _, rfl, ⟨i, rfl, hi, -⟩, l, rfl, hl, -⟩, he⟩,
    r, rfl, hr, -⟩ := htokens
  exact ⟨i, l, us, r, rfl, hi, hl, he.expr, hr⟩

theorem Stmt.cuts_block {depth : Nat} {ss : List Stmt}
    (hss : ∀ rest, CutsInto (Stmt.linesAll (depth + 1) ss) rest (DerivesStmts · ss))
    (rest : List Char) : CutsInto (Stmt.printBlock depth ss) rest (DerivesBlock · ss) := by
  have hopen := fun rest => cutsInto_mark (m := .openBrace) (by simp) rest
  have hclose := cutsInto_mark (m := .closeBrace) (by simp) rest
  have htext := (hopen _).before_newline |>.append (hss _)
    |>.before_space (isSpace_indent depth) |>.append hclose
  refine htext.mono ?_
  intro tokens htokens
  obtain ⟨_, _, rfl, ⟨_, ts, rfl, ⟨l, rfl, hl, -⟩, hts⟩, r, rfl, hr, -⟩ := htokens
  exact .block hl hts hr

mutual

/-- **The lines of a statement spell it.** -/
theorem Stmt.cuts (depth : Nat) (s : Stmt) (hs : s.Printable) (rest : List Char) :
    CutsInto (s.lines depth) rest (DerivesStmt · s) := by
  match s with
  | .init t x e =>
    rw [Stmt.lines_init]
    have htype := fun rest => cutsInto_type t (.of_head (s := " ") rfl (by decide) rest)
    -- each word of the line is followed by a blank, so what comes after it does not matter
    have hname := fun rest => hs.1.cuts (.of_head (s := " ") rfl (by decide) rest)
    have htext := CutsInto.endLine rest fun rest hrest =>
      (htype _).after_space (isSpace_indent depth)
        |>.before_blank |>.append (hname _)
        |>.before_blank |>.append (cutsInto_assign _)
        |>.before_blank |>.append (e.cuts hs.2 hrest)
    refine htext.mono ?_
    intro tokens htokens
    obtain ⟨_, _, rfl, ⟨_, ts, rfl, ⟨_, _, rfl, ⟨_, _, rfl, ⟨t, rfl, ht, -⟩, x, rfl, hx, rfl⟩,
      q, rfl, hq, -⟩, he⟩, z, rfl, hz, -⟩ := htokens
    exact .init ht hx hq he.expr hz
  | .declare t x =>
    rw [Stmt.lines_declare]
    have htype := fun rest => cutsInto_type t (.of_head (s := " ") rfl (by decide) rest)
    have htext := CutsInto.endLine rest fun rest hrest =>
      (htype _).after_space (isSpace_indent depth)
        |>.before_blank |>.append (IsName.cuts hs hrest)
    refine htext.mono ?_
    intro tokens htokens
    obtain ⟨_, _, rfl, ⟨_, _, rfl, ⟨t, rfl, ht, -⟩, x, rfl, hx, rfl⟩, z, rfl, hz, -⟩ := htokens
    exact .declare ht hx hz
  | .assign x e =>
    rw [Stmt.lines_assign]
    have hname := fun rest => hs.1.cuts (.of_head (s := " ") rfl (by decide) rest)
    have htext := CutsInto.endLine rest fun rest hrest =>
      (hname _).after_space (isSpace_indent depth)
        |>.before_blank |>.append (cutsInto_assign _)
        |>.before_blank |>.append (e.cuts hs.2 hrest)
    refine htext.mono ?_
    intro tokens htokens
    obtain ⟨_, _, rfl, ⟨_, ts, rfl, ⟨_, _, rfl, ⟨x, rfl, hx, rfl⟩, q, rfl, hq, -⟩, he⟩,
      z, rfl, hz, -⟩ := htokens
    exact .assign hx hq he.expr hz
  | .eval e =>
    rw [Stmt.lines_eval]
    have htext := CutsInto.endLine rest fun rest hrest =>
      (e.cuts hs hrest).after_space (isSpace_indent depth)
    refine htext.mono ?_
    intro tokens htokens
    obtain ⟨ts, _, rfl, he, z, rfl, hz, -⟩ := htokens
    exact .eval he.expr hz
  | .branch c yes no =>
    -- an alternative is always written, also an empty one
    rw [Stmt.lines_branch]
    have hcond := fun rest => cutsInto_condition (k := .keyword .if) rfl rfl hs.1 rest
    have hyes := Stmt.cuts_block (Stmt.cuts_all (depth + 1) yes hs.2.1)
    have hno := Stmt.cuts_block (Stmt.cuts_all (depth + 1) no hs.2.2)
    have helse := fun rest => cutsInto_reserved (k := .keyword .else) rfl rfl
      (.of_head (s := " ") rfl (by decide) rest)
    have htext := (hcond _).after_space (isSpace_indent depth)
      |>.before_blank |>.append (hyes _)
      |>.before_blank |>.append (helse _)
      |>.before_blank |>.append (hno ("\n".toList ++ rest))
    refine htext.before_newline.mono ?_
    intro tokens htokens
    obtain ⟨_, vs, rfl, ⟨_, _, rfl, ⟨_, us, rfl, ⟨i, l, ts, r, rfl, hi, hl, hc, hr⟩, hus⟩,
      o, rfl, ho, -⟩, hvs⟩ := htokens
    have hderives := DerivesStmt.branchElse hi hl hc hr hus ho hvs
    simpa only [List.cons_append, List.append_assoc, List.nil_append] using hderives
  | .loop c body =>
    rw [Stmt.lines_loop]
    have hcond := fun rest => cutsInto_condition (k := .keyword .while) rfl rfl hs.1 rest
    have hbody := Stmt.cuts_block (Stmt.cuts_all (depth + 1) body hs.2)
    have htext := (hcond _).after_space (isSpace_indent depth)
      |>.before_blank |>.append (hbody ("\n".toList ++ rest))
    refine htext.before_newline.mono ?_
    intro tokens htokens
    obtain ⟨_, us, rfl, ⟨i, l, ts, r, rfl, hi, hl, hc, hr⟩, hus⟩ := htokens
    have hderives := DerivesStmt.loop hi hl hc hr hus
    simpa only [List.cons_append, List.append_assoc, List.nil_append] using hderives
  | .ret e =>
    rw [Stmt.lines_ret]
    have hword := fun rest => cutsInto_reserved (k := .keyword .return) rfl rfl
      (.of_head (s := " ") rfl (by decide) rest)
    have htext := CutsInto.endLine rest fun rest hrest =>
      (hword _).after_space (isSpace_indent depth) |>.before_blank |>.append (e.cuts hs hrest)
    refine htext.mono ?_
    intro tokens htokens
    obtain ⟨_, _, rfl, ⟨_, ts, rfl, ⟨i, rfl, hi, -⟩, he⟩, z, rfl, hz, -⟩ := htokens
    exact .ret hi he.expr hz

theorem Stmt.cuts_all (depth : Nat) (ss : List Stmt) (hss : Stmt.PrintableAll ss)
    (rest : List Char) : CutsInto (Stmt.linesAll depth ss) rest (DerivesStmts · ss) := by
  match ss with
  | [] =>
    refine (CutsInto.space (s := "") rfl rest).mono ?_
    rintro _ rfl
    exact .nil
  | s :: ss =>
    rw [Stmt.linesAll_cons]
    refine ((Stmt.cuts depth s hss.1 _).append (Stmt.cuts_all depth ss hss.2 rest)).mono ?_
    intro tokens htokens
    obtain ⟨us, vs, rfl, hus, hvs⟩ := htokens
    exact .cons hus hvs

end

/-! ### Programs -/

theorem cutsInto_param (p : Param) (hp : IsName p.name) {rest : List Char}
    (hrest : Separated rest) :
    CutsInto p.print rest fun ts =>
      ∃ t x, ts = [t, x] ∧ t.kind = .type p.type ∧ x.kind = .identifier ∧ x.lexeme = p.name := by
  have htype := fun rest => cutsInto_type p.type (.of_head (s := " ") rfl (by decide) rest)
  refine ((htype _).before_blank.append (hp.cuts hrest)).mono ?_
  intro tokens htokens
  obtain ⟨_, _, rfl, ⟨t, rfl, ht, -⟩, x, rfl, hx, hlex⟩ := htokens
  exact ⟨t, x, rfl, ht, hx, hlex⟩

theorem cutsInto_params (ps : List Param) (hne : ps ≠ []) (hps : ∀ p ∈ ps, IsName p.name)
    {rest : List Char} (hrest : Separated rest) :
    CutsInto (Param.printAll ps) rest (DerivesParams · ps) := by
  induction ps with
  | nil => exact absurd rfl hne
  | cons p ps ih =>
    obtain ⟨hp, hps⟩ := List.forall_mem_cons.1 hps
    cases ps with
    | nil =>
      refine (cutsInto_param p hp hrest).mono ?_
      intro tokens htokens
      obtain ⟨t, x, rfl, ht, hx, hlex⟩ := htokens
      have hderives := DerivesParams.one ht hx
      rwa [hlex] at hderives
    | cons q ps =>
      rw [Param.printAll_cons_cons]
      have hfirst := fun rest => cutsInto_param p hp (.of_head (s := ",") rfl (by decide) rest)
      have htext := (hfirst _).append (cutsInto_mark (m := .comma) (by simp) _)
        |>.before_blank |>.append (ih (by simp) hps)
      refine htext.mono ?_
      intro tokens htokens
      obtain ⟨_, us, rfl, ⟨_, _, rfl, ⟨t, x, rfl, ht, hx, hlex⟩, c, rfl, hc, -⟩, hus⟩ := htokens
      have hderives := DerivesParams.more ht hx hc hus
      rwa [hlex] at hderives

theorem Function.cuts {f : Function} (hf : f.Printable) (rest : List Char) :
    CutsInto f.print rest (DerivesDefinition · f) := by
  obtain ⟨type, name, params, body⟩ := f
  have htype := fun rest => cutsInto_type type (.of_head (s := " ") rfl (by decide) rest)
  have hname := fun rest => hf.name.cuts (.of_head (s := "(") rfl (by decide) rest)
  have hbody := Stmt.cuts_block (Stmt.cuts_all 1 body hf.body)
  have hopen := fun rest => cutsInto_mark (m := .openParen) (by simp) rest
  have hclose := fun rest => cutsInto_mark (m := .closeParen) (by simp) rest
  have hhead := fun rest =>
    (htype _).before_blank |>.append (hname _) |>.append (hopen rest)
  rw [Function.print_eq]
  cases params with
  | nil =>
    have htext := (hhead _).before_space (t := "") rfl |>.append (hclose _)
      |>.before_blank |>.append (hbody ("\n".toList ++ rest))
    refine htext.before_newline.mono ?_
    intro tokens htokens
    obtain ⟨_, us, rfl, ⟨_, _, rfl, ⟨_, _, rfl, ⟨_, _, rfl, ⟨t, rfl, ht, -⟩, x, rfl, hx, hlex⟩,
      l, rfl, hl, -⟩, r, rfl, hr, -⟩, hus⟩ := htokens
    have hderives := DerivesDefinition.noParams ht hx hl hr hus
    rwa [hlex] at hderives
  | cons p ps =>
    have hparams := fun rest => cutsInto_params (p :: ps) (by simp) hf.params
      (.of_head (s := ")") rfl (by decide) rest)
    have htext := (hhead _).append (hparams _) |>.append (hclose _)
      |>.before_blank |>.append (hbody ("\n".toList ++ rest))
    refine htext.before_newline.mono ?_
    intro tokens htokens
    obtain ⟨_, us, rfl, ⟨_, _, rfl, ⟨_, ts, rfl, ⟨_, _, rfl, ⟨_, _, rfl, ⟨t, rfl, ht, -⟩,
      x, rfl, hx, hlex⟩, l, rfl, hl, -⟩, hps⟩, r, rfl, hr, -⟩, hus⟩ := htokens
    have hderives := DerivesDefinition.params ht hx hl hps hr hus
    rw [hlex] at hderives
    simpa only [List.cons_append, List.append_assoc, List.nil_append] using hderives

/-- **The text of a program spells it**, up to the end of the text. -/
theorem Program.cuts (p : Program) (hp : p.Printable) (rest : List Char) :
    CutsInto p.print rest fun ts =>
      ∀ us q, DerivesProgram us q → DerivesProgram (ts ++ us) (p ++ q) := by
  -- the tokens of a program derive it only with the end token behind them, hence `us` and `q`
  induction p with
  | nil =>
    refine (CutsInto.space (s := "") rfl rest).mono ?_
    rintro _ rfl us q hq
    exact hq
  | cons f p ih =>
    obtain ⟨hf, hp⟩ := List.forall_mem_cons.1 hp
    cases p with
    | nil =>
      refine (Function.cuts hf rest).mono ?_
      intro ts hts us q hq
      exact .more hts hq
    | cons g p =>
      rw [Program.print_cons_cons]
      refine ((Function.cuts hf _).before_newline.append (ih hp)).mono ?_
      rintro _ ⟨ts, us, rfl, hts, hus⟩ vs q hq
      rw [List.append_assoc]
      exact .more hts (hus vs q hq)

end Scriptlet
