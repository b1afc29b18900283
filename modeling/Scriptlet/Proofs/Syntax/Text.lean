import Scriptlet.Syntax.Printer

/-!
# Scriptlet.Proofs.Syntax.Text

**The printed text, piece by piece.** The writers append to what is written so far. This module
turns that around: what a writer appends does not depend on what stands before it, and the text of
a tree is put together from the texts of its parts.
-/

namespace Scriptlet

/-! ### Expressions -/

mutual

/-- What an expression appends does not depend on the text before it. -/
theorem Expr.write_append (e : Expr) (a b : String) : e.write (a ++ b) = a ++ e.write b := by
  match e with
  | .int _ | .float _ | .str _ | .bool _ | .var _ => exact String.append_assoc ..
  | .call f args => simp only [Expr.write, Expr.writeArgs_append args, String.append_assoc]
  | .binary l op r =>
    simp only [Expr.write, String.append_assoc, r.write_append]
    split <;> simp only [l.write_append, String.append_assoc]
  | .step s .before e =>
    simp only [Expr.write, String.append_assoc, e.write_append]
    split <;> rfl
  | .step s .after e =>
    simp only [Expr.write, String.append_assoc, e.write_append]
    split <;> simp only [String.append_assoc]

theorem Expr.writeArgs_append (args : List Expr) (a b : String) :
    Expr.writeArgs (a ++ b) args = a ++ Expr.writeArgs b args := by
  match args with
  | [] => rfl
  | [e] => simp only [Expr.writeArgs, e.write_append]
  | e :: e' :: rest =>
    simp only [Expr.writeArgs, e.write_append, String.append_assoc]
    exact Expr.writeArgs_append (e' :: rest) a (e.write b ++ ", ")

end

theorem Expr.write_eq (e : Expr) (out : String) : e.write out = out ++ e.print := by
  rw [Expr.print, ← e.write_append, String.append_empty]

/-- The arguments of a call, separated by commas. -/
def Expr.printArgs (args : List Expr) : String :=
  Expr.writeArgs "" args

theorem Expr.writeArgs_eq (args : List Expr) (out : String) :
    Expr.writeArgs out args = out ++ Expr.printArgs args := by
  rw [Expr.printArgs, ← Expr.writeArgs_append, String.append_empty]

/-- The text of an operand, in parentheses unless it is an atom. -/
def Expr.printOperand (e : Expr) : String :=
  if e.isAtom then e.print else "(" ++ e.print ++ ")"

theorem Expr.print_int (n : Int64) : (Expr.int n).print = toString n.toInt := String.empty_append

theorem Expr.print_float (x : Float) : (Expr.float x).print = Decimal.floatText x :=
  String.empty_append

theorem Expr.print_str (s : String) : (Expr.str s).print = Text.quote s := String.empty_append

theorem Expr.print_bool (b : Bool) : (Expr.bool b).print = if b then "true" else "false" :=
  String.empty_append

theorem Expr.print_var (x : String) : (Expr.var x).print = x := String.empty_append

theorem Expr.print_call (f : String) (args : List Expr) :
    (Expr.call f args).print = f ++ "(" ++ Expr.printArgs args ++ ")" := by
  rw [Expr.print, Expr.write, Expr.writeArgs_eq, String.empty_append]

theorem Expr.printArgs_singleton (a : Expr) : Expr.printArgs [a] = a.print := rfl

theorem Expr.printArgs_cons_cons (a b : Expr) (rest : List Expr) :
    Expr.printArgs (a :: b :: rest) = a.print ++ "," ++ " " ++ Expr.printArgs (b :: rest) := by
  have hcomma : ", " = "," ++ " " := rfl
  rw [Expr.printArgs, Expr.writeArgs, Expr.writeArgs_eq, Expr.print, hcomma, ← String.append_assoc]
  rintro ⟨⟩

theorem Expr.print_binary (l : Expr) (op : BinOp) (r : Expr) :
    (Expr.binary l op r).print = l.printOperand ++ " " ++ op.symbol ++ " " ++ r.print := by
  rw [Expr.print, Expr.write, Expr.write_eq, Expr.write_eq, Expr.write_eq, Expr.printOperand]
  simp only [String.empty_append]

theorem Expr.print_before (s : Step) (e : Expr) :
    (Expr.step s .before e).print = s.symbol ++ e.printOperand := by
  rw [Expr.print, Expr.write, Expr.write_eq, Expr.write_eq, Expr.printOperand, String.empty_append]
  split <;> simp only [String.append_assoc]

theorem Expr.print_after (s : Step) (e : Expr) :
    (Expr.step s .after e).print = e.printOperand ++ s.symbol := by
  rw [Expr.print, Expr.write, Expr.write_eq, Expr.write_eq, Expr.printOperand]
  simp only [String.empty_append]

/-! ### Statements -/

/-- The indentation of `depth` blocks. -/
def indent (depth : Nat) : String :=
  writeIndent "" depth

theorem writeIndent_append (depth : Nat) (a b : String) :
    writeIndent (a ++ b) depth = a ++ writeIndent b depth := by
  induction depth generalizing b with
  | zero => rfl
  | succ depth ih => rw [writeIndent, writeIndent, String.append_assoc, ih]

theorem writeIndent_eq (depth : Nat) (out : String) :
    writeIndent out depth = out ++ indent depth := by
  rw [indent, ← writeIndent_append, String.append_empty]

mutual

/-- What a statement appends does not depend on the text before it. -/
theorem Stmt.write_append (depth : Nat) (s : Stmt) (a b : String) :
    s.write depth (a ++ b) = a ++ s.write depth b := by
  match s with
  | .init t x e | .assign x e | .eval e | .ret e =>
    simp only [Stmt.write, writeIndent_append, String.append_assoc, Expr.write_append]
  | .declare t x => simp only [Stmt.write, writeIndent_append, String.append_assoc]
  | .branch c yes no =>
    simp only [Stmt.write, writeIndent_append, String.append_assoc, Expr.write_append,
      Stmt.writeAll_append (depth + 1) yes, Stmt.writeAll_append (depth + 1) no]
  | .loop c body =>
    simp only [Stmt.write, writeIndent_append, String.append_assoc, Expr.write_append,
      Stmt.writeAll_append (depth + 1) body]

theorem Stmt.writeAll_append (depth : Nat) (ss : List Stmt) (a b : String) :
    Stmt.writeAll depth (a ++ b) ss = a ++ Stmt.writeAll depth b ss := by
  match ss with
  | [] => rfl
  | s :: rest => rw [Stmt.writeAll, s.write_append, Stmt.writeAll_append depth rest, Stmt.writeAll]

end

/-- The lines of a statement inside `depth` blocks. -/
def Stmt.lines (depth : Nat) (s : Stmt) : String :=
  s.write depth ""

/-- The lines of several statements. -/
def Stmt.linesAll (depth : Nat) (ss : List Stmt) : String :=
  Stmt.writeAll depth "" ss

theorem Stmt.writeAll_eq (depth : Nat) (ss : List Stmt) (out : String) :
    Stmt.writeAll depth out ss = out ++ Stmt.linesAll depth ss := by
  rw [Stmt.linesAll, ← Stmt.writeAll_append, String.append_empty]

theorem Stmt.linesAll_cons (depth : Nat) (s : Stmt) (ss : List Stmt) :
    Stmt.linesAll depth (s :: ss) = s.lines depth ++ Stmt.linesAll depth ss := by
  rw [Stmt.linesAll, Stmt.writeAll, Stmt.writeAll_eq, Stmt.lines]

/-- A block, braces included, whose statements are inside `depth + 1` blocks. -/
def Stmt.printBlock (depth : Nat) (ss : List Stmt) : String :=
  "\x7b" ++ "\n" ++ Stmt.linesAll (depth + 1) ss ++ indent depth ++ "\x7d"

theorem endLine_eq : ";\n" = ";" ++ "\n" := rfl

theorem assignSign_eq : " = " = " " ++ ("=" ++ " ") := rfl

theorem Stmt.lines_init (depth : Nat) (t : Ty) (x : String) (e : Expr) :
    (Stmt.init t x e).lines depth =
      indent depth ++ t.text ++ " " ++ x ++ " " ++ "=" ++ " " ++ e.print ++ ";" ++ "\n" := by
  rw [Stmt.lines, Stmt.write, Expr.write_eq, writeIndent_eq, String.empty_append,
    endLine_eq, assignSign_eq]
  simp only [← String.append_assoc]

theorem Stmt.lines_declare (depth : Nat) (t : Ty) (x : String) :
    (Stmt.declare t x).lines depth = indent depth ++ t.text ++ " " ++ x ++ ";" ++ "\n" := by
  rw [Stmt.lines, Stmt.write, writeIndent_eq, String.empty_append, endLine_eq,
    ← String.append_assoc]

theorem Stmt.lines_assign (depth : Nat) (x : String) (e : Expr) :
    (Stmt.assign x e).lines depth =
      indent depth ++ x ++ " " ++ "=" ++ " " ++ e.print ++ ";" ++ "\n" := by
  rw [Stmt.lines, Stmt.write, Expr.write_eq, writeIndent_eq, String.empty_append,
    endLine_eq, assignSign_eq]
  simp only [← String.append_assoc]

theorem Stmt.lines_eval (depth : Nat) (e : Expr) :
    (Stmt.eval e).lines depth = indent depth ++ e.print ++ ";" ++ "\n" := by
  rw [Stmt.lines, Stmt.write, Expr.write_eq, writeIndent_eq, String.empty_append,
    endLine_eq, ← String.append_assoc]

theorem Stmt.lines_ret (depth : Nat) (e : Expr) :
    (Stmt.ret e).lines depth = indent depth ++ "return" ++ " " ++ e.print ++ ";" ++ "\n" := by
  have hret : "return " = "return" ++ " " := rfl
  rw [Stmt.lines, Stmt.write, Expr.write_eq, writeIndent_eq, String.empty_append,
    endLine_eq, hret, ← String.append_assoc, ← String.append_assoc]

theorem Stmt.lines_loop (depth : Nat) (c : Expr) (body : List Stmt) :
    (Stmt.loop c body).lines depth =
      indent depth ++ ("while" ++ " " ++ "(" ++ c.print ++ ")") ++ " " ++
        Stmt.printBlock depth body ++ "\n" := by
  rw [Stmt.lines, Stmt.write, Expr.write_eq, writeIndent_eq, writeIndent_eq, Stmt.writeAll_eq,
    Stmt.printBlock]
  have hhead : "while (" = "while" ++ (" " ++ "(") := rfl
  have hopen : ") \x7b\n" = ")" ++ (" " ++ ("\x7b" ++ "\n")) := rfl
  have hclose : "\x7d\n" = "\x7d" ++ "\n" := rfl
  simp only [hhead, hopen, hclose, String.append_assoc, String.empty_append]

theorem Stmt.lines_branch (depth : Nat) (c : Expr) (yes no : List Stmt) :
    (Stmt.branch c yes no).lines depth =
      indent depth ++ ("if" ++ " " ++ "(" ++ c.print ++ ")") ++ " " ++
        Stmt.printBlock depth yes ++ " " ++ "else" ++ " " ++ Stmt.printBlock depth no ++ "\n" := by
  rw [Stmt.lines, Stmt.write, Expr.write_eq, writeIndent_eq, writeIndent_eq, writeIndent_eq,
    Stmt.writeAll_eq, Stmt.writeAll_eq, Stmt.printBlock, Stmt.printBlock]
  have hhead : "if (" = "if" ++ (" " ++ "(") := rfl
  have hopen : ") \x7b\n" = ")" ++ (" " ++ ("\x7b" ++ "\n")) := rfl
  have helse : "\x7d else \x7b\n" = "\x7d" ++ (" " ++ ("else" ++ (" " ++ ("\x7b" ++ "\n")))) := rfl
  have hclose : "\x7d\n" = "\x7d" ++ "\n" := rfl
  simp only [hhead, hopen, helse, hclose, String.append_assoc, String.empty_append]

/-! ### Programs -/

/-- Parameters, separated by commas. -/
def Param.printAll (ps : List Param) : String :=
  String.intercalate ", " (ps.map Param.print)

theorem Param.printAll_cons_cons (p q : Param) (ps : List Param) :
    Param.printAll (p :: q :: ps) = p.print ++ "," ++ " " ++ Param.printAll (q :: ps) := by
  have hcomma : ", " = "," ++ " " := rfl
  rw [Param.printAll, List.map_cons, List.map_cons, String.intercalate_cons_cons,
    ← List.map_cons, ← Param.printAll, hcomma]
  simp only [String.append_assoc]

theorem Function.write_eq (out : String) (f : Function) :
    f.write out =
      out ++ (f.result.text ++ " " ++ f.name ++ "(" ++ Param.printAll f.params ++ ")" ++ " " ++
        Stmt.printBlock 0 f.body ++ "\n") := by
  rw [Function.write, Stmt.writeAll_eq, Stmt.printBlock, Param.printAll]
  have hopen : ") \x7b\n" = ")" ++ (" " ++ ("\x7b" ++ "\n")) := rfl
  have hclose : "\x7d\n" = "\x7d" ++ "\n" := rfl
  have hindent : indent 0 = "" := rfl
  simp only [hopen, hclose, hindent, String.append_assoc, String.empty_append]

/-- The lines of a function. -/
def Function.print (f : Function) : String :=
  f.write ""

theorem Function.print_eq (f : Function) :
    f.print = f.result.text ++ " " ++ f.name ++ "(" ++ Param.printAll f.params ++ ")" ++ " " ++
      Stmt.printBlock 0 f.body ++ "\n" := by
  rw [Function.print, Function.write_eq, String.empty_append]

theorem Program.writeOnto_append (p : Program) (a b : String) :
    Program.writeOnto (a ++ b) p = a ++ Program.writeOnto b p := by
  induction p generalizing b with
  | nil => rfl
  | cons f p ih =>
    cases p with
    | nil => simp only [Program.writeOnto, Function.write_eq, String.append_assoc]
    | cons g p =>
      have hstep : ∀ out, Program.writeOnto out (f :: g :: p) =
          Program.writeOnto (f.write out ++ "\n") (g :: p) := fun _ => rfl
      rw [hstep, hstep, ← ih, Function.write_eq, Function.write_eq b]
      simp only [String.append_assoc]

theorem Program.writeOnto_eq (p : Program) (out : String) :
    Program.writeOnto out p = out ++ p.print := by
  rw [Program.print, ← Program.writeOnto_append, String.append_empty]

theorem Program.print_cons_cons (f g : Function) (p : Program) :
    Program.print (f :: g :: p) = f.print ++ "\n" ++ Program.print (g :: p) := by
  rw [Program.print, Program.writeOnto, Program.writeOnto_eq, Function.print]
  simp

end Scriptlet
