import Mathlib.Data.List.Nodup
import Mathlib.Tactic.MkIffOfInductiveProp
import Scriptlet.Machine.Call
import Scriptlet.Proofs.Machine.Context

/-!
# Scriptlet.Proofs.Typing.Rules

**Typing rules.** When a program is well typed. Expressions get the type of the value that they
evaluate to, and statements carry a context from one to the next: a declaration is in reach from the
next statement on, until its block ends. Parameters and the body of a function share a block.

* An integer is accepted wherever a float is declared; there is no other conversion.
* A call has the result type of its function. `print` takes one argument of any type, also of none.
* A function with a result has to return on every way through its body. What counts is a `return` on
  a list of statements or a choice of which both branches count; a loop never does.
-/

namespace Scriptlet

/-! ### Types -/

namespace Ty

/-- Whether arithmetic applies to the type. -/
def isNumber : Ty → Bool
  | int | float => true
  | _ => false

/-- Whether a value of the type `given` fits where `declared` is declared. -/
def accepts (declared given : Ty) : Bool :=
  given = declared || declared = float && given = int

end Ty

/-- The type of a binary operation by the types of its operands. -/
def BinOp.type? (op : BinOp) (l r : Ty) : Option Ty :=
  match op.operatorClass, l, r with
  | .arithmetic, .int, .int => some .int
  | .arithmetic, .string, .string => if op = .add then some .string else none
  | .arithmetic, l, r => if l.isNumber && r.isNumber then some .float else none
  | .comparison, .bool, .bool => if op = .eq ∨ op = .ne then some .bool else none
  | .comparison, .string, .string => some .bool
  | .comparison, l, r => if l.isNumber && r.isNumber then some .bool else none
  | .logic, .bool, .bool => some .bool
  | .logic, _, _ => none

/-! ### Expressions -/

/-- The type of a call by the types of its arguments. -/
def Program.resultType? (p : Program) (name : String) (args : List Ty) : Option Ty :=
  match Builtin.ofName? name with
  | some b => if args.length = b.arity then some .void else none
  | none =>
    match p.find? (·.name = name) with
    | some f =>
      if List.Forall₂ (fun q t => q.type.accepts t) f.params args then some f.result else none
    | none => none

namespace Expr

mutual

/-- The type of an expression. -/
def type? (p : Program) (Γ : Context) : Expr → Option Ty
  | int _ => some .int
  | float _ => some .float
  | str _ => some .string
  | bool _ => some .bool
  | var x => Γ.type? x
  | .call f args => (types? p Γ args).bind (p.resultType? f)
  | binary l op r => (type? p Γ l).bind fun a => (type? p Γ r).bind (op.type? a)
  | step _ _ (var x) => (Γ.type? x).filter Ty.isNumber
  | step _ _ _ => none

/-- The types of a list of expressions. -/
def types? (p : Program) (Γ : Context) : List Expr → Option (List Ty)
  | [] => some []
  | e :: rest => (type? p Γ e).bind fun t => (types? p Γ rest).map (t :: ·)

end

/-- Whether the expression is well typed and fits where `declared` is declared. -/
def fits (p : Program) (Γ : Context) (declared : Ty) (e : Expr) : Bool :=
  (e.type? p Γ).any declared.accepts

end Expr

/-! ### Statements -/

namespace Stmt

mutual

/-- The context after a well-typed statement of a function with the given result. -/
def check? (p : Program) (result : Ty) (Γ : Context) : Stmt → Option Context
  | init t x e => if t ≠ .void ∧ e.fits p Γ t then Γ.declare? x t else none
  | declare t x => if t ≠ .void then Γ.declare? x t else none
  | assign x e => if (Γ.type? x).any (e.fits p Γ) then some Γ else none
  | eval e => if (e.type? p Γ).isSome then some Γ else none
  | branch c yes no =>
    if c.type? p Γ = some .bool ∧ (checkAll? p result ([] :: Γ) yes).isSome ∧
        (checkAll? p result ([] :: Γ) no).isSome
    then some Γ else none
  | loop c body =>
    if c.type? p Γ = some .bool ∧ (checkAll? p result ([] :: Γ) body).isSome then some Γ else none
  | ret e => if e.fits p Γ result then some Γ else none

/-- The context after a list of well-typed statements. -/
def checkAll? (p : Program) (result : Ty) (Γ : Context) : List Stmt → Option Context
  | [] => some Γ
  | s :: rest => (check? p result Γ s).bind fun Γ' => checkAll? p result Γ' rest

end

mutual

/-- Whether a statement is bound to return. -/
def returns : Stmt → Bool
  | ret _ => true
  | branch _ yes no => anyReturns yes && anyReturns no
  | _ => false

/-- Whether one of a list of statements is bound to return. -/
def anyReturns : List Stmt → Bool
  | [] => false
  | s :: rest => s.returns || anyReturns rest

end

end Stmt

/-! ### Functions and programs -/

/-- The context in which the body of a function starts. -/
def Function.context (f : Function) : Context :=
  [f.params.map fun q => (q.name, q.type)]

/-- A function of a program is well typed. -/
@[mk_iff]
structure Function.WellTyped (p : Program) (f : Function) : Prop where
  params_nodup : (f.params.map Param.name).Nodup
  params_not_void : ∀ q ∈ f.params, q.type ≠ .void
  body : (Stmt.checkAll? p f.result f.context f.body).isSome
  returns : f.result = .void ∨ Stmt.anyReturns f.body

/-- A program is well typed and can be run from the function `entry`. -/
@[mk_iff]
structure Program.WellTyped (p : Program) (entry : String) : Prop where
  names_nodup : (p.map Function.name).Nodup
  not_builtin : ∀ f ∈ p, Builtin.isName f.name = false
  entry : ∃ f ∈ p, f.name = entry ∧ f.params = []
  functions : ∀ f ∈ p, f.WellTyped p

instance (p : Program) (f : Function) : Decidable (f.WellTyped p) :=
  decidable_of_iff _ (Function.wellTyped_iff p f).symm

instance (p : Program) (entry : String) : Decidable (p.WellTyped entry) :=
  decidable_of_iff _ (Program.wellTyped_iff p entry).symm

end Scriptlet
