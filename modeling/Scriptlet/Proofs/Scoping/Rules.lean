import Scriptlet.Machine.Call
import Scriptlet.Proofs.Machine.Effect

/-!
# Scriptlet.Proofs.Scoping.Rules

**Scoping rules.** When the names of a program are in order, whatever its types are. Each block of a
function is read from its first statement to its last, with the names declared so far.

* A variable that is read, assigned or stepped is declared before, in the same block or in one
  around it. The initial value of a variable does not see the variable itself.
* A block declares no name twice, but it may declare names of the blocks around it.
* The parameters of a function and its body are one block.

The condition of a loop and that of a choice belong to the block around.
-/

namespace Scriptlet

/-- The declared names of the open blocks, the innermost block first. -/
abbrev Blocks := List (List String)

namespace Expr

mutual

/-- Whether an expression gets along with the names in `reach`. The operand of a step counts only
if it is a variable, because no other is evaluated. -/
def wellScoped (reach : List String) : Expr → Bool
  | var x => x ∈ reach
  | call _ args => wellScopedAll reach args
  | binary l _ r => l.wellScoped reach && r.wellScoped reach
  | step _ _ (var x) => x ∈ reach
  | _ => true

/-- Whether all of a list of expressions get along with the names in `reach`. -/
def wellScopedAll (reach : List String) : List Expr → Bool
  | [] => true
  | e :: rest => e.wellScoped reach && wellScopedAll reach rest

end

end Expr

namespace Stmt

mutual

/-- Whether the names of a statement are in order if its block has declared `γ` so far, inside the
blocks `Γ`. -/
def wellScoped (Γ : Blocks) (γ : List String) : Stmt → Bool
  | init _ x e => e.wellScoped (γ :: Γ).flatten && x ∉ γ
  | declare _ x => x ∉ γ
  | assign x e => x ∈ (γ :: Γ).flatten && e.wellScoped (γ :: Γ).flatten
  | eval e => e.wellScoped (γ :: Γ).flatten
  | branch c yes no =>
    c.wellScoped (γ :: Γ).flatten && wellScopedAll (γ :: Γ) [] yes && wellScopedAll (γ :: Γ) [] no
  | loop c body => c.wellScoped (γ :: Γ).flatten && wellScopedAll (γ :: Γ) [] body
  | ret e => e.wellScoped (γ :: Γ).flatten

/-- Whether the names of a list of statements are in order. -/
def wellScopedAll (Γ : Blocks) (γ : List String) : List Stmt → Bool
  | [] => true
  | s :: rest => s.wellScoped Γ γ && wellScopedAll Γ (s.declared ++ γ) rest

end

end Stmt

/-- Whether the names of a function are in order. Repeated parameters are none of its concern: a
call of such a function is turned away before its body starts. -/
def Function.wellScoped (f : Function) : Bool :=
  Stmt.wellScopedAll [] (f.params.map Param.name) f.body

end Scriptlet
