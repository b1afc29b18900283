import Scriptlet.Machine.Exec

/-!
# Scriptlet.Proofs.Machine.Outcome

**What an action ends with.** A postcondition speaks of the value and the machine of an action that
is done, and of the cause and the machine of one that stops with a fault. It is proved along the
parts of the action: a bind needs a condition between its two actions, a loop an invariant.
-/

namespace Scriptlet

variable {α β : Type} {Q R : α → Machine → Prop} {E F : Fault → Machine → Prop}

/-- The outcome is done with `Q`, is a fault with `E`, or is out of fuel. -/
def Outcome.Meets (Q : α → Machine → Prop) (E : Fault → Machine → Prop) : Outcome α → Prop
  | .done a m => Q a m
  | .fault cause m => E cause m
  | .outOfFuel => True

/-- A postcondition can be weakened. -/
theorem Outcome.Meets.mono {o : Outcome α} (h : o.Meets Q E) (hQ : ∀ a m, Q a m → R a m)
    (hE : ∀ cause m, E cause m → F cause m) : o.Meets R F := by
  cases o with
  | done a m => exact hQ a m h
  | fault cause m => exact hE cause m h
  | outOfFuel => exact trivial

namespace Action

/-- The second action starts where the first one is done. -/
theorem meets_bind {P : β → Machine → Prop} {x : Action α} {k : α → Action β} {m : Machine}
    (hx : (x m).Meets Q E) (hk : ∀ a m', Q a m' → (k a m').Meets P E) :
    ((x >>= k) m).Meets P E := by
  rw [bind_apply]
  cases h : x m with
  | done a m' =>
    rw [h] at hx
    exact hk a m' hx
  | fault cause m' =>
    rw [h] at hx
    exact hx
  | outOfFuel => exact trivial

/-- A computation without regard to the machine leaves it alone. -/
theorem meets_ofExcept {x : Except Fault α} {m : Machine} (hok : ∀ a, x = .ok a → Q a m)
    (herror : ∀ cause, x = .error cause → E cause m) : (ofExcept x m).Meets Q E := by
  cases x with
  | ok a => exact hok a rfl
  | error cause => exact herror cause rfl

theorem ofExcept_eq_done {x : Except Fault α} {a : α} {m m' : Machine}
    (h : ofExcept x m = .done a m') : m' = m ∧ x = .ok a := by
  cases x with
  | error cause => cases h
  | ok b =>
    cases h
    exact ⟨rfl, rfl⟩

/-- A block is entered with a new scope and left by removing it. -/
theorem meets_inBlock {body : Action α} {m : Machine}
    (h : (body m.pushScope).Meets (fun a m' => Q a m'.popScope)
      (fun cause m' => E cause m'.popScope)) :
    (inBlock body m).Meets Q E := by
  rw [inBlock]
  cases hbody : body m.pushScope with
  | done a m' =>
    rw [hbody] at h
    exact h
  | fault cause m' =>
    rw [hbody] at h
    exact h
  | outOfFuel => exact trivial

end Action

/-- A loop keeps what its test and every round of its body keep. -/
theorem meets_iterate {I : Machine → Prop} {P : Flow → Machine → Prop} {test : Action Bool}
    {body : Action Flow} (htest : ∀ m, I m → (test m).Meets (fun _ m' => I m') E)
    (hbody : ∀ m, I m → (body m).Meets
      (fun flow m' => (flow = .next → I m') ∧ (flow ≠ .next → P flow m')) E)
    (hnext : ∀ m, I m → P .next m) (n : Nat) {m : Machine} (h : I m) :
    (iterate test body n m).Meets P E := by
  induction n generalizing m with
  | zero => exact trivial
  | succ n ih =>
    refine Action.meets_bind (htest m h) fun holds m₁ h₁ => ?_
    cases holds with
    | false => exact hnext m₁ h₁
    | true =>
      refine Action.meets_bind (hbody m₁ h₁) fun flow m₂ h₂ => ?_
      cases flow with
      | next => exact ih (h₂.1 rfl)
      | returned v => exact h₂.2 nofun

end Scriptlet
