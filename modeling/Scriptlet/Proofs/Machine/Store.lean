import Scriptlet.Machine.Store

/-!
# Scriptlet.Proofs.Machine.Store

**Reading after writing.** Reading and writing a variable search the scopes of a frame separately
(`Frame.lookup?`, `Frame.set`). Here it is shown that they find the same binding, by what is read
after a write. For what is visible this is `Frame.lookup?_set`. Bindings of the same name further
out are hidden, and a write does not touch them (`Frame.binding?_set`).
-/

namespace Scriptlet

namespace Scope

theorem find?_cons (x y : String) (b : Binding) (s : Scope) :
    find? ((y, b) :: s) x = if x = y then some b else s.find? x := by
  rw [find?, find?, List.lookup_cons]
  by_cases hxy : x = y
  · rw [if_pos hxy, beq_iff_eq.2 hxy]
  · rw [if_neg hxy, beq_eq_false_iff_ne.2 hxy]

theorem find?_set (x y : String) (v : Value) (s : Scope) :
    (s.set x v).find? y = if y = x then (s.find? x).map ({ · with value := v }) else s.find? y := by
  induction s with
  | nil => split <;> rfl
  | cons d rest ih =>
    obtain ⟨z, b⟩ := d
    rw [set, find?_cons, find?_cons]
    by_cases hzx : z = x
    · rw [if_pos hzx, find?_cons, if_pos hzx.symm, hzx]
      by_cases hyx : y = x
      · rw [if_pos hyx, if_pos hyx]
        rfl
      · rw [if_neg hyx, if_neg hyx, if_neg hyx]
    · rw [if_neg hzx, find?_cons, ih, if_neg (Ne.symm hzx)]
      by_cases hyx : y = x
      · rw [if_pos hyx, if_pos hyx, if_neg (hyx ▸ Ne.symm hzx)]
      · rw [if_neg hyx, if_neg hyx]

end Scope

namespace Frame

variable {f : Frame} {i : Nat} {x y : String} {v : Value} {name : String} {s : Scope}
  {rest : List Scope}

/-! ### The visible binding -/

theorem lookup?_cons (name : String) (s : Scope) (rest : List Scope) (x : String) :
    lookup? ⟨name, s :: rest⟩ x = (s.find? x).or (lookup? ⟨name, rest⟩ x) := by
  rw [lookup?, List.findSome?_cons]
  cases s.find? x with
  | none => rfl
  | some b => rfl

/-- A write goes to the innermost scope if that binds the name, and to those around it if not. -/
theorem set_cons (name : String) (s : Scope) (rest : List Scope) (x : String) (v : Value) :
    set ⟨name, s :: rest⟩ x v =
      if (s.find? x).isSome then ⟨name, s.set x v :: rest⟩
      else ⟨name, s :: (set ⟨name, rest⟩ x v).scopes⟩ := by
  rw [set, setIn]
  split <;> rfl

/-- **What is visible after a write**: the name that was written has the new value, and all others
are as before. -/
theorem lookup?_set (f : Frame) (x y : String) (v : Value) :
    (f.set x v).lookup? y =
      if y = x then (f.lookup? x).map ({ · with value := v }) else f.lookup? y := by
  obtain ⟨name, scopes⟩ := f
  induction scopes with
  | nil => split <;> rfl
  | cons s rest ih =>
    rw [set_cons, lookup?_cons, lookup?_cons]
    cases hx : s.find? x with
    | none =>
      rw [if_neg (by simp), lookup?_cons]
      refine (congrArg (s.find? y).or ih).trans ?_
      by_cases hyx : y = x
      · rw [if_pos hyx, if_pos hyx, hyx, hx, Option.none_or, Option.none_or]
      · rw [if_neg hyx, if_neg hyx]
    | some b =>
      rw [if_pos Option.isSome_some, lookup?_cons, Scope.find?_set, hx]
      by_cases hyx : y = x
      · rw [if_pos hyx, if_pos hyx]
        rfl
      · rw [if_neg hyx, if_neg hyx]

/-! ### Hidden bindings -/

/-- The binding that a name has in one of the scopes, which are counted from the innermost. -/
def binding? (f : Frame) (i : Nat) (x : String) : Option Binding :=
  f.scopes[i]?.bind (·.find? x)

/-- A scope further in binds the name. -/
def Hides (f : Frame) (i : Nat) (x : String) : Prop :=
  ∃ j < i, (f.binding? j x).isSome

instance (f : Frame) (i : Nat) (x : String) : Decidable (f.Hides i x) :=
  inferInstanceAs (Decidable (∃ j < i, (f.binding? j x).isSome))

theorem not_hides_zero : ¬ f.Hides 0 x := by
  rintro ⟨j, hj, -⟩
  exact Nat.not_lt_zero j hj

theorem hides_succ :
    Hides ⟨name, s :: rest⟩ (i + 1) x ↔ (s.find? x).isSome ∨ Hides ⟨name, rest⟩ i x := by
  constructor
  · rintro ⟨_ | j, hj, hsome⟩
    · exact .inl hsome
    · exact .inr ⟨j, Nat.lt_of_succ_lt_succ hj, hsome⟩
  · rintro (hsome | ⟨j, hj, hsome⟩)
    · exact ⟨0, Nat.succ_pos i, hsome⟩
    · exact ⟨j + 1, Nat.succ_lt_succ hj, hsome⟩

/-- A write leaves the bindings of all other names alone. -/
theorem binding?_set_of_ne (h : y ≠ x) : (f.set x v).binding? i y = f.binding? i y := by
  obtain ⟨name, scopes⟩ := f
  induction scopes generalizing i with
  | nil => rfl
  | cons s rest ih =>
    rw [set_cons]
    split
    · cases i with
      | zero =>
        change (s.set x v).find? y = s.find? y
        rw [Scope.find?_set, if_neg h]
      | succ i => rfl
    · cases i with
      | zero => rfl
      | succ i => exact ih

/-- **What is hidden stays** when a variable is written. -/
theorem binding?_set (h : f.Hides i y) : (f.set x v).binding? i y = f.binding? i y := by
  obtain ⟨name, scopes⟩ := f
  induction scopes generalizing i with
  | nil => rfl
  | cons s rest ih =>
    cases i with
    | zero => exact absurd h not_hides_zero
    | succ i =>
      rw [set_cons]
      split
      · rfl
      · rename_i hnone
        obtain hsome | hrest := hides_succ.1 h
        · -- the scope that hides `y` does not bind `x`
          have hyx : y ≠ x := by
            rintro rfl
            exact hnone hsome
          exact binding?_set_of_ne (f := ⟨name, rest⟩) hyx
        · exact ih hrest

end Frame

end Scriptlet
