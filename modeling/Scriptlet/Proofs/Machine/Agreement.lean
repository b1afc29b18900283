import Scriptlet.Proofs.Machine.Discipline
import Scriptlet.Proofs.Machine.Isolation

/-!
# Scriptlet.Proofs.Machine.Agreement

**Runs that end alike.** Two actions agree under a relation between machines if, started on related
machines, both end with the same value, with the same fault or out of fuel, and on related machines
again. Agreement is a congruence of actions if related machines bind all names alike and an
assignment keeps them related (`Action.congruence_agrees`).

Calls add little to this. For its caller a call only prints (`invoke_only_prints`): apart from the
lines that it has printed, the machine is the one that it started on. So calls agree under every
relation that fixes functions, options and the number of frames and that bears printing
(`callWithin_agrees`).
-/

namespace Scriptlet

variable {α β : Type}

/-! ### Printing -/

namespace Machine

/-- Prints lines, the first one first. -/
def printLines (lines : List String) (m : Machine) : Machine :=
  lines.foldl (fun m line => m.printLine line) m

/-- The machine with other active calls. -/
def withCalls (c : CallStack) (m : Machine) : Machine :=
  { m with calls := c }

theorem printLines_append (lines lines' : List String) (m : Machine) :
    m.printLines (lines ++ lines') = (m.printLines lines).printLines lines' :=
  List.foldl_append

/-- What is printed does not depend on the active calls. -/
theorem withCalls_printLines (c : CallStack) (lines : List String) (m : Machine) :
    (m.printLines lines).withCalls c = (m.withCalls c).printLines lines := by
  induction lines generalizing m with
  | nil => rfl
  | cons line rest ih => exact ih (m.printLine line)

theorem calls_printLines (lines : List String) (m : Machine) :
    (m.printLines lines).calls = m.calls := by
  induction lines generalizing m with
  | nil => rfl
  | cons line rest ih => exact ih (m.printLine line)

theorem console_printLines (lines : List String) (m : Machine) :
    (m.printLines lines).console = m.console ++ lines.toArray := by
  induction lines generalizing m with
  | nil => exact Array.append_empty.symm
  | cons line rest ih =>
    refine (ih (m.printLine line)).trans ?_
    simp [printLine]

/-- Apart from the active calls, `m₁` is what `m` is after it has printed some lines. -/
def Prints (m m₁ : Machine) : Prop :=
  ∃ lines, m₁.withCalls m.calls = m.printLines lines

namespace Prints

variable {m m₁ m₂ : Machine}

theorem of_withCalls {c : CallStack} (h : (m.withCalls c).Prints m₁) : m.Prints m₁ := by
  obtain ⟨lines, hlines⟩ := h
  refine ⟨lines, ?_⟩
  have hcalls := congrArg (withCalls m.calls) hlines
  rwa [withCalls_printLines] at hcalls

theorem trans (h : m.Prints m₁) (h' : m₁.Prints m₂) : m.Prints m₂ := by
  obtain ⟨lines, hlines⟩ := h
  obtain ⟨lines', hlines'⟩ := h'
  refine ⟨lines ++ lines', ?_⟩
  have hcalls := congrArg (withCalls m.calls) hlines'
  rw [withCalls_printLines, hlines, ← printLines_append] at hcalls
  exact hcalls

end Prints

/-- **Printing** as an effect: what else programs do, they do to the active calls. -/
theorem effect_prints : Effect fun _ => Prints where
  refl _ _ := ⟨[], rfl⟩
  trans h h' := h.trans h'
  assign x v m := by
    rw [Action.assign]
    split
    · exact ⟨[], rfl⟩
    · split
      · exact ⟨[], rfl⟩
      · exact ⟨[], rfl⟩
  declare x t v m := by
    rw [Action.declare]
    split
    · exact ⟨[], rfl⟩
    · split
      · exact ⟨[], rfl⟩
      · split
        · exact ⟨[], rfl⟩
        · exact ⟨[], rfl⟩
  block h := Prints.of_withCalls h
  printLine line _ := ⟨[line], rfl⟩
  call _ h := Prints.of_withCalls h

end Machine

/-- **A call only prints**, as far as its caller can see. -/
theorem invoke_only_prints (fuel : Nat) (f : Function) (args : List Value) (m : Machine) :
    (invoke fuel f args m).Leaves fun m₁ => ∃ lines, m₁ = m.printLines lines := by
  have hprints := Machine.effect_prints.invoke fuel f args m
  refine (hprints.and (invoke_leaves_frames fuel f args m)).mono fun m₁ h => ?_
  obtain ⟨⟨lines, hlines⟩, hframes⟩ := h
  have hcalls : m₁.calls = m.calls := CallStack.ext hframes
  rw [← hcalls] at hlines
  exact ⟨lines, hlines⟩

theorem callWithin_only_prints (fuel : Nat) (name : String) (args : List Value) (m : Machine) :
    (callWithin fuel name args m).Leaves fun m₁ => ∃ lines, m₁ = m.printLines lines := by
  rw [callWithin, callBy_eq]
  cases Builtin.ofName? name with
  | some b =>
    cases b with
    | print =>
      dsimp only
      rw [Builtin.call]
      split
      · exact ⟨[_], rfl⟩
      · exact ⟨[], rfl⟩
  | none =>
    dsimp only
    rw [Action.bind_apply, Action.function]
    cases m.function? name with
    | none => exact ⟨[], rfl⟩
    | some f => exact Action.meets_bind (invoke_only_prints fuel f args m) fun _ _ h => h

/-- **An expression assigns and prints**, and does nothing else to the machine. -/
theorem Expr.eval_leaves {R : Machine → Machine → Prop} (hrefl : ∀ m, R m m)
    (htrans : ∀ {m m₁ m₂}, R m m₁ → R m₁ m₂ → R m m₂)
    (hassign : ∀ x v m, (Action.assign x v m).Leaves (R m))
    (hprint : ∀ lines m, R m (m.printLines lines)) (fuel : Nat) (e : Expr) (m : Machine) :
    (e.eval (callWithin fuel) m).Leaves (R m) := by
  have hK : Action.Congruence fun _ x _ => ∀ m, (x m).Leaves (R m) := {
    pure := fun _ m => hrefl m
    raise := fun _ m => hrefl m
    bind := fun hx hk m => Action.leaves_bind (hx m) fun a m₁ h₁ =>
      (hk a m₁).mono fun _ h₂ => htrans h₁ h₂
    lookup := fun x m => by
      rw [Action.lookup_eq_top]
      split
      · exact hrefl m
      · exact hrefl m
    assign := hassign }
  refine @Action.Congruence.eval _ (callWithin fuel) (callWithin fuel) hK (fun name vs m => ?_) e m
  refine (callWithin_only_prints fuel name vs m).mono fun m₁ h => ?_
  obtain ⟨lines, rfl⟩ := h
  exact hprint lines m

/-! ### Agreement -/

variable {R S : Machine → Machine → Prop}

/-- What else is known of the machines that are left can be used to relate them. -/
theorem Outcome.Agree.with_leaves {o o' : Outcome α} {P P' : Machine → Prop} (h : o.Agree R o')
    (hP : o.Leaves P) (hP' : o'.Leaves P') (himp : ∀ m m', P m → P' m' → R m m' → S m m') :
    o.Agree S o' := by
  cases o <;> cases o' <;> try exact h.elim
  case done.done => exact ⟨h.1, himp _ _ hP hP' h.2⟩
  case fault.fault => exact ⟨h.1, himp _ _ hP hP' h.2⟩
  case outOfFuel.outOfFuel => exact trivial

/-- On related machines the two actions end in the same way, and on related machines again. -/
def Action.AgreesWith (R : Machine → Machine → Prop) (x x' : Action α) : Prop :=
  ∀ m m', R m m' → (x m).Agree R (x' m')

namespace Action

theorem AgreesWith.bind {x x' : Action α} {k k' : α → Action β} (hx : x.AgreesWith R x')
    (hk : ∀ a, (k a).AgreesWith R (k' a)) : (x >>= k).AgreesWith R (x' >>= k') := by
  intro m m' hm
  have hfirst := hx m m' hm
  rw [bind_apply, bind_apply]
  cases hrun : x m <;> cases hrun' : x' m' <;>
    rw [hrun, hrun'] at hfirst <;> try exact hfirst.elim
  case done.done a m₁ a' m₁' =>
    obtain ⟨rfl, hm₁⟩ := hfirst
    exact hk a' m₁ m₁' hm₁
  case fault.fault => exact hfirst
  case outOfFuel.outOfFuel => exact trivial

/-- Blocks agree if their bodies do, under a relation for the inside of the block. -/
theorem AgreesWith.inBlock {body body' : Action α}
    (hpush : ∀ {m m'}, R m m' → S m.pushScope m'.pushScope)
    (hpop : ∀ {m m'}, S m m' → R m.popScope m'.popScope) (h : body.AgreesWith S body') :
    (Action.inBlock body).AgreesWith R (Action.inBlock body') := by
  intro m m' hm
  have hbody := h _ _ (hpush hm)
  rw [Action.inBlock, Action.inBlock]
  cases hrun : body m.pushScope <;> cases hrun' : body' m'.pushScope <;>
    rw [hrun, hrun'] at hbody <;> try exact hbody.elim
  case done.done => exact ⟨hbody.1, hpop hbody.2⟩
  case fault.fault => exact ⟨hbody.1, hpop hbody.2⟩
  case outOfFuel.outOfFuel => exact trivial

/-- Agreement is a congruence if related machines bind all names alike and still do when both
assign. -/
theorem congruence_agrees (hlookup : ∀ {m m'} x, R m m' → m'.top.lookup? x = m.top.lookup? x)
    (hself : ∀ {m m'}, R m m' → R (m.mapTop id) (m'.mapTop id))
    (hset : ∀ {m m'} x v, R m m' → R (m.mapTop (·.set x v)) (m'.mapTop (·.set x v))) :
    Congruence fun _ x x' => x.AgreesWith R x' where
  pure _ _ _ h := ⟨rfl, h⟩
  raise _ _ _ h := ⟨rfl, h⟩
  bind := AgreesWith.bind
  lookup x m m' h := by
    rw [lookup_eq_top, lookup_eq_top, hlookup x h]
    cases m.top.lookup? x with
    | none => exact ⟨rfl, h⟩
    | some b => exact ⟨rfl, h⟩
  assign x v m m' h := by
    rw [Action.assign, Action.assign, hlookup x h]
    split
    · exact ⟨rfl, hself h⟩
    · split
      · exact ⟨rfl, hself h⟩
      · exact ⟨rfl, hset x _ h⟩

end Action

/-- Loops agree if their parts do. -/
theorem iterate_agrees {test test' : Action Bool} {body body' : Action Flow}
    (htest : test.AgreesWith R test') (hbody : body.AgreesWith R body') (n : Nat) :
    (iterate test body n).AgreesWith R (iterate test' body' n) := by
  induction n with
  | zero => exact fun _ _ _ => trivial
  | succ n ih =>
    refine htest.bind fun holds => ?_
    cases holds with
    | false => exact fun _ _ h => ⟨rfl, h⟩
    | true =>
      refine hbody.bind fun flow => ?_
      cases flow with
      | next => exact ih
      | returned v => exact fun _ _ h => ⟨rfl, h⟩

/-! ### Agreement of calls -/

section Calls

variable (hfunction : ∀ {m m'} name, R m m' → m'.function? name = m.function? name)
  (hoptions : ∀ {m m'}, R m m' → m'.options = m.options)
  (hcount : ∀ {m m'}, R m m' → m'.frames.length = m.frames.length)
  (hprint : ∀ {m m'} line, R m m' → R (m.printLine line) (m'.printLine line))

include hprint in
theorem printLines_related {m m' : Machine} (lines : List String) (h : R m m') :
    R (m.printLines lines) (m'.printLines lines) := by
  induction lines generalizing m m' with
  | nil => exact h
  | cons line rest ih => exact ih (hprint line h)

include hfunction hoptions hcount hprint

theorem invoke_agrees (fuel : Nat) (f : Function) (args : List Value) :
    (invoke fuel f args).AgreesWith R (invoke fuel f args) := by
  intro m m' hm
  have hagree := Outcome.agree_of_matched
    (invoke_matched_of_length f args (hfunction · hm) (hoptions hm) (hcount hm) fuel)
    (invoke_matched_of_length f args (fun name => (hfunction name hm).symm) (hoptions hm).symm
      (hcount hm).symm fuel)
  refine hagree.with_leaves (invoke_only_prints fuel f args m) (invoke_only_prints fuel f args m')
    fun m₁ m₁' hprints hprints' hsame => ?_
  -- the same lines were printed, and nothing else was done to either machine
  obtain ⟨lines, rfl⟩ := hprints
  obtain ⟨lines', rfl⟩ := hprints'
  obtain ⟨printed, hlines, hlines'⟩ := hsame
  rw [Machine.console_printLines, Array.append_right_inj] at hlines hlines'
  have heq : lines' = lines := congrArg Array.toList (hlines'.trans hlines.symm)
  exact heq ▸ printLines_related hprint lines hm

/-- **Calls agree** if they start on machines with the same functions and options and with as many
frames. -/
theorem callWithin_agrees (fuel : Nat) (name : String) (vs : List Value) :
    (callWithin fuel name vs).AgreesWith R (callWithin fuel name vs) := by
  intro m m' hm
  rw [callWithin, callBy_eq]
  cases Builtin.ofName? name with
  | some b =>
    cases b with
    | print =>
      dsimp only
      rw [Builtin.call]
      split
      · exact ⟨rfl, hprint _ hm⟩
      · exact ⟨rfl, hm⟩
  | none =>
    dsimp only
    rw [Action.bind_apply, Action.bind_apply, Action.function, Action.function, hfunction name hm]
    cases m.function? name with
    | none => exact ⟨rfl, hm⟩
    | some f =>
      have hinvoke := invoke_agrees (R := R) hfunction hoptions hcount hprint fuel f vs
      refine hinvoke.bind (fun r => ?_) m m' hm
      exact fun _ _ h => ⟨rfl, h⟩

end Calls

end Scriptlet
