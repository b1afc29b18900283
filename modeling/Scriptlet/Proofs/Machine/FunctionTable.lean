import Scriptlet.Proofs.Machine.Registration
import Scriptlet.Proofs.Machine.Soundness

/-!
# Scriptlet.Proofs.Machine.FunctionTable

**The table of functions.** In every machine that a session leads to, a name belongs to at most one
function, and to none if it is that of a built-in function (`Machine.LawfulTable`). So a call by the
name of a defined function always reaches that function, though built-in functions come first.

Only adding functions changes the table, which also a run begins with. It takes the functions of a
program one by one and stops at the first that cannot be added; those before it stay
(`register_cases`).
-/

namespace Scriptlet

/-! ### Adding functions -/

/-- The functions of a program can be added to a machine: their names are distinct, not built in and
not taken. -/
structure Program.FreshFor (p : Program) (m : Machine) : Prop where
  distinct : (p.map Function.name).Nodup
  not_builtin : ∀ f ∈ p, Builtin.isName f.name = false
  not_taken : ∀ f ∈ p, m.function? f.name = none

/-- The fault that stops the adding of functions at `f`, after those of `before` were added to the
machine `m`. -/
inductive RegisterFault (m : Machine) (before : Program) (f : Function) : Fault → Prop
  | builtin (h : Builtin.isName f.name) : RegisterFault m before f (.builtinRedefinition f.name)
  | taken (hname : Builtin.isName f.name = false)
    (h : (m.function? f.name).isSome ∨ ∃ g ∈ before, g.name = f.name) :
    RegisterFault m before f (.functionAlreadyDefined f.name)

section Adding

variable {m : Machine} {f g : Function} {p q before : Program} {cause : Fault}

theorem Machine.function?_append (m : Machine) (q : Program) (name : String) :
    { m with functions := m.functions ++ q }.function? name =
      (m.function? name).or (q.function? name) :=
  List.find?_append

theorem Program.function?_singleton (f : Function) (name : String) :
    Program.function? [f] name = if f.name = name then some f else none := by
  rw [function?, List.find?_singleton]
  by_cases h : f.name = name
  · rw [if_pos h, if_pos (decide_eq_true h)]
  · rw [if_neg h, if_neg (by simpa using h)]

/-- A function that can be added comes before others that can be added after it. -/
theorem Program.FreshFor.cons (hbuiltin : Builtin.isName f.name = false)
    (hfree : m.function? f.name = none)
    (h : q.FreshFor { m with functions := m.functions ++ [f] }) : FreshFor (f :: q) m := by
  have hnew (g : Function) (hg : g ∈ q) : m.function? g.name = none ∧ f.name ≠ g.name := by
    have hnone := h.not_taken g hg
    rw [Machine.function?_append, Option.or_eq_none_iff, function?_singleton] at hnone
    exact ⟨hnone.1, by simpa using hnone.2⟩
  refine ⟨List.nodup_cons.2 ⟨fun hmem => ?_, h.distinct⟩,
    List.forall_mem_cons.2 ⟨hbuiltin, h.not_builtin⟩,
    List.forall_mem_cons.2 ⟨hfree, fun g hg => (hnew g hg).1⟩⟩
  obtain ⟨g, hg, heq⟩ := List.mem_map.1 hmem
  exact (hnew g hg).2 heq.symm

/-- A name that is taken after one function was added was taken before or is the name of it. -/
theorem RegisterFault.cons
    (h : RegisterFault { m with functions := m.functions ++ [f] } before g cause) :
    RegisterFault m (f :: before) g cause := by
  cases h with
  | builtin h => exact .builtin h
  | taken hname h =>
    refine .taken hname ?_
    rw [Machine.function?_append, Option.isSome_or, Bool.or_eq_true,
      Program.function?_singleton] at h
    obtain (htable | hf) | ⟨k, hk, heq⟩ := h
    · exact .inl htable
    · exact .inr ⟨f, List.mem_cons_self, by simpa using hf⟩
    · exact .inr ⟨k, List.mem_cons_of_mem f hk, heq⟩

/-- **What adding functions does**: it adds all of them, or it adds those in front of the first that
cannot be added and stops there. -/
theorem register_cases (p : Program) (m : Machine) :
    (p.FreshFor m ∧ register p m = .done () { m with functions := m.functions ++ p }) ∨
    ∃ before f after cause, p = before ++ f :: after ∧ before.FreshFor m ∧
      RegisterFault m before f cause ∧
      register p m = .fault cause { m with functions := m.functions ++ before } := by
  induction p generalizing m with
  | nil =>
    refine .inl ⟨⟨List.nodup_nil, nofun, nofun⟩, ?_⟩
    rw [List.append_nil]
    rfl
  | cons f rest ih =>
    -- a function that cannot be added stops at once, with nothing in front of it
    have hstop {cause : Fault} (hcause : RegisterFault m [] f cause)
        (h : register (f :: rest) m = .fault cause m) :
        ∃ before g after cause, f :: rest = before ++ g :: after ∧ before.FreshFor m ∧
          RegisterFault m before g cause ∧
          register (f :: rest) m = .fault cause { m with functions := m.functions ++ before } := by
      refine ⟨[], f, rest, cause, rfl, ⟨List.nodup_nil, nofun, nofun⟩, hcause, ?_⟩
      rw [List.append_nil]
      exact h
    by_cases hbuiltin : Builtin.isName f.name
    · exact .inr (hstop (.builtin hbuiltin) (if_pos hbuiltin))
    by_cases htaken : (m.function? f.name).isSome
    · refine .inr (hstop (.taken (Bool.eq_false_iff.2 hbuiltin) (.inl htaken)) ?_)
      exact (if_neg hbuiltin).trans (if_pos htaken)
    have hstep : register (f :: rest) m =
        register rest { m with functions := m.functions ++ [f] } :=
      (if_neg hbuiltin).trans (if_neg htaken)
    rw [Bool.not_eq_true] at hbuiltin
    rw [Option.not_isSome_iff_eq_none] at htaken
    rw [hstep]
    obtain ⟨hfresh, hdone⟩ | ⟨before, g, after, cause, rfl, hfresh, hcause, hfault⟩ :=
      ih { m with functions := m.functions ++ [f] }
    · refine .inl ⟨hfresh.cons hbuiltin htaken, ?_⟩
      rw [hdone, List.append_assoc]
      rfl
    · refine .inr ⟨f :: before, g, after, cause, rfl, hfresh.cons hbuiltin htaken, hcause.cons, ?_⟩
      rw [hfault, List.append_assoc]
      rfl

end Adding

/-! ### Lawful tables -/

namespace Machine

variable {m m' : Machine} {q : Program} {f : Function} {name : String}

/-- A name belongs to at most one function of the machine, and to none if it is built in. -/
structure LawfulTable (m : Machine) : Prop where
  distinct : (m.functions.map Function.name).Nodup
  not_builtin : ∀ f ∈ m.functions, Builtin.isName f.name = false

/-- Programs leave the table alone. -/
theorem effect_functions : Effect fun _ m m' => m'.functions = m.functions where
  refl _ _ := rfl
  trans h h' := h'.trans h
  assign x v m := by
    rw [Action.assign]
    split
    · exact rfl
    · split
      · exact rfl
      · exact rfl
  declare x t v m := by
    rw [Action.declare]
    split
    · exact rfl
    · split
      · exact rfl
      · split
        · exact rfl
        · exact rfl
  block h := h
  printLine _ _ := rfl
  call _ h := h

namespace LawfulTable

theorem of_functions (h : m.LawfulTable) (heq : m'.functions = m.functions) : m'.LawfulTable := by
  obtain ⟨hdistinct, hbuiltin⟩ := h
  exact ⟨heq ▸ hdistinct, heq ▸ hbuiltin⟩

theorem add (h : m.LawfulTable) (hq : q.FreshFor m) :
    LawfulTable { m with functions := m.functions ++ q } where
  distinct := by
    rw [List.map_append, List.nodup_append]
    refine ⟨h.distinct, hq.distinct, ?_⟩
    intro x hx y hy
    obtain ⟨f, hf, rfl⟩ := List.mem_map.1 hx
    obtain ⟨g, hg, rfl⟩ := List.mem_map.1 hy
    have hnone := List.find?_eq_none.1 (hq.not_taken g hg) f hf
    simpa using hnone
  not_builtin f hf := (List.mem_append.1 hf).elim (h.not_builtin f) (hq.not_builtin f)

theorem register (h : m.LawfulTable) (p : Program) :
    (Scriptlet.register p m).Leaves LawfulTable := by
  obtain ⟨hfresh, hdone⟩ | ⟨before, f, after, cause, -, hfresh, -, hfault⟩ := register_cases p m
  · rw [hdone]
    exact h.add hfresh
  · rw [hfault]
    exact h.add hfresh

/-- **A lawful table** is kept by sessions. -/
theorem sessionInvariant :
    SessionInvariant (fun _ m m' => m'.functions = m.functions) LawfulTable where
  effect := effect_functions
  kept := of_functions
  new _ := ⟨List.nodup_nil, nofun⟩
  echo _ _ h := h.of_functions rfl
  register p _ h := h.register p
  pushScope h := h.of_functions rfl
  popScope h := h.of_functions rfl
  pushFrame _ _ h := h.of_functions rfl
  popFrame h := h.of_functions rfl
  setOptions _ _ h := h.of_functions rfl

/-- Every definition is found under its name, and nothing else is found. -/
theorem function?_eq_some_iff (h : m.LawfulTable) :
    m.function? name = some f ↔ f ∈ m.functions ∧ f.name = name :=
  Program.function?_eq_some_iff h.distinct

theorem function?_of_isName (h : m.LawfulTable) (hname : Builtin.isName name) :
    m.function? name = none := by
  cases hf : m.function? name with
  | none => rfl
  | some f =>
    obtain ⟨hmem, rfl⟩ := h.function?_eq_some_iff.1 hf
    rw [h.not_builtin f hmem] at hname
    cases hname

/-- No built-in function stands in the way of a call. -/
theorem callWithin_eq (h : m.LawfulTable) (hf : f ∈ m.functions) (fuel : Nat)
    (args : List Value) :
    callWithin fuel f.name args m = (Scriptlet.invoke fuel f args >>= fun r => pure r.1) m := by
  have hbuiltin := h.not_builtin f hf
  rw [Builtin.isName, Option.isSome_eq_false_iff, Option.isNone_iff_eq_none] at hbuiltin
  rw [callWithin, callBy_eq, hbuiltin]
  dsimp only
  rw [Action.bind_apply, Action.function, h.function?_eq_some_iff.2 ⟨hf, rfl⟩]

end LawfulTable

end Machine

/-- **The law of the table of functions.** In a machine that a session leads to, every function is
found under its own name and nothing else is found. No built-in name is taken, so that a call by the
name of a function calls that function.

The functions of a program can be added to such a machine exactly if their names are distinct, not
built in and not taken, and then the table has these functions more. Otherwise the adding stops at
the first function that has the name of a built-in one, or of one in the table or in front of it in
the program. The table has the functions in front of that one more, and nothing else is changed. -/
theorem function_table_law {m : Machine} (hm : m.Reachable) :
    (∀ name f, m.function? name = some f ↔ f ∈ m.functions ∧ f.name = name) ∧
    (∀ name, Builtin.isName name → m.function? name = none) ∧
    (∀ f ∈ m.functions, ∀ fuel args,
      callWithin fuel f.name args m = (invoke fuel f args >>= fun r => pure r.1) m) ∧
    ∀ p : Program,
      ((∃ m', register p m = .done () m') ↔ p.FreshFor m) ∧
      (∀ m', register p m = .done () m' → m' = { m with functions := m.functions ++ p }) ∧
      (¬ p.FreshFor m → ∃ before f after cause, p = before ++ f :: after ∧ before.FreshFor m ∧
        RegisterFault m before f cause ∧
        register p m = .fault cause { m with functions := m.functions ++ before }) := by
  have hlaw : m.LawfulTable := hm.invariant Machine.LawfulTable.sessionInvariant
  refine ⟨fun name f => hlaw.function?_eq_some_iff, fun name => hlaw.function?_of_isName,
    fun f hf => hlaw.callWithin_eq hf, fun p => ?_⟩
  obtain ⟨hfresh, hdone⟩ | ⟨before, f, after, cause, hp, hfresh, hcause, hfault⟩ :=
    register_cases p m
  · rw [hdone]
    exact ⟨⟨fun _ => hfresh, fun _ => ⟨_, rfl⟩⟩, fun m' h => (Outcome.done.inj h).2.symm,
      fun h => absurd hfresh h⟩
  · have hstale : ¬ p.FreshFor m := by
      intro hp
      have hdone := register_of_nodup hp.distinct hp.not_builtin hp.not_taken
      cases hfault.symm.trans hdone
    refine ⟨⟨fun ⟨m', h⟩ => ?_, fun h => absurd h hstale⟩, fun m' h => ?_,
      fun _ => ⟨before, f, after, cause, hp, hfresh, hcause, hfault⟩⟩
    · cases hfault.symm.trans h
    · cases hfault.symm.trans h

/-- A session with an echo adds a function and stops at one with the name of a built-in function.
The machine is then given a program with a new function in front of one whose name is taken. -/
theorem function_table_law_taken :
    ∃ (f g h k : Function) (m : Machine) (before after : Program) (cause : Fault),
      f = ⟨.int, "f", [⟨.int, "n"⟩], [.ret (.var "n")]⟩ ∧ g = ⟨.void, "g", [], []⟩ ∧
      h = ⟨.void, "print", [], []⟩ ∧
      sessionAfter 1 [.register [f, h, g], .pushScope] (.echoing {}) = some m ∧ m.Reachable ∧
      m.functions = [f] ∧ m.function? "print" = none ∧
      callWithin 3 "f" [.int 1] m = (invoke 3 f [.int 1] >>= fun r => pure r.1) m ∧
      ¬ Program.FreshFor [g, f] m ∧
      [g, f] = before ++ k :: after ∧ before.FreshFor m ∧ RegisterFault m before k cause ∧
      register [g, f] m = .fault cause { m with functions := m.functions ++ before } ∧
      cause = .functionAlreadyDefined "f" := by
  let f : Function := ⟨.int, "f", [⟨.int, "n"⟩], [.ret (.var "n")]⟩
  let g : Function := ⟨.void, "g", [], []⟩
  let h : Function := ⟨.void, "print", [], []⟩
  obtain ⟨m, m', hsession, hfunctions, hrun⟩ : ∃ m m',
      sessionAfter 1 [.register [f, h, g], .pushScope] (.echoing {}) = some m ∧
      m.functions = [f] ∧
      register [g, f] m = .fault (.functionAlreadyDefined "f") m' := ⟨_, _, rfl, rfl, rfl⟩
  have hm : m.Reachable := .session (.echoing {}) hsession
  obtain ⟨-, hprint, hcall, hregister⟩ := function_table_law hm
  obtain ⟨hiff, -, hstops⟩ := hregister [g, f]
  have hstale : ¬ Program.FreshFor [g, f] m := by
    intro hfresh
    obtain ⟨m₁, hdone⟩ := hiff.2 hfresh
    cases hrun.symm.trans hdone
  obtain ⟨before, k, after, cause, hp, hfresh, hcause, hfault⟩ := hstops hstale
  have hf : f ∈ m.functions := hfunctions ▸ List.mem_singleton_self f
  exact ⟨f, g, h, k, m, before, after, cause, rfl, rfl, rfl, hsession, hm, hfunctions,
    hprint "print" rfl, hcall f hf 3 [.int 1], hstale, hp, hfresh, hcause, hfault,
    (Outcome.fault.inj (hrun.symm.trans hfault)).1.symm⟩

end Scriptlet
