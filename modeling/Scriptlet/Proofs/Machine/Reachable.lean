import Mathlib.Data.List.Sort
import Scriptlet.Evaluate
import Scriptlet.Proofs.Machine.Registration
import Scriptlet.Proofs.Machine.Simulation

/-!
# Scriptlet.Proofs.Machine.Reachable

**Only reachable definitions matter.** A run can only call what is reachable from its entry: the
entry itself and, for each function that can be called, what its body names in calls. Two programs
with the same definitions of the reachable names run alike. So the order of definitions does not
matter, and neither do definitions that are never reached.

The two runs are on machines that differ in their tables of functions. As long as the code that runs
calls names of a set on which the tables agree, and the functions found there do so again, the
machines stay like that.
-/

namespace Scriptlet

namespace Program

/-- The names that are reachable from an entry: what a function that is reachable calls is reachable
too. -/
inductive Reaches (p : Program) (entry : String) : String → Prop
  | entry : Reaches p entry entry
  | call {f : Function} {name : String} (hf : f ∈ p) (hreach : Reaches p entry f.name)
      (hcall : name ∈ Stmt.callsAll f.body) : Reaches p entry name

/-- On a set of names two programs define the same functions, and these call names of the set
only. -/
structure AgreeOn (names : String → Prop) (p q : Program) : Prop where
  same : ∀ name, names name → q.function? name = p.function? name
  closed : ∀ name f, names name → p.function? name = some f → ∀ g ∈ Stmt.callsAll f.body, names g

variable {p q : Program} {names : String → Prop} {entry : String}

theorem AgreeOn.symm (h : AgreeOn names p q) : AgreeOn names q p where
  same name hname := (h.same name hname).symm
  closed name f hname hf := h.closed name f hname (by rw [← h.same name hname, hf])

/-- Programs that define the same functions under the reachable names agree on these names. -/
theorem agreeOn_reaches (h : ∀ name, p.Reaches entry name → q.function? name = p.function? name) :
    AgreeOn (p.Reaches entry) p q where
  same := h
  closed name f hname hf g hg := by
    obtain ⟨hmem, rfl⟩ := of_function?_eq_some hf
    exact .call hmem hname hg

/-- The order of definitions does not matter for what a name means. -/
theorem function?_eq_of_perm (hp : (p.map Function.name).Nodup) (hperm : p.Perm q)
    (name : String) : q.function? name = p.function? name := by
  have hq : (q.map Function.name).Nodup := (hperm.map Function.name).nodup_iff.1 hp
  refine Option.ext fun f => ?_
  rw [function?_eq_some_iff hq, function?_eq_some_iff hp, hperm.mem_iff]

/-- More definitions do not change what a name means, unless one of them has that name. -/
theorem function?_eq_of_subset (hp : (p.map Function.name).Nodup) (hq : (q.map Function.name).Nodup)
    (hsub : p ⊆ q) {name : String} (hnew : ∀ f ∈ q, f.name = name → f ∈ p) :
    q.function? name = p.function? name := by
  refine Option.ext fun f => ?_
  rw [function?_eq_some_iff hq, function?_eq_some_iff hp]
  exact ⟨fun ⟨hf, hname⟩ => ⟨hnew f hf hname, hname⟩, fun ⟨hf, hname⟩ => ⟨hsub hf, hname⟩⟩

end Program

/-! ### Two tables of functions -/

namespace Machine

/-- The machine with another table of functions. -/
def withFunctions (q : Program) (m : Machine) : Machine :=
  { m with functions := q }

/-- The machines differ only in their tables of functions, `p` and `q`. -/
def TablesDiffer (p q : Program) (m m' : Machine) : Prop :=
  m.functions = p ∧ m' = m.withFunctions q

theorem congruence_tablesDiffer (p q : Program) :
    Action.BlockCongruence fun _ x x' => x.MatchedBy (TablesDiffer p q) (fun _ => False) x' :=
  Action.congruence_matched (fun ⟨_, hm'⟩ => by rw [hm']; rfl) fun g ⟨hp, hm'⟩ =>
    ⟨hp, by rw [hm']; rfl⟩

theorem TablesDiffer.function? {p q : Program} {m m' : Machine} {name : String}
    (hname : q.function? name = p.function? name) (h : TablesDiffer p q m m') :
    m'.function? name = m.function? name := by
  obtain ⟨rfl, rfl⟩ := h
  exact hname

end Machine

section Runs

variable {p q : Program} {names : String → Prop}

/-- **Two calls under two tables.** By induction on the number of nested calls: a body calls names
on which the tables agree, and so do the functions that these names mean. -/
theorem invoke_matched_of_agreeOn (h : p.AgreeOn names q) (n : Nat) (f : Function)
    (hf : ∀ g ∈ Stmt.callsAll f.body, names g) (args : List Value) :
    (invoke n f args).MatchedBy (Machine.TablesDiffer p q) (fun _ => False) (invoke n f args) := by
  induction n generalizing f args with
  | zero => exact fun _ _ _ => trivial
  | succ n ih =>
    have hK := Machine.congruence_tablesDiffer p q
    have hcall : ∀ name ∈ Stmt.callsAll f.body, ∀ vs,
        (callBy (invoke n) name vs).MatchedBy (Machine.TablesDiffer p q) (fun _ => False)
          (callBy (invoke n) name vs) := by
      intro name hname vs
      refine callBy_matched_of_name (fun line hm => ⟨hm.1, by rw [hm.2]; rfl⟩)
        (fun hm => hm.function? (h.same name (hf name hname))) (fun {m m'} g args hm hg => ?_) vs
      have hfound : p.function? name = some g := by
        rw [← hg, Machine.function?, hm.1]
        rfl
      exact ih g (h.closed name g (hf name hname) hfound) args m m' hm
    have hbody := hK.execAll_of_calls f.body hcall
      (.inr (iterate_matched hK.toCongruence (Nat.le_refl n)))
    intro m m' hm
    obtain ⟨rfl, rfl⟩ := hm
    exact f.activate_matched ⟨rfl, rfl⟩ rfl (.inl rfl) (fun _ frame _ => hbody _ _ ⟨rfl, rfl⟩)
      fun _ _ hm => ⟨by rw [hm.2]; rfl, hm.1, by rw [hm.2]; rfl⟩

/-! ### Runs -/

/-- Calls the entry function. -/
def callEntry (fuel : Nat) (entry : String) : Action (Value × Frame) := do
  let f ← Action.function entry
  invoke fuel f []

/-- The entry is called alike if its name is one of those on which the tables agree. -/
theorem callEntry_matched (h : p.AgreeOn names q) {entry : String} (hentry : names entry)
    (fuel : Nat) :
    (callEntry fuel entry).MatchedBy (Machine.TablesDiffer p q) (fun _ => False)
      (callEntry fuel entry) := by
  intro m m' hm
  have hfunction := hm.function? (h.same entry hentry)
  obtain ⟨rfl, rfl⟩ := hm
  rw [callEntry, Action.bind_apply, Action.bind_apply, Action.function, Action.function, hfunction]
  cases hf : m.function? entry with
  | none => exact Outcome.matchedBy_fault ⟨rfl, rfl⟩
  | some f =>
    exact invoke_matched_of_agreeOn h fuel f (h.closed entry f hentry hf) [] _ _ ⟨rfl, rfl⟩

/-- The run of a program that is added to a machine is the call of its entry function there. -/
theorem runProgram_of_register {m m₁ : Machine} (h : register p m = .done () m₁) (fuel : Nat) :
    runProgram fuel p m =
      match callEntry fuel m₁.options.entry m₁ with
      | .done r m' => .done (.ofRun r.1 r.2 m') m'
      | .fault cause m' => .fault cause m'
      | .outOfFuel => .outOfFuel := by
  refine (Action.bind_apply (register p) _ m).trans ?_
  rw [h]
  refine (Action.bind_apply (Action.function m₁.options.entry) _ m₁).trans ?_
  rw [callEntry, Action.bind_apply]
  cases Action.function m₁.options.entry m₁ with
  | fault cause m => rfl
  | outOfFuel => rfl
  | done f m₂ =>
    refine (Action.bind_apply (invoke fuel f []) _ m₂).trans ?_
    cases hrun : invoke fuel f [] m₂ <;> (dsimp only; rw [hrun])

end Runs

/-- Both runs give the same value, lines and variables, or stop with the same fault after the same
lines, or have no answer. -/
def RunResult.Alike : RunResult → RunResult → Prop
  | .finished e, .finished e' =>
    e'.value = e.value ∧ e'.console = e.console ∧ e'.entryScope = e.entryScope
  | .faulted cause console, .faulted cause' console' => cause' = cause ∧ console' = console
  | .outOfFuel, .outOfFuel => True
  | _, _ => False

namespace Program

variable {p q : Program} {options : Options}

/-- A program whose functions can all be added to a new machine. -/
def Registers (p : Program) (options : Options) : Prop :=
  ∃ m, register p (.new options) = .done () m

theorem Registers.eq_done (h : p.Registers options) :
    register p (.new options) = .done () ((Machine.new options).withFunctions p) := by
  obtain ⟨m, hm⟩ := h
  obtain ⟨rfl, -⟩ := register_eq_done hm
  exact hm

theorem Registers.nodup (h : p.Registers options) : (p.map Function.name).Nodup :=
  (register_eq_done h.eq_done).2.1

/-- The functions can be added in any order. -/
theorem Registers.perm (h : p.Registers options) (hperm : p.Perm q) : q.Registers options :=
  have hnew := (register_eq_done h.eq_done).2.2
  ⟨_, register_of_nodup ((hperm.map Function.name).nodup_iff.1 h.nodup)
    (fun f hf => (hnew f (hperm.mem_iff.2 hf)).1) fun f hf => (hnew f (hperm.mem_iff.2 hf)).2⟩

theorem Registers.run_eq (h : p.Registers options) (fuel : Nat) :
    p.run fuel options =
      match callEntry fuel options.entry ((Machine.new options).withFunctions p) with
      | .done r m => .finished (.ofRun r.1 r.2 m)
      | .fault cause m => .faulted cause m.console.toList
      | .outOfFuel => .outOfFuel := by
  have hrun : runProgram fuel p (.new options) =
      match callEntry fuel options.entry ((Machine.new options).withFunctions p) with
      | .done r m => .done (.ofRun r.1 r.2 m) m
      | .fault cause m => .fault cause m
      | .outOfFuel => .outOfFuel := runProgram_of_register h.eq_done fuel
  rw [run, hrun]
  cases callEntry fuel options.entry ((Machine.new options).withFunctions p) <;> rfl

theorem run_alike_of_agreeOn {names : String → Prop} (hp : p.Registers options)
    (hq : q.Registers options) (h : p.AgreeOn names q) (hentry : names options.entry) (fuel : Nat) :
    (p.run fuel options).Alike (q.run fuel options) := by
  have hagree := Outcome.agree_of_matched
    (callEntry_matched h hentry fuel ((Machine.new options).withFunctions p)
      ((Machine.new options).withFunctions q) ⟨rfl, rfl⟩)
    (callEntry_matched h.symm hentry fuel ((Machine.new options).withFunctions q)
      ((Machine.new options).withFunctions p) ⟨rfl, rfl⟩)
  rw [hp.run_eq, hq.run_eq]
  generalize callEntry fuel options.entry ((Machine.new options).withFunctions p) = o at hagree ⊢
  generalize callEntry fuel options.entry ((Machine.new options).withFunctions q) = o' at hagree ⊢
  cases o <;> cases o' <;> try exact hagree.elim
  case done.done r m r' m' =>
    obtain ⟨rfl, -, rfl⟩ := hagree
    exact ⟨rfl, rfl, rfl⟩
  case fault.fault cause m cause' m' =>
    obtain ⟨rfl, -, rfl⟩ := hagree
    exact ⟨rfl, rfl⟩
  case outOfFuel.outOfFuel => exact trivial

/-- The functions that a finished run lists are those of the program, sorted by name. -/
theorem Registers.functions (h : p.Registers options) {fuel : Nat} {e : Evaluation}
    (hrun : p.run fuel options = .finished e) :
    e.functions = (p.map Function.name).mergeSort fun a b => decide (a ≤ b) := by
  have hself : p.AgreeOn (p.Reaches options.entry) p := agreeOn_reaches fun _ _ => rfl
  have hagree := callEntry_matched hself .entry fuel ((Machine.new options).withFunctions p) _
    ⟨rfl, rfl⟩
  rw [h.run_eq] at hrun
  generalize callEntry fuel options.entry ((Machine.new options).withFunctions p) = o at hagree hrun
  cases o with
  | done r m =>
    obtain ⟨_, -, rfl, -⟩ := hagree
    cases hrun
    rfl
  | fault cause m => cases hrun
  | outOfFuel => cases hrun

theorem pairwise_sortedNames (p : Program) :
    ((p.map Function.name).mergeSort fun a b => decide (a ≤ b)).Pairwise (· ≤ ·) := by
  have hsorted := @List.pairwise_mergeSort String (fun a b => decide (a ≤ b))
    (by simpa using fun _ _ _ => String.le_trans) (by simpa using String.le_total)
    (p.map Function.name)
  simpa using hsorted

/-- Sorted names do not show in which order they came. -/
theorem sortedNames_eq_of_perm (h : p.Perm q) :
    (p.map Function.name).mergeSort (fun a b => decide (a ≤ b)) =
      (q.map Function.name).mergeSort fun a b => decide (a ≤ b) :=
  List.Perm.eq_of_pairwise (fun _ _ _ _ => String.le_antisymm) (pairwise_sortedNames p)
    (pairwise_sortedNames q)
    ((List.mergeSort_perm _ _).trans ((h.map Function.name).trans (List.mergeSort_perm _ _).symm))

end Program

/-- **Only reachable definitions matter, and not their order.** Let the functions of two programs be
such that they can all be added to a new machine. If the programs define the same functions under
the names that are reachable in the first, their runs are alike. So they are if the second program
has more definitions, or fewer, that are not reachable in the first. In another order the
definitions can be added as well, and the run is the same. What the runs need not have in common is
the list of functions: these are the names that each program defines, sorted. -/
theorem run_reachable {p q : Program} {options : Options} (hp : p.Registers options)
    (hq : q.Registers options) :
    ((∀ name, p.Reaches options.entry name → q.function? name = p.function? name) →
        ∀ fuel, (p.run fuel options).Alike (q.run fuel options)) ∧
      (p ⊆ q → (∀ f ∈ q, p.Reaches options.entry f.name → f ∈ p) →
        ∀ fuel, (p.run fuel options).Alike (q.run fuel options)) ∧
      (q ⊆ p → (∀ f ∈ p, p.Reaches options.entry f.name → f ∈ q) →
        ∀ fuel, (p.run fuel options).Alike (q.run fuel options)) ∧
      (∀ r : Program, p.Perm r →
        r.Registers options ∧ ∀ fuel, r.run fuel options = p.run fuel options) ∧
      ∀ fuel e, p.run fuel options = .finished e →
        e.functions.Perm (p.map Function.name) ∧ e.functions.Pairwise (· ≤ ·) := by
  have hagree {r : Program} (hr : r.Registers options)
      (h : ∀ name, p.Reaches options.entry name → r.function? name = p.function? name)
      (fuel : Nat) : (p.run fuel options).Alike (r.run fuel options) :=
    Program.run_alike_of_agreeOn hp hr (Program.agreeOn_reaches h) .entry fuel
  refine ⟨hagree hq, fun hsub hnew => hagree hq fun name hname => ?more,
    fun hsub hold => hagree hq fun name hname => ?fewer, fun r hperm => ?order,
    fun fuel e he => ?names⟩
  case more =>
    exact Program.function?_eq_of_subset hp.nodup hq.nodup hsub fun f hf hfname =>
      hnew f hf (hfname ▸ hname)
  case fewer =>
    exact (Program.function?_eq_of_subset hq.nodup hp.nodup hsub fun f hf hfname =>
      hold f hf (hfname ▸ hname)).symm
  case order =>
    have hr := hp.perm hperm
    refine ⟨hr, fun fuel => ?_⟩
    have halike := hagree hr (fun name _ => Program.function?_eq_of_perm hp.nodup hperm name) fuel
    cases hrun : p.run fuel options <;> cases hrun' : r.run fuel options <;>
      rw [hrun, hrun'] at halike <;> try exact halike.elim
    case finished.finished e e' =>
      have hfunctions : e'.functions = e.functions := by
        rw [hp.functions hrun, hr.functions hrun', Program.sortedNames_eq_of_perm hperm]
      obtain ⟨hvalue, hconsole, hscope⟩ := halike
      cases e
      cases e'
      simp only at hvalue hconsole hfunctions hscope
      rw [hvalue, hconsole, hfunctions, hscope]
    case faulted.faulted => rw [halike.1, halike.2]
  case names =>
    rw [hp.functions he]
    exact ⟨List.mergeSort_perm _ _, Program.pairwise_sortedNames p⟩

/-- Two functions that call each other, once behind the entry, and once in front of it and next to a
function that nothing calls and that could not run. Both runs print the same and find that three is
not even. -/
theorem run_reachable_parity :
    ∃ (main even odd stray : Function) (e e' : Evaluation),
      main = ⟨.bool, "main", [], [.ret (.call "even" [.int 3])]⟩ ∧
      even = ⟨.bool, "even", [⟨.int, "n"⟩],
        [.eval (.call "print" [.var "n"]),
          .branch (.binary (.var "n") .eq (.int 0)) [.ret (.bool true)]
            [.ret (.call "odd" [.binary (.var "n") .sub (.int 1)])]]⟩ ∧
      odd = ⟨.bool, "odd", [⟨.int, "n"⟩],
        [.branch (.binary (.var "n") .eq (.int 0)) [.ret (.bool false)]
          [.ret (.call "even" [.binary (.var "n") .sub (.int 1)])]]⟩ ∧
      stray = ⟨.int, "stray", [], [.ret (.call "missing" [])]⟩ ∧
      (∀ fuel, (Program.run fuel ⟨"main", 8⟩ [main, even, odd]).Alike
        (Program.run fuel ⟨"main", 8⟩ [odd, stray, even, main])) ∧
      Program.run 9 ⟨"main", 8⟩ [main, even, odd] = .finished e ∧
      Program.run 9 ⟨"main", 8⟩ [odd, stray, even, main] = .finished e' ∧
      e.value = .bool false ∧ e.console = ["3", "1"] ∧
      e'.value = e.value ∧ e'.console = e.console := by
  let main : Function := ⟨.bool, "main", [], [.ret (.call "even" [.int 3])]⟩
  let even : Function := ⟨.bool, "even", [⟨.int, "n"⟩],
    [.eval (.call "print" [.var "n"]),
      .branch (.binary (.var "n") .eq (.int 0)) [.ret (.bool true)]
        [.ret (.call "odd" [.binary (.var "n") .sub (.int 1)])]]⟩
  let odd : Function := ⟨.bool, "odd", [⟨.int, "n"⟩],
    [.branch (.binary (.var "n") .eq (.int 0)) [.ret (.bool false)]
      [.ret (.call "even" [.binary (.var "n") .sub (.int 1)])]]⟩
  let stray : Function := ⟨.int, "stray", [], [.ret (.call "missing" [])]⟩
  have hreach {name : String} (h : Program.Reaches [main, even, odd] "main" name) :
      name ∈ ["main", "even", "print", "odd"] := by
    induction h with
    | entry => decide
    | @call f name hf _ hcall _ =>
      have hcalls : ∀ f ∈ [main, even, odd], ∀ g ∈ Stmt.callsAll f.body,
          g ∈ ["main", "even", "print", "odd"] := by decide
      exact hcalls f hf name hcall
  have hp : Program.Registers [main, even, odd] ⟨"main", 8⟩ := ⟨_, rfl⟩
  have hq : Program.Registers [odd, stray, even, main] ⟨"main", 8⟩ := ⟨_, rfl⟩
  have halike := (run_reachable hp hq).2.1 (by simp) fun f hf hname => by
    have hnames := hreach hname
    simp only [List.mem_cons, List.not_mem_nil, or_false] at hf
    obtain rfl | rfl | rfl | rfl := hf
    · simp
    · exact absurd hnames (by decide)
    · simp
    · simp
  obtain ⟨e, e', hrun, hrun', hvalue, hconsole⟩ : ∃ e e',
      Program.run 9 ⟨"main", 8⟩ [main, even, odd] = .finished e ∧
      Program.run 9 ⟨"main", 8⟩ [odd, stray, even, main] = .finished e' ∧
      e.value = .bool false ∧ e.console = ["3", "1"] := ⟨_, _, rfl, rfl, rfl, rfl⟩
  have hsame := halike 9
  rw [hrun, hrun'] at hsame
  exact ⟨main, even, odd, stray, e, e', rfl, rfl, rfl, rfl, halike, hrun, hrun', hvalue, hconsole,
    hsame.1, hsame.2.1⟩

end Scriptlet
