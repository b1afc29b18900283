import Scriptlet.Proofs.Machine.Agreement
import Scriptlet.Proofs.Machine.Store

/-!
# Scriptlet.Proofs.Machine.Transparency

**Blocks without declarations are transparent.** Statements that declare nothing themselves do the
same in a block of their own as in the block around it. Nested blocks may declare, so the two runs
are followed through blocks, loops and calls: the second has one more scope in its newest frame,
which stays empty, below as many others as blocks were opened since (`Machine.Padded`). Nothing that
programs do finds an empty scope, except a declaration for which it is the innermost.

Loops can therefore be unrolled. A loop ends as the choice does that runs the body in front of the
loop, apart from how a condition that is no boolean is reported (`Outcome.Reworded`).
-/

namespace Scriptlet

variable {α β : Type}

/-! ### A frame with one more scope -/

namespace Frame

variable {f f' : Frame} {d : Nat} {x : String} {b : Binding}

/-- The frame with an empty scope below the `d` innermost ones. -/
def pad (d : Nat) (f : Frame) : Frame :=
  { f with scopes := f.scopes.insertIdx d [] }

theorem lookup?_pad (d : Nat) (f : Frame) (x : String) : (f.pad d).lookup? x = f.lookup? x := by
  obtain ⟨name, scopes⟩ := f
  induction scopes generalizing d with
  | nil => cases d <;> rfl
  | cons s rest ih =>
    cases d with
    | zero => rfl
    | succ d =>
      change lookup? ⟨name, s :: rest.insertIdx d []⟩ x = _
      rw [lookup?_cons, lookup?_cons]
      exact congrArg (s.find? x).or (ih d)

theorem set_pad (d : Nat) (f : Frame) (x : String) (v : Value) :
    (f.pad d).set x v = (f.set x v).pad d := by
  obtain ⟨name, scopes⟩ := f
  induction scopes generalizing d with
  | nil => cases d <;> rfl
  | cons s rest ih =>
    cases d with
    | zero => rfl
    | succ d =>
      change set ⟨name, s :: rest.insertIdx d []⟩ x v = _
      rw [set_cons, set_cons]
      split
      · rfl
      · exact congrArg (fun f => (⟨name, s :: f.scopes⟩ : Frame)) (ih d)

/-- A declaration goes to the innermost scope, wherever below it the empty one is. -/
theorem declare?_pad (hne : f.scopes ≠ []) :
    (f.pad (d + 1)).declare? x b = (f.declare? x b).map (pad (d + 1)) := by
  obtain ⟨name, scopes⟩ := f
  obtain ⟨s, rest, rfl⟩ := List.exists_cons_of_ne_nil hne
  change declare? ⟨name, s :: rest.insertIdx d []⟩ x b = _
  simp only [declare?]
  split
  · rfl
  · rfl

theorem popScope_pad (h : d + 1 ≤ f.scopes.length) :
    (f.pad (d + 1)).popScope = f.popScope.pad d := by
  obtain ⟨name, scopes⟩ := f
  obtain ⟨s, rest, rfl⟩ := List.exists_cons_of_length_pos (Nat.lt_of_lt_of_le (Nat.succ_pos d) h)
  rfl

theorem length_set (f : Frame) (x : String) (v : Value) :
    (f.set x v).scopes.length = f.scopes.length := by
  have hcontext := congrArg List.length (context_set f x v)
  rwa [context, context, List.length_map, List.length_map] at hcontext

theorem length_declare? (hne : f.scopes ≠ []) (h : f.declare? x b = some f') :
    f'.scopes.length = f.scopes.length := by
  obtain ⟨name, scopes⟩ := f
  obtain ⟨s, rest, rfl⟩ := List.exists_cons_of_ne_nil hne
  simp only [declare?] at h
  split at h
  · cases h
  · cases h
    rfl

end Frame

/-! ### A machine with one more scope -/

namespace Machine

variable {m m' : Machine} {d e : Nat} {g g' : Frame → Frame}

theorem mapTop_congr (h : g m.top = g' m.top) : m.mapTop g = m.mapTop g' := by
  have hcalls : m.calls.mapTop g = m.calls.mapTop g' := CallStack.ext <| by
    rw [CallStack.frames_mapTop, CallStack.frames_mapTop]
    exact congrArg (· :: m.calls.frames.tail) h
  exact congrArg (withCalls · m) hcalls

theorem mapTop_mapTop (g g' : Frame → Frame) (m : Machine) :
    (m.mapTop g).mapTop g' = m.mapTop (g' ∘ g) := by
  obtain ⟨fns, ⟨_ | ⟨f, rest⟩, n, h⟩, console, options, echo⟩ := m <;> rfl

theorem mapTop_id (h : m.frames ≠ []) : m.mapTop id = m := by
  obtain ⟨fns, ⟨_ | ⟨f, rest⟩, n, hn⟩, console, options, echo⟩ := m
  · exact absurd rfl h
  · rfl

theorem popScope_pushScope (h : m.frames ≠ []) : m.pushScope.popScope = m := by
  rw [popScope, pushScope, mapTop_mapTop]
  exact mapTop_id h

/-- The machine `m'` is `m` with an empty scope more, below the `d` innermost ones. -/
structure Padded (d : Nat) (m m' : Machine) : Prop where
  frames_ne : m.frames ≠ []
  depth_le : d ≤ m.top.scopes.length
  eq : m' = m.mapTop (·.pad d)

namespace Padded

theorem pushScope_self (h : m.frames ≠ []) : Padded 0 m m.pushScope :=
  ⟨h, Nat.zero_le _, rfl⟩

theorem top (h : Padded d m m') : m'.top = m.top.pad d := by
  rw [h.eq, top_mapTop]

/-- Both machines may replace their newest frames, as long as one of the new frames is the other
with an empty scope more. -/
theorem mapTop (h : Padded d m m') (hg : g' (m.top.pad d) = (g m.top).pad e)
    (he : e ≤ (g m.top).scopes.length) : Padded e (m.mapTop g) (m'.mapTop g') where
  frames_ne := by
    rw [frames_mapTop]
    exact List.cons_ne_nil _ _
  depth_le := by rwa [top_mapTop]
  eq := by
    rw [h.eq, mapTop_mapTop, mapTop_mapTop]
    exact mapTop_congr hg

theorem pushScope (h : Padded d m m') : Padded (d + 1) m.pushScope m'.pushScope :=
  h.mapTop rfl (Nat.succ_le_succ h.depth_le)

theorem popScope (h : Padded (d + 1) m m') : Padded d m.popScope m'.popScope := by
  refine h.mapTop (Frame.popScope_pad h.depth_le) ?_
  rw [Frame.popScope, List.length_tail]
  exact Nat.le_sub_of_add_le h.depth_le

theorem set (x : String) (v : Value) (h : Padded d m m') :
    Padded d (m.mapTop (·.set x v)) (m'.mapTop (·.set x v)) :=
  h.mapTop (Frame.set_pad d m.top x v) (Frame.length_set m.top x v ▸ h.depth_le)

theorem length_frames (h : Padded d m m') : m'.frames.length = m.frames.length := by
  obtain ⟨f, rest, hframes⟩ := List.exists_cons_of_ne_nil h.frames_ne
  rw [h.eq, frames_mapTop, hframes, List.tail_cons, List.length_cons, List.length_cons]

theorem printLine (line : String) (h : Padded d m m') :
    Padded d (m.printLine line) (m'.printLine line) :=
  ⟨h.frames_ne, h.depth_le, by rw [h.eq]; rfl⟩

theorem congruence_agrees (d : Nat) :
    Action.Congruence fun _ x x' => x.AgreesWith (Padded d) x' :=
  Action.congruence_agrees (fun x h => by rw [h.top, Frame.lookup?_pad])
    (fun h => h.mapTop rfl h.depth_le) set

theorem callWithin_agrees (d fuel : Nat) (name : String) (vs : List Value) :
    (callWithin fuel name vs).AgreesWith (Padded d) (callWithin fuel name vs) :=
  Scriptlet.callWithin_agrees (fun name h => by rw [h.eq]; rfl) (fun h => by rw [h.eq]; rfl)
    length_frames printLine fuel name vs

theorem declare_agrees (d : Nat) (x : String) (t : Ty) (v : Value) :
    (Action.declare x t v).AgreesWith (Padded (d + 1)) (Action.declare x t v) := by
  intro m m' h
  have hne : m.top.scopes ≠ [] :=
    List.ne_nil_of_length_pos (Nat.lt_of_lt_of_le (Nat.succ_pos d) h.depth_le)
  rw [Action.declare, Action.declare]
  split
  · exact ⟨rfl, h⟩
  · split
    · exact ⟨rfl, h⟩
    · rename_i w _
      rw [h.top, Frame.declare?_pad hne]
      cases hf : m.top.declare? x ⟨t, w⟩ with
      | none => exact ⟨rfl, h⟩
      | some f => exact ⟨rfl, h.mapTop rfl (Frame.length_declare? hne hf ▸ h.depth_le)⟩

/-- Inside of a block that was opened later all that programs do agrees. -/
theorem blockCongruence_agrees :
    Action.BlockCongruence fun _ x x' => ∀ d, x.AgreesWith (Padded (d + 1)) x' where
  pure a d := (congruence_agrees (d + 1)).pure a
  raise cause d := (congruence_agrees (d + 1)).raise cause
  bind hx hk d := (hx d).bind fun a => hk a d
  lookup x d := (congruence_agrees (d + 1)).lookup x
  assign x v d := (congruence_agrees (d + 1)).assign x v
  declare x t v d := declare_agrees d x t v
  inBlock h d := .inBlock pushScope popScope (h (d + 1))

/-! ### Statements -/

variable (fuel bound : Nat)

theorem inBlock_agrees (ss : List Stmt) :
    (Action.inBlock (Stmt.execAll (callWithin fuel) bound ss)).AgreesWith (Padded 0)
      (Action.inBlock (Stmt.execAll (callWithin fuel) bound ss)) := by
  have hbody := blockCongruence_agrees.execAll
    (fun name vs d => callWithin_agrees (d + 1) fuel name vs) ss
    (.inr fun _ _ _ _ htest hbody d => iterate_agrees (htest d) (hbody d) bound)
  exact .inBlock pushScope popScope (hbody 0)

/-- A statement that is no declaration cannot tell that there is an empty scope more. -/
theorem exec_agrees {s : Stmt} (hs : s.declared = []) :
    (s.exec (callWithin fuel) bound).AgreesWith (Padded 0) (s.exec (callWithin fuel) bound) := by
  have hK := congruence_agrees 0
  have heval := hK.eval (callWithin_agrees 0 fuel)
  have htest (c : Expr) (place : TestPlace) : (c.test (callWithin fuel) place).AgreesWith (Padded 0)
      (c.test (callWithin fuel) place) :=
    (heval c).bind fun v => hK.ofExcept (v.toBool place)
  cases s with
  | init t x e => cases hs
  | declare t x => cases hs
  | assign x e =>
    refine (hK.lookup x).bind fun _ => (heval e).bind fun v => ?_
    exact (hK.assign x v).bind fun _ => hK.pure Flow.next
  | eval e => exact (heval e).bind fun _ => hK.pure Flow.next
  | branch c yes no =>
    refine (htest c .ifCondition).bind fun holds => ?_
    cases holds with
    | true => exact inBlock_agrees fuel bound yes
    | false => exact inBlock_agrees fuel bound no
  | loop c body =>
    exact iterate_agrees (htest c .whileCondition) (inBlock_agrees fuel bound body) bound
  | ret e => exact (heval e).bind fun v => hK.pure (Flow.returned v)

theorem execAll_agrees {ss : List Stmt} (hss : Stmt.declaredAll ss = []) :
    (Stmt.execAll (callWithin fuel) bound ss).AgreesWith (Padded 0)
      (Stmt.execAll (callWithin fuel) bound ss) := by
  induction ss with
  | nil => exact (congruence_agrees 0).pure Flow.next
  | cons s rest ih =>
    obtain ⟨hs, hrest⟩ := List.append_eq_nil_iff.1 hss
    refine (exec_agrees fuel bound hs).bind fun flow => ?_
    cases flow with
    | next => exact ih hrest
    | returned v => exact (congruence_agrees 0).pure (Flow.returned v)

end Padded

end Machine

/-- Statements that declare nothing do the same in a block of their own. -/
theorem inBlock_execAll {m : Machine} (hm : m.frames ≠ []) {ss : List Stmt}
    (hss : Stmt.declaredAll ss = []) (fuel bound : Nat) :
    Action.inBlock (Stmt.execAll (callWithin fuel) bound ss) m =
      Stmt.execAll (callWithin fuel) bound ss m := by
  have hagree := Machine.Padded.execAll_agrees fuel bound hss m m.pushScope (.pushScope_self hm)
  -- the scope that was opened is still there and is removed again
  have hpop {m₁ m₁' : Machine} (h : Machine.Padded 0 m₁ m₁') : m₁'.popScope = m₁ := by
    rw [h.eq]
    exact Machine.popScope_pushScope h.frames_ne
  rw [Action.inBlock]
  generalize Stmt.execAll (callWithin fuel) bound ss m = o at hagree ⊢
  generalize Stmt.execAll (callWithin fuel) bound ss m.pushScope = o' at hagree ⊢
  cases o <;> cases o' <;> try exact hagree.elim
  case done.done flow m₁ flow' m₁' =>
    obtain ⟨rfl, hm₁⟩ := hagree
    exact congrArg (Outcome.done flow') (hpop hm₁)
  case fault.fault cause m₁ cause' m₁' =>
    obtain ⟨rfl, hm₁⟩ := hagree
    exact congrArg (Outcome.fault cause') (hpop hm₁)
  case outOfFuel.outOfFuel => rfl

/-! ### Unrolled loops -/

/-- The outcomes are the same, except that a condition that is no boolean may be reported as that of
a loop by the first and as that of a choice by the second. -/
inductive Outcome.Reworded : Outcome α → Outcome α → Prop
  | same (o : Outcome α) : Reworded o o
  | notBool (t : Ty) (m : Machine) :
    Reworded (.fault (.typeMismatch (.notBool .whileCondition t)) m)
      (.fault (.typeMismatch (.notBool .ifCondition t)) m)

namespace Outcome.Reworded

variable {o o' : Outcome α}

theorem bind {x x' : Action α} {m : Machine} (h : (x m).Reworded (x' m)) (k : α → Action β) :
    ((x >>= k) m).Reworded ((x' >>= k) m) := by
  rw [Action.bind_apply, Action.bind_apply]
  generalize x m = o at h
  generalize x' m = o' at h
  cases h with
  | same => exact .same _
  | notBool t m => exact .notBool t m

theorem outOfFuel_iff (h : o.Reworded o') : o = .outOfFuel ↔ o' = .outOfFuel := by
  cases h with
  | same => exact Iff.rfl
  | notBool t m => exact ⟨nofun, nofun⟩

end Outcome.Reworded

theorem Expr.test_reworded (call : CallHandler) (c : Expr) (m : Machine) :
    (c.test call .whileCondition m).Reworded (c.test call .ifCondition m) := by
  rw [test, test, Action.bind_apply, Action.bind_apply]
  cases c.eval call m with
  | done v m₁ =>
    cases v with
    | bool b => exact .same _
    | _ => exact .notBool _ m₁
  | fault cause m₁ => exact .same _
  | outOfFuel => exact .same _

/-- Testing a condition does not end the call that is active. -/
theorem Expr.test_frames_ne {m : Machine} (hm : m.frames ≠ []) (fuel : Nat) (c : Expr)
    (place : TestPlace) : (c.test (callWithin fuel) place m).Leaves (·.frames ≠ []) := by
  have hmap (g : Frame → Frame) (m : Machine) : (m.mapTop g).frames ≠ [] := by
    rw [Machine.frames_mapTop]
    exact List.cons_ne_nil _ _
  have hassign (x : String) (v : Value) (m : Machine) :
      (Action.assign x v m).Leaves fun m' => m.frames ≠ [] → m'.frames ≠ [] := by
    rw [Action.assign]
    split
    · exact fun _ => hmap id m
    · split
      · exact fun _ => hmap id m
      · exact fun _ => hmap _ m
  have heval := c.eval_leaves (R := fun m m' => m.frames ≠ [] → m'.frames ≠ []) (fun _ h => h)
    (fun h h' hm => h' (h hm)) hassign (fun lines m hm => by
      rwa [Machine.frames, Machine.calls_printLines]) fuel m
  refine Action.leaves_bind (heval.mono fun _ h => h hm) fun v m₁ h₁ => ?_
  exact Action.meets_ofExcept (fun _ _ => h₁) fun _ _ => h₁

namespace Stmt

variable {bound : Nat} {m : Machine} {o o' : Outcome Flow} {c : Expr} {b : List Stmt}

/-- With enough fuel the statement ends with the given value or fault. -/
def EndsWith (s : Stmt) (m : Machine) (o : Outcome Flow) : Prop :=
  o ≠ .outOfFuel ∧ ∃ n, ∀ fuel bound, n ≤ fuel → n ≤ bound → s.exec (callWithin fuel) bound m = o

theorem endsWith_of_exec {s : Stmt} {fuel bound : Nat} (ho : o ≠ .outOfFuel)
    (h : s.exec (callWithin fuel) bound m = o) : s.EndsWith m o := by
  refine ⟨ho, max fuel bound, fun fuel' bound' hfuel hbound => ?_⟩
  have hle := exec_of_le (Nat.le_trans (Nat.le_max_left fuel bound) hfuel)
    (Nat.le_trans (Nat.le_max_right fuel bound) hbound) (h ▸ ho)
  exact hle.trans h

theorem EndsWith.eq {s : Stmt} (h : s.EndsWith m o) (h' : s.EndsWith m o') : o' = o := by
  obtain ⟨-, n, hn⟩ := h
  obtain ⟨-, n', hn'⟩ := h'
  rw [← hn (max n n') (max n n') (Nat.le_max_left _ _) (Nat.le_max_left _ _)]
  exact (hn' _ _ (Nat.le_max_right _ _) (Nat.le_max_right _ _)).symm

/-- The loop with one round in front of it: if the condition holds, the body follows in a block of
its own, and then the loop. -/
def unrolled (c : Expr) (b : List Stmt) : Stmt :=
  .branch c [.branch (.bool true) b [], .loop c b] []

theorem execAll_singleton (call : CallHandler) (bound : Nat) (s : Stmt) :
    execAll call bound [s] = s.exec call bound := by
  funext m
  rw [execAll, Action.bind_apply]
  cases s.exec call bound m with
  | done flow m₁ => cases flow <;> rfl
  | fault cause m₁ => rfl
  | outOfFuel => rfl

/-- One round of a loop, given how its condition is tested and what comes after its body. -/
def round (test : Action Bool) (body rest : Action Flow) : Action Flow := do
  if ← test then
    match ← body with
    | .next => rest
    | .returned v => return .returned v
  else return .next

theorem exec_unrolled (hm : m.frames ≠ []) (fuel bound : Nat) (c : Expr) (b : List Stmt) :
    (unrolled c b).exec (callWithin fuel) bound m =
      round (c.test (callWithin fuel) .ifCondition)
        (Action.inBlock (execAll (callWithin fuel) bound b))
        ((loop c b).exec (callWithin fuel) bound) m := by
  have htest := c.test_frames_ne hm fuel .ifCondition
  rw [unrolled, exec, round, Action.bind_apply, Action.bind_apply]
  cases hrun : c.test (callWithin fuel) .ifCondition m with
  | fault cause m₁ => rfl
  | outOfFuel => rfl
  | done holds m₁ =>
    rw [hrun] at htest
    cases holds with
    | false => exact @inBlock_execAll m₁ htest [] rfl fuel bound
    | true =>
      refine (@inBlock_execAll m₁ htest [.branch (.bool true) b [], .loop c b] rfl fuel
        bound).trans ?_
      rw [execAll, execAll_singleton]
      rfl

/-- A loop that is allowed fewer than `n` tests, and loops in its body fewer than `bound`. -/
def loopFor (fuel bound : Nat) (c : Expr) (b : List Stmt) (n : Nat) : Action Flow :=
  iterate (c.test (callWithin fuel) .whileCondition)
    (Action.inBlock (execAll (callWithin fuel) bound b)) n

/-- An answer stays the same if more tests are allowed. -/
theorem loopFor_of_le {fuel bound' n n' : Nat} (hbound : bound ≤ bound') (hn : n ≤ n')
    (h : loopFor fuel bound c b n m ≠ .outOfFuel) :
    loopFor fuel bound' c b n' m = loopFor fuel bound c b n m := by
  have hK := simulation_eq.actions ()
  have hcall := simulation_eq.callWithin (Nat.le_refl fuel) ()
  have htest := hK.test_of_calls c (fun name _ => hcall name) .whileCondition
  have hbody := hK.inBlock (simulation_eq.execAll (i := ()) hcall hbound b)
  exact Outcome.eq_of_matched (iterate_matched hK.toCongruence hn _ _ _ _ htest hbody m m rfl) h

/-- The loop, allowed one test more, does what the unrolled loop does. -/
theorem loopFor_reworded (hm : m.frames ≠ []) (fuel bound : Nat) (c : Expr) (b : List Stmt) :
    (loopFor fuel bound c b (bound + 1) m).Reworded
      ((unrolled c b).exec (callWithin fuel) bound m) := by
  rw [exec_unrolled hm]
  exact (c.test_reworded (callWithin fuel) m).bind _

theorem EndsWith.unrolled (hm : m.frames ≠ []) (h : (loop c b).EndsWith m o) :
    ∃ o', (Stmt.unrolled c b).EndsWith m o' ∧ o.Reworded o' := by
  obtain ⟨ho, n, hn⟩ := h
  have hreworded := loopFor_reworded hm n n c b
  have hloop : loopFor n n c b n m = o := hn n n (Nat.le_refl n) (Nat.le_refl n)
  rw [loopFor_of_le (Nat.le_refl n) (Nat.le_succ n) (hloop ▸ ho), hloop] at hreworded
  exact ⟨_, endsWith_of_exec (hreworded.outOfFuel_iff.not.1 ho) rfl, hreworded⟩

theorem EndsWith.of_unrolled (hm : m.frames ≠ []) (h : (Stmt.unrolled c b).EndsWith m o') :
    ∃ o, (loop c b).EndsWith m o ∧ o.Reworded o' := by
  obtain ⟨ho, n, hn⟩ := h
  have hreworded := loopFor_reworded hm n n c b
  rw [hn n n (Nat.le_refl n) (Nat.le_refl n)] at hreworded
  have hloop := hreworded.outOfFuel_iff.not.2 ho
  have hmore : (loop c b).exec (callWithin n) (n + 1) m = loopFor n n c b (n + 1) m :=
    loopFor_of_le (Nat.le_succ n) (Nat.le_refl (n + 1)) hloop
  exact ⟨_, endsWith_of_exec hloop hmore, hreworded⟩

end Stmt

/-- **Blocks without declarations are transparent, and loops unroll.** Let a call be active. Then
statements that declare nothing themselves do the same in a block of their own: they end in the same
way and leave the same machine. So a loop can be unrolled: it ends if the choice does that has the
body in front of the loop, and only then. Both end with the same value or fault and leave the same
machine, except that a condition that is no boolean may be reported in another way. -/
theorem block_transparent {m : Machine} (hm : m.frames ≠ []) :
    (∀ ss : List Stmt, Stmt.declaredAll ss = [] → ∀ fuel bound,
      Action.inBlock (Stmt.execAll (callWithin fuel) bound ss) m =
        Stmt.execAll (callWithin fuel) bound ss m) ∧
    ∀ (c : Expr) (b : List Stmt),
      ((∃ o, (Stmt.loop c b).EndsWith m o) ↔ ∃ o', (Stmt.unrolled c b).EndsWith m o') ∧
      ∀ o o', (Stmt.loop c b).EndsWith m o → (Stmt.unrolled c b).EndsWith m o' → o.Reworded o' := by
  refine ⟨fun _ hss => inBlock_execAll hm hss, fun c b =>
    ⟨⟨fun ⟨o, h⟩ => ?_, fun ⟨o', h'⟩ => ?_⟩, fun o o' h h' => ?_⟩⟩
  · obtain ⟨o', h', -⟩ := h.unrolled hm
    exact ⟨o', h'⟩
  · obtain ⟨o, h, -⟩ := Stmt.EndsWith.of_unrolled hm h'
    exact ⟨o, h⟩
  · obtain ⟨o₁, h₁, hreworded⟩ := h.unrolled hm
    exact h₁.eq h' ▸ hreworded

/-- A countdown whose body opens a block that declares a variable. -/
theorem block_transparent_countdown :
    ∃ (m m₁ : Machine) (c : Expr) (b : List Stmt) (o' : Outcome Flow),
      m = { Machine.new {} with calls := .ofList [⟨"main", [[("n", ⟨.int, .int 2⟩)]]⟩] } ∧
      c = .binary (.var "n") .gt (.int 0) ∧
      b = [.branch (.bool true) [.init .int "k" (.var "n"),
        .assign "n" (.binary (.var "k") .sub (.int 1))] []] ∧
      m.frames ≠ [] ∧ Stmt.declaredAll b = [] ∧
      Action.inBlock (Stmt.execAll (callWithin 1) 1 b) m = Stmt.execAll (callWithin 1) 1 b m ∧
      m₁.top.lookup? "n" = some ⟨.int, .int 0⟩ ∧ (Stmt.loop c b).EndsWith m (.done .next m₁) ∧
      (Stmt.unrolled c b).EndsWith m o' ∧ (Outcome.done .next m₁).Reworded o' := by
  let m : Machine :=
    { Machine.new {} with calls := .ofList [⟨"main", [[("n", ⟨.int, .int 2⟩)]]⟩] }
  let c : Expr := .binary (.var "n") .gt (.int 0)
  let b : List Stmt := [.branch (.bool true) [.init .int "k" (.var "n"),
    .assign "n" (.binary (.var "k") .sub (.int 1))] []]
  have hm : m.frames ≠ [] := List.cons_ne_nil _ _
  obtain ⟨m₁, hrun, hn⟩ : ∃ m₁, (Stmt.loop c b).exec (callWithin 1) 3 m = .done .next m₁ ∧
      m₁.top.lookup? "n" = some ⟨.int, .int 0⟩ := ⟨_, rfl, rfl⟩
  have hends : (Stmt.loop c b).EndsWith m (.done .next m₁) := Stmt.endsWith_of_exec nofun hrun
  obtain ⟨hblock, hloop⟩ := block_transparent hm
  obtain ⟨hiff, hsame⟩ := hloop c b
  obtain ⟨o', hends'⟩ := hiff.1 ⟨_, hends⟩
  exact ⟨m, m₁, c, b, o', rfl, rfl, rfl, hm, rfl, hblock b rfl 1 1, hn, hends, hends',
    hsame _ _ hends hends'⟩

end Scriptlet
