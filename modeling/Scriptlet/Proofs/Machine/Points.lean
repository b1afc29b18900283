import Mathlib.Logic.Function.Iterate
import Mathlib.Logic.Relation
import Scriptlet.Proofs.Machine.Declarations

/-!
# Scriptlet.Proofs.Machine.Points

**The course of a call.** Executing the body of a function says how it ends, and nothing of what
happens on the way. Here the way is cut into points: what is left to do in each open block, and the
machine. A step executes one statement that has no blocks, opens a block, closes one, or leaves them
all with a `return`.

A body that is done has gone through points that lead to its end (`Leads.of_execAll`). There is one
step at most from each point, so all points of its course lie on that one way (`Leads.to_end`).
-/

namespace Scriptlet

/-- A point in the execution of a body. -/
structure Point where
  /-- The statements that are left in each open block, the innermost first. -/
  todo : List (List Stmt)
  machine : Machine

namespace Point

/-- The point where a body has ended. -/
def ended (m : Machine) : Point :=
  ⟨[[]], m⟩

/-- One step of a body, from a point to the next. -/
inductive Moves (call : CallHandler) (bound : Nat) : Point → Point → Prop
  /-- A statement without blocks. -/
  | plain {s : Stmt} {ss : List Stmt} {rest : List (List Stmt)} {m m' : Machine}
    (hs : s.hasBlock = false) (h : s.exec call bound m = .done .next m') :
    Moves call bound ⟨(s :: ss) :: rest, m⟩ ⟨ss :: rest, m'⟩
  /-- A choice opens the block of one of its branches. -/
  | branch {c : Expr} {yes no ss : List Stmt} {rest : List (List Stmt)} {holds : Bool}
    {m m' : Machine} (h : c.test call .ifCondition m = .done holds m') :
    Moves call bound ⟨(.branch c yes no :: ss) :: rest, m⟩
      ⟨(if holds then yes else no) :: ss :: rest, m'.pushScope⟩
  /-- A loop opens a block for one more round, and is still there after it. -/
  | again {c : Expr} {body ss : List Stmt} {rest : List (List Stmt)} {m m' : Machine}
    (h : c.test call .whileCondition m = .done true m') :
    Moves call bound ⟨(.loop c body :: ss) :: rest, m⟩
      ⟨body :: (.loop c body :: ss) :: rest, m'.pushScope⟩
  | finish {c : Expr} {body ss : List Stmt} {rest : List (List Stmt)} {m m' : Machine}
    (h : c.test call .whileCondition m = .done false m') :
    Moves call bound ⟨(.loop c body :: ss) :: rest, m⟩ ⟨ss :: rest, m'⟩
  /-- A block that has nothing left to do is closed. -/
  | close {ss : List Stmt} {rest : List (List Stmt)} {m : Machine} :
    Moves call bound ⟨[] :: ss :: rest, m⟩ ⟨ss :: rest, m.popScope⟩
  /-- A `return` closes all blocks of the body. -/
  | ret {e : Expr} {ss : List Stmt} {rest : List (List Stmt)} {v : Value} {m m' : Machine}
    (h : e.eval call m = .done v m') :
    Moves call bound ⟨(.ret e :: ss) :: rest, m⟩ (ended (Machine.popScope^[rest.length] m'))

/-- Steps lead from a point to another. -/
def Leads (call : CallHandler) (bound : Nat) : Point → Point → Prop :=
  Relation.ReflTransGen (Moves call bound)

variable {call : CallHandler} {bound n : Nat} {P Q Q' : Point} {m m' : Machine} {flow : Flow}

/-! ### One way only -/

theorem Moves.unique (h : Moves call bound P Q) (h' : Moves call bound P Q') : Q' = Q := by
  cases h with
  | plain hs h =>
    cases h' with
    | plain _ h' =>
      cases h.symm.trans h'
      rfl
    | branch => cases hs
    | again => cases hs
    | finish => cases hs
    | ret => cases Stmt.performs_of_exec hs h
  | branch h =>
    cases h' with
    | plain hs => cases hs
    | branch h' =>
      cases h.symm.trans h'
      rfl
  | again h =>
    cases h' with
    | plain hs => cases hs
    | again h' =>
      cases h.symm.trans h'
      rfl
    | finish h' => cases h.symm.trans h'
  | finish h =>
    cases h' with
    | plain hs => cases hs
    | again h' => cases h.symm.trans h'
    | finish h' =>
      cases h.symm.trans h'
      rfl
  | close =>
    cases h'
    rfl
  | ret h =>
    cases h' with
    | plain hs h' => cases Stmt.performs_of_exec hs h'
    | ret h' =>
      cases h.symm.trans h'
      rfl

/-- **There is one way.** Every point on the way to the end of a body leads there. -/
theorem Leads.to_end (h : Leads call bound P Q) (hend : Leads call bound P (ended m)) :
    Leads call bound Q (ended m) := by
  have hunique : Relator.RightUnique (Moves call bound) := fun _ _ _ h h' => h'.unique h
  rcases Relation.ReflTransGen.total_of_right_unique hunique h hend with hQ | hend
  · exact hQ
  · rcases Relation.ReflTransGen.cases_head hend with heq | ⟨_, hstep, _⟩
    · rw [heq]
      exact .refl
    · cases hstep

/-! ### From the start of a body to its end -/

/-- The point after statements that were in front of `ss`. -/
def after (flow : Flow) (ss : List Stmt) (rest : List (List Stmt)) (m : Machine) : Point :=
  match flow with
  | .next => ⟨ss :: rest, m⟩
  | .returned _ => ended (Machine.popScope^[rest.length] m)

theorem Leads.of_plain {s : Stmt} {ss : List Stmt} {rest : List (List Stmt)}
    (hs : s.hasBlock = false) (h : s.exec call bound m = .done flow m') :
    Leads call bound ⟨(s :: ss) :: rest, m⟩ (after flow ss rest m') := by
  cases Stmt.performs_of_exec hs h with
  | ret heval => exact .single (.ret heval)
  | _ => exact .single (.plain hs h)

/-- A block leads out of itself if its statements lead to its end. -/
theorem Leads.of_inBlock {block ss : List Stmt} {rest : List (List Stmt)}
    (hblock : ∀ {rest m flow m'}, Stmt.execAll call bound block m = .done flow m' →
      Leads call bound ⟨block :: rest, m⟩ (after flow [] rest m'))
    (h : Action.inBlock (Stmt.execAll call bound block) m = .done flow m') :
    Leads call bound ⟨block :: ss :: rest, m.pushScope⟩ (after flow ss rest m') := by
  rw [Action.inBlock] at h
  cases hrun : Stmt.execAll call bound block m.pushScope with
  | done flow₁ m₁ =>
    rw [hrun] at h
    cases h
    have hinner : Leads call bound ⟨block :: ss :: rest, _⟩ _ := hblock hrun
    -- the block is closed by a step of its own, or together with all others by a `return`
    cases flow with
    | next => exact hinner.tail .close
    | returned v => exact hinner
  | fault cause m₁ =>
    rw [hrun] at h
    cases h
  | outOfFuel =>
    rw [hrun] at h
    cases h

/-- A loop leads behind itself. The induction is on the rounds that are left. -/
theorem Leads.of_iterate {c : Expr} {body ss : List Stmt} {rest : List (List Stmt)}
    (hbody : ∀ {rest m flow m'}, Stmt.execAll call bound body m = .done flow m' →
      Leads call bound ⟨body :: rest, m⟩ (after flow [] rest m'))
    (h : iterate (c.test call .whileCondition) (Action.inBlock (Stmt.execAll call bound body)) n m =
      .done flow m') :
    Leads call bound ⟨(.loop c body :: ss) :: rest, m⟩ (after flow ss rest m') := by
  induction n generalizing m with
  | zero => cases h
  | succ n ih =>
    rw [iterate] at h
    obtain ⟨holds, m₁, htest, hround⟩ := Action.bind_eq_done_iff.1 h
    cases holds with
    | false =>
      cases hround
      exact .single (.finish htest)
    | true =>
      obtain ⟨flow₁, m₂, hblock, hrest⟩ := Action.bind_eq_done_iff.1 hround
      have hopened : Leads call bound ⟨(.loop c body :: ss) :: rest, m⟩
          (after flow₁ (.loop c body :: ss) rest m₂) :=
        .head (.again htest) (Leads.of_inBlock hbody hblock)
      cases flow₁ with
      | next => exact hopened.trans (ih hrest)
      | returned v =>
        cases hrest
        exact hopened

mutual

theorem Leads.of_exec {ss : List Stmt} {rest : List (List Stmt)} : ∀ {s : Stmt} {m flow m'},
    s.exec call bound m = .done flow m' →
      Leads call bound ⟨(s :: ss) :: rest, m⟩ (after flow ss rest m')
  | .init t x e, m, flow, m', h => Leads.of_plain rfl h
  | .declare t x, m, flow, m', h => Leads.of_plain rfl h
  | .assign x e, m, flow, m', h => Leads.of_plain rfl h
  | .eval e, m, flow, m', h => Leads.of_plain rfl h
  | .ret e, m, flow, m', h => Leads.of_plain rfl h
  | .branch c yes no, m, flow, m', h => by
    rw [Stmt.exec] at h
    obtain ⟨holds, m₁, htest, hblock⟩ := Action.bind_eq_done_iff.1 h
    refine .head (.branch htest) ?_
    cases holds with
    | true => exact Leads.of_inBlock Leads.of_execAll hblock
    | false => exact Leads.of_inBlock Leads.of_execAll hblock
  | .loop c body, m, flow, m', h => by
    rw [Stmt.exec] at h
    exact Leads.of_iterate Leads.of_execAll h

/-- **Statements that are done lead to their end**: to the end of their block, or out of all blocks
if they return. -/
theorem Leads.of_execAll : ∀ {ss : List Stmt} {rest : List (List Stmt)} {m flow m'},
    Stmt.execAll call bound ss m = .done flow m' →
      Leads call bound ⟨ss :: rest, m⟩ (after flow [] rest m')
  | [], rest, m, flow, m', h => by
    cases h
    exact .refl
  | s :: ss, rest, m, flow, m', h => by
    rw [Stmt.execAll] at h
    obtain ⟨flow₁, m₁, hs, hss⟩ := Action.bind_eq_done_iff.1 h
    have hfirst : Leads call bound ⟨(s :: ss) :: rest, m⟩ _ := Leads.of_exec hs
    cases flow₁ with
    | next => exact hfirst.trans (Leads.of_execAll hss)
    | returned v =>
      cases hss
      exact hfirst

end

/-- A body that is done leads to the machine that it leaves. -/
theorem Leads.of_body {body : List Stmt} (h : Stmt.execAll call bound body m = .done flow m') :
    Leads call bound ⟨[body], m⟩ (ended m') := by
  have hend : after flow [] [] m' = ended m' := by cases flow <;> rfl
  exact hend ▸ Leads.of_execAll h

end Point

/-! ### Open blocks -/

namespace Machine

variable {m m' : Machine} {names : List String}

theorem Declares.length_scopes (h : m.Declares names m') :
    m'.top.scopes.length = m.top.scopes.length := by
  obtain ⟨added, γ, Γ, hγ, hγ', -⟩ := h.context
  have hlength := congrArg List.length hγ
  have hlength' := congrArg List.length hγ'
  rw [Frame.context, List.length_map, List.length_cons] at hlength hlength'
  exact hlength'.trans hlength.symm

theorem length_pushScope (m : Machine) :
    m.pushScope.top.scopes.length = m.top.scopes.length + 1 := by
  rw [pushScope, top_mapTop]
  rfl

/-- Blocks are closed from the inside. -/
theorem scopes_popScope_iterate (k : Nat) (m : Machine) :
    (popScope^[k] m).top.scopes = m.top.scopes.drop k := by
  induction k generalizing m with
  | zero => rfl
  | succ k ih =>
    rw [Function.iterate_succ_apply, ih, popScope, top_mapTop]
    exact List.drop_tail

/-- A call is active, with the given number of open blocks. -/
structure HasBlocks (k : Nat) (m : Machine) : Prop where
  frames_ne : m.frames ≠ []
  length_scopes : m.top.scopes.length = k

namespace HasBlocks

variable {k : Nat}

theorem inScope (h : m.HasBlocks (k + 1)) : m.InScope :=
  ⟨h.frames_ne, List.ne_nil_of_length_eq_add_one h.length_scopes⟩

theorem declares (h : m.HasBlocks k) (h' : m.Declares names m') : m'.HasBlocks k :=
  ⟨h'.frames_ne, h'.length_scopes.trans h.length_scopes⟩

theorem pushScope (h : m.HasBlocks k) : m.pushScope.HasBlocks (k + 1) where
  frames_ne := (inScope_pushScope m).frames_ne
  length_scopes := (m.length_pushScope).trans (congrArg (· + 1) h.length_scopes)

theorem popScope_iterate {j : Nat} (h : m.HasBlocks (k + j)) : (popScope^[j] m).HasBlocks k where
  frames_ne := by
    cases j with
    | zero => exact h.frames_ne
    | succ j =>
      rw [Function.iterate_succ_apply', popScope, frames_mapTop]
      exact List.cons_ne_nil _ _
  length_scopes := by
    rw [scopes_popScope_iterate, List.length_drop, h.length_scopes, Nat.add_sub_cancel]

end HasBlocks

end Machine

namespace Point

variable {n bound : Nat} {P Q : Point}

/-- At a point there is a scope for each block that has statements left. -/
def Fits (P : Point) : Prop :=
  P.machine.HasBlocks P.todo.length

theorem Moves.fits (h : Moves (callWithin n) bound P Q) (hP : P.Fits) : Q.Fits := by
  cases h with
  | @plain s ss rest m m' hs h =>
    have hexec := Machine.effect_declares.exec (Machine.effect_declares.callWithin n) bound s m
    rw [h] at hexec
    exact hP.declares (hexec hP.inScope)
  | branch h => exact (hP.declares (Expr.test_declares h hP.inScope)).pushScope
  | again h => exact (hP.declares (Expr.test_declares h hP.inScope)).pushScope
  | finish h => exact hP.declares (Expr.test_declares h hP.inScope)
  | close => exact Machine.HasBlocks.popScope_iterate hP
  | @ret e ss rest v m m' h =>
    have heval := hP.declares (Expr.eval_declares h hP.inScope)
    rw [List.length_cons, Nat.add_comm] at heval
    exact heval.popScope_iterate

theorem Leads.fits (h : Leads (callWithin n) bound P Q) (hP : P.Fits) : Q.Fits := by
  induction h with
  | refl => exact hP
  | tail _ hmove ih => exact hmove.fits ih

end Point

end Scriptlet
