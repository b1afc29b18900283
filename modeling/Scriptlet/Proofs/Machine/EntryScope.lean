import Scriptlet.Proofs.Machine.OuterVariables
import Scriptlet.Proofs.Machine.Reachable
import Scriptlet.Proofs.Machine.Soundness

/-!
# Scriptlet.Proofs.Machine.EntryScope

**The variables that a run reports** are those that the entry function declared itself, in its
outermost block, up to the statement that returned (`Stmt.EndsAt`). They have the values that the
last updates gave them, in whatever block these were made.
-/

namespace Scriptlet

/-! ### Reported variables -/

namespace Scope

variable {s : Scope}

/-- What is reported of a scope: names and values, sorted by name. -/
def report (s : Scope) : List (String × Value) :=
  s.sorted.map fun d => (d.1, d.2.value)

theorem report_perm (s : Scope) : s.report.Perm (s.map fun d => (d.1, d.2.value)) :=
  (List.mergeSort_perm s _).map _

theorem mem_report {x : String} {b : Binding} (h : s.find? x = some b) :
    (x, b.value) ∈ s.report := by
  obtain ⟨before, after, -, rfl, -⟩ := exists_of_find? b.value h
  refine (report_perm _).mem_iff.2 (List.mem_map.2 ⟨(x, b), ?_, rfl⟩)
  exact List.mem_append_right _ List.mem_cons_self

/-- In a sound scope the values have the declared types. -/
theorem Sound.report_types (hs : s.Sound) :
    (s.report.map fun d => (d.1, d.2.type)).Perm s.types := by
  refine ((report_perm s).map _).trans (List.Perm.of_eq ?_)
  rw [List.map_map, types]
  refine List.map_congr_left fun d hd => ?_
  exact congrArg (Prod.mk d.1) (hs d hd).type_eq

end Scope

/-! ### From a finished run to the body of its entry function -/

/-- Without arguments a function is entered in an empty frame. -/
theorem Function.enter_nil {f : Function} {frame : Frame} (h : f.enter [] = .ok frame) :
    frame = .fresh f.name := by
  obtain ⟨-, scope, hbind, rfl⟩ := enter_eq_ok h
  have hnil : bindParams f.params [] = .ok [] := by cases f.params <;> rfl
  cases hnil.symm.trans hbind
  rfl

theorem Action.function_eq_done {name : String} {f : Function} {m m' : Machine}
    (h : Action.function name m = .done f m') : m' = m ∧ m.function? name = some f := by
  rw [Action.function] at h
  cases hf : m.function? name with
  | none =>
    rw [hf] at h
    cases h
  | some g =>
    rw [hf] at h
    cases h
    exact ⟨rfl, rfl⟩

theorem Frame.Sound.outermost {f : Frame} (h : f.Sound) : f.outermost.Sound := by
  rw [Frame.outermost]
  cases hlast : f.scopes.getLast? with
  | none => exact List.forall_mem_nil _
  | some s => exact h s (List.mem_of_getLast? hlast)

namespace Program

variable {p : Program} {options : Options} {fuel : Nat} {e : Evaluation}

theorem registers_of_run (h : p.run fuel options = .finished e) : p.Registers options := by
  rw [run] at h
  cases hrun : runProgram fuel p (.new options) with
  | done e' m =>
    obtain ⟨_, m₁, hregister, -⟩ := Action.bind_eq_done_iff.1 hrun
    exact ⟨m₁, hregister⟩
  | fault cause m =>
    rw [hrun] at h
    cases h
  | outOfFuel =>
    rw [hrun] at h
    cases h

/-- The machine on which the body of an entry function starts. -/
def entryMachine (p : Program) (options : Options) (f : Function) : Machine :=
  ((Machine.new options).withFunctions p).pushFrame (.fresh f.name)

/-- **How a run finished**: the body of the entry function was executed in an empty frame, and what
is reported are the result and the outermost variables of that frame. -/
theorem run_eq_finished (h : p.run fuel options = .finished e) :
    ∃ f n flow last, p.function? options.entry = some f ∧ fuel = n + 1 ∧
      Stmt.execAll (callWithin n) n f.body (p.entryMachine options f) = .done flow last ∧
      f.resultOf flow = .ok e.value ∧ last.top.Sound ∧
      e.entryScope = last.top.outermost.report := by
  rw [(registers_of_run h).run_eq] at h
  cases hentry : callEntry fuel options.entry ((Machine.new options).withFunctions p) with
  | done r m =>
    rw [hentry] at h
    cases h
    obtain ⟨f, m₁, hfunction, hinvoke⟩ := Action.bind_eq_done_iff.1 hentry
    obtain ⟨rfl, hf⟩ := Action.function_eq_done hfunction
    obtain ⟨n, frame, flow, last, rfl, henter, hbody, hresult, hlast⟩ := invoke_eq_done hinvoke
    have hsound := invoke_frame_sound hinvoke
    rw [Function.enter_nil henter] at hbody
    rw [hlast] at hsound
    exact ⟨f, n, flow, last, hf, rfl, hbody, hresult, hsound, by rw [← hlast]; rfl⟩
  | fault cause m =>
    rw [hentry] at h
    cases h
  | outOfFuel =>
    rw [hentry] at h
    cases h

end Program

/-- The outermost block of a body that is done has what the body itself declared. -/
theorem Stmt.EndsAt.types_outermost {n bound k : Nat} {body : List Stmt} {start last : Machine}
    {flow : Flow} (h : EndsAt (callWithin n) bound body start k flow last) (hstart : start.InScope)
    (hempty : start.top.context = [[]]) :
    last.top.outermost.types = (declarationsAll (body.take k)).reverse ∧
      (last.top.outermost.types.map Prod.fst).Nodup := by
  obtain ⟨hcontext, hnodup⟩ := h.context hstart hempty List.nodup_nil
  rw [List.append_nil] at hcontext hnodup
  obtain ⟨s, rest, hscopes, hs, hrest⟩ := List.map_eq_cons_iff.1 hcontext
  have houtermost : last.top.outermost = s := by
    rw [Frame.outermost, hscopes, List.map_eq_nil_iff.1 hrest]
    rfl
  rw [houtermost, hs]
  exact ⟨rfl, hnodup⟩

/-- **The reported variables are the entry function's own declarations.** When a run has finished,
the body of its entry function has ended at a statement that returned, or at its end. The reported
names are those that the statements before that one declare in the body's own block, each once, and
the values have the declared types, which are not `void`. So nothing is reported that only a nested
block or another function has declared.

All points of the body's course, in nested blocks too, lead to its end. At each, a name that no
inner block binds means the variable of the outermost block. Let a variable of that block have the
binding `b` there. At the next point it has what the next statement makes of `b`: the value that
the statement assigns to it, or `b` after all the steps of it in the expressions that the statement
evaluates. What is reported is what these updates make of `b`, one after the other up to the end.
If there are none, it is the value of `b`. -/
theorem entry_scope_exact {p : Program} {options : Options} {fuel : Nat} {e : Evaluation}
    (h : p.run fuel options = .finished e) :
    ∃ (f : Function) (n k : Nat) (flow : Flow) (last : Machine),
      p.function? options.entry = some f ∧ fuel = n + 1 ∧
      Stmt.EndsAt (callWithin n) n f.body (p.entryMachine options f) k flow last ∧
      f.resultOf flow = .ok e.value ∧
      (e.entryScope.map fun d => (d.1, d.2.type)).Perm (Stmt.declarationsAll (f.body.take k)) ∧
      (e.entryScope.map Prod.fst).Nodup ∧
      (∀ d ∈ e.entryScope, d.2.type ≠ .void) ∧
      ∀ P, Point.Leads (callWithin n) n ⟨[f.body], p.entryMachine options f⟩ P →
        Point.Leads (callWithin n) n P (.ended last) ∧
        (∀ x, ¬ P.machine.top.HidesOuter x → P.machine.binding? x = P.outer.find? x) ∧
        ∀ x b, P.outer.find? x = some b →
          (∀ Q, Point.Moves (callWithin n) n P Q →
            ∃ c, P.Updates (callWithin n) x b c ∧ Q.outer.find? x = some c) ∧
          (∃ c, Point.Carries (callWithin n) n x P b (.ended last) c ∧
            (x, c.value) ∈ e.entryScope) ∧
          ((∀ Q, Point.Leads (callWithin n) n P Q → ¬ Q.MayUpdate x) →
            (x, b.value) ∈ e.entryScope) := by
  obtain ⟨f, n, flow, last, hf, hfuel, hbody, hresult, hsound, hscope⟩ :=
    Program.run_eq_finished h
  obtain ⟨k, hends⟩ := Stmt.EndsAt.exists_of_execAll hbody
  have hstart : (p.entryMachine options f).InScope := ⟨List.cons_ne_nil _ _, List.cons_ne_nil _ _⟩
  have hfits : Point.Fits ⟨[f.body], p.entryMachine options f⟩ :=
    ⟨hstart.frames_ne, rfl⟩
  obtain ⟨htypes, hnodup⟩ := hends.types_outermost hstart rfl
  have hreport := hsound.outermost.report_types
  refine ⟨f, n, k, flow, last, hf, hfuel, hends, hresult, ?types, ?nodup, ?void, fun P hP => ?_⟩
  case types =>
    rw [hscope]
    exact (hreport.trans (.of_eq htypes)).trans (List.reverse_perm _)
  case nodup =>
    have hnames := hreport.map Prod.fst
    rw [List.map_map] at hnames
    rw [hscope]
    exact hnames.nodup_iff.2 hnodup
  case void =>
    intro d hd
    rw [hscope, (Scope.report_perm _).mem_iff] at hd
    obtain ⟨d', hd', rfl⟩ := List.mem_map.1 hd
    have hd' := hsound.outermost d' hd'
    exact hd'.type_eq ▸ hd'.not_void
  have hend := hP.to_end (.of_body hbody)
  refine ⟨hend, fun x hx => ?visible, fun x b hb =>
    ⟨fun Q hmove => hmove.updates_outer (hP.fits hfits) hb, ?_⟩⟩
  case visible => rw [Machine.binding?_eq, Frame.lookup?_of_not_hidesOuter hx, Point.outer]
  obtain ⟨c, hcarries, hc⟩ := hend.updates_outer (hP.fits hfits) hb
  have hreported : (x, c.value) ∈ e.entryScope := by
    rw [hscope]
    exact Scope.mem_report hc
  exact ⟨⟨c, hcarries, hreported⟩, fun hx => hcarries.eq_of_not_mayUpdate hx ▸ hreported⟩

/-- The variables of a function that returns from a loop. The loop hides one variable and steps the
other three times: in its condition, beside a call of a function that has a variable of its own, and
in the `return`. The last step is looked at from the point in front of the `return`. -/
theorem entry_scope_exact_nested :
    ∃ (p : Program) (e : Evaluation),
      p = [⟨.int, "seven", [], [.init .int "w" (.int 7), .ret (.var "w")]⟩,
        ⟨.int, "main", [], [.declare .int "x", .init .int "y" (.int 1),
          .loop (.binary (.step .increment .after (.var "x")) .lt (.int 1))
            [.init .int "y" (.binary (.call "seven" []) .add (.step .increment .after (.var "x"))),
              .ret (.binary (.var "y") .add (.step .increment .after (.var "x")))],
          .init .int "late" (.int 2)]⟩] ∧
      p.run 4 {} = .finished e ∧ e.value = .int 10 ∧
      (e.entryScope.map fun d => (d.1, d.2.type)).Perm [("x", .int), ("y", .int)] ∧
      ("x", .int 3) ∈ e.entryScope ∧ ("y", .int 1) ∈ e.entryScope := by
  let result : Expr := .binary (.var "y") .add (.step .increment .after (.var "x"))
  let loop : Stmt := .loop (.binary (.step .increment .after (.var "x")) .lt (.int 1))
    [.init .int "y" (.binary (.call "seven" []) .add (.step .increment .after (.var "x"))),
      .ret result]
  let late : Stmt := .init .int "late" (.int 2)
  let main : Function :=
    ⟨.int, "main", [], [.declare .int "x", .init .int "y" (.int 1), loop, late]⟩
  let p : Program := [⟨.int, "seven", [], [.init .int "w" (.int 7), .ret (.var "w")]⟩, main]
  obtain ⟨e, hrun⟩ : ∃ e, p.run 4 {} = .finished e := ⟨_, rfl⟩
  obtain ⟨f, n, k, flow, last, hf, hn, hends, hresult, htypes, -, -, hcourse⟩ :=
    entry_scope_exact hrun
  cases hf
  cases hn
  -- the first two statements go on, the third one returns
  obtain _ | h₁ | ⟨h₁, hends⟩ := hends
  · cases h₁
  cases h₁
  obtain _ | h₂ | ⟨h₂, hends⟩ := hends
  · cases h₂
  cases h₂
  obtain _ | h₃ | ⟨h₃, -⟩ := hends
  case next => cases h₃
  cases h₃
  have hvalue : Value.int 10 = e.value := Except.ok.inj hresult
  -- the point in front of the `return`, and the move to the end
  let before (m : Machine) : Point := ⟨[[.ret result], [loop, late]], m⟩
  obtain ⟨m, m', hP, hmove, hx, hy, hvisible, hhidden⟩ : ∃ m m',
      Point.Leads (callWithin 3) 3 ⟨[main.body], p.entryMachine {} main⟩ (before m) ∧
      Point.Moves (callWithin 3) 3 (before m) (.ended m') ∧
      (before m).outer.find? "x" = some ⟨.int, .int 2⟩ ∧
      (before m).outer.find? "y" = some ⟨.int, .int 1⟩ ∧
      ¬ m.top.HidesOuter "x" ∧ m.top.HidesOuter "y" :=
    ⟨_, _, .tail (.tail (.tail (.single (.plain rfl rfl)) (.plain rfl rfl)) (.again rfl))
      (.plain rfl rfl), .ret rfl, rfl, rfl, by decide, by decide⟩
  obtain ⟨-, -, hbefore⟩ := hcourse _ hP
  obtain ⟨-, -, hend⟩ := hcourse _ (.tail hP hmove)
  have hreported {x : String} {b : Binding} (hb : (Point.ended m').outer.find? x = some b) :
      (x, b.value) ∈ e.entryScope :=
    (hend x b hb).2.2 fun Q hQ => hQ.not_mayUpdate_of_ended
  obtain ⟨c, hupdate, hc⟩ := (hbefore "x" _ hx).1 _ hmove
  obtain ⟨d, hupdate', hd⟩ := (hbefore "y" _ hy).1 _ hmove
  have hthree : c = ⟨.int, .int 3⟩ := by
    cases hupdate with
    | hidden h => exact absurd h hvisible
    | next _ h =>
      cases h with
      | steps _ hsteps =>
        cases hsteps
        rfl
  have hone : d = ⟨.int, .int 1⟩ := by
    cases hupdate' with
    | hidden => rfl
    | next h => exact absurd hhidden h
  subst hthree hone
  exact ⟨p, e, rfl, hrun, hvalue.symm, htypes, hreported hc, hreported hd⟩

end Scriptlet
