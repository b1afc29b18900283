import Scriptlet.Grammar.Rule

/-!
# Scriptlet.Proofs.Grammar.Rule

**When a rule succeeds.** For each way to build a rule, an equivalence that says when it succeeds
and what it then leaves over. Read from left to right they take a successful reading apart, and from
right to left they put one together; the rules of the grammar are never opened any other way.
-/

namespace Scriptlet.Rule

variable {α β : Type}

/-! ### Sequencing -/

/-- A sequence of two rules succeeds exactly if both do, the second on what the first has left. -/
theorem bind_eq_ok_iff {x : Rule α} {f : α → Rule β} {ts rest : List Token} {b : β} :
    (x >>= f) ts = .ok b rest ↔ ∃ a us, x ts = .ok a us ∧ f a us = .ok b rest := by
  change EStateM.bind x f ts = .ok b rest ↔ _
  unfold EStateM.bind
  cases x ts with
  | ok a us =>
    constructor
    · exact fun h => ⟨a, us, rfl, h⟩
    · intro h
      obtain ⟨_, _, ⟨⟩, h⟩ := h
      exact h
  | error e us => simp

theorem pure_eq_ok_iff {a b : α} {ts rest : List Token} :
    (pure a : Rule α) ts = .ok b rest ↔ a = b ∧ ts = rest := by
  change EStateM.Result.ok a ts = .ok b rest ↔ _
  simp

theorem map_eq_ok_iff {g : α → β} {x : Rule α} {ts rest : List Token} {b : β} :
    (g <$> x) ts = .ok b rest ↔ ∃ a, x ts = .ok a rest ∧ g a = b := by
  change EStateM.map g x ts = .ok b rest ↔ _
  unfold EStateM.map
  cases x ts with
  | ok a us =>
    constructor
    · rintro ⟨⟩
      exact ⟨a, rfl, rfl⟩
    · intro h
      obtain ⟨_, ⟨⟩, rfl⟩ := h
      rfl
  | error e us => simp

theorem bind_of_ok {x : Rule α} {ts us : List Token} {a : α} (h : x ts = .ok a us)
    (f : α → Rule β) : (x >>= f) ts = f a us := by
  change EStateM.bind x f ts = f a us
  rw [EStateM.bind, h]

/-- Looking ahead always succeeds and takes nothing. -/
theorem peek_bind (f : Kind → Rule β) (ts : List Token) : (peek >>= f) ts = f (kindAt ts 0) ts :=
  rfl

theorem advance_bind (f : Unit → Rule β) (ts : List Token) :
    (advance >>= f) ts = f () ts.tail := rfl

/-! ### Single tokens -/

@[simp]
theorem kindAt_cons (t : Token) (ts : List Token) : kindAt (t :: ts) 0 = t.kind := rfl

@[simp]
theorem kindAt_cons_succ (t : Token) (ts : List Token) (n : Nat) :
    kindAt (t :: ts) (n + 1) = kindAt ts n := rfl

/-- A kind that is seen, other than that of the end, belongs to a token. -/
theorem exists_of_kindAt {ts : List Token} {k : Kind} (h : kindAt ts 0 = k)
    (hk : k ≠ .endOfInput) : ∃ t us, ts = t :: us ∧ t.kind = k := by
  cases ts with
  | nil => exact absurd h.symm hk
  | cons t us => exact ⟨t, us, rfl, h⟩

theorem fail_ne_ok {expected : Expected} {ts rest : List Token} {a : α} :
    (fail expected : Rule α) ts ≠ .ok a rest := by
  cases ts <;> simp [fail]

theorem exhausted_ne_ok {ts rest : List Token} {a : α} : (exhausted : Rule α) ts ≠ .ok a rest :=
  fail_ne_ok

theorem expectAs_eq_ok_iff {expected : Expected} {k : Kind} {ts rest : List Token} {t : Token} :
    expectAs expected k ts = .ok t rest ↔ ts = t :: rest ∧ t.kind = k := by
  cases ts with
  | nil => simp [expectAs]
  | cons u us =>
    rw [expectAs]
    by_cases h : u.kind = k
    · simp only [if_pos h, EStateM.Result.ok.injEq, List.cons.injEq]
      constructor
      · intro h
        obtain ⟨rfl, rfl⟩ := h
        exact ⟨⟨rfl, rfl⟩, h⟩
      · exact fun h => h.1
    · simp only [if_neg h]
      constructor
      · exact fun h => nomatch h
      · intro h
        obtain ⟨⟨rfl, rfl⟩, hk⟩ := h
        exact absurd hk h

theorem expect_cons {k : Kind} {t : Token} (ht : t.kind = k) (ts : List Token) :
    expect k (t :: ts) = .ok t ts :=
  expectAs_eq_ok_iff.2 ⟨rfl, ht⟩

theorem expect_eq_ok_iff {k : Kind} {ts rest : List Token} {t : Token} :
    expect k ts = .ok t rest ↔ ts = t :: rest ∧ t.kind = k :=
  expectAs_eq_ok_iff

theorem name_eq_ok_iff {ts rest : List Token} {x : String} :
    name ts = .ok x rest ↔ ∃ t, ts = t :: rest ∧ t.kind = .identifier ∧ t.lexeme = x := by
  rw [name, bind_eq_ok_iff]
  constructor
  · intro h
    obtain ⟨t, us, ht, h⟩ := h
    obtain ⟨rfl, hk⟩ := expect_eq_ok_iff.1 ht
    obtain ⟨rfl, rfl⟩ := pure_eq_ok_iff.1 h
    exact ⟨t, rfl, hk, rfl⟩
  · intro h
    obtain ⟨t, rfl, hk, rfl⟩ := h
    exact ⟨t, rest, expect_eq_ok_iff.2 ⟨rfl, hk⟩, rfl⟩

theorem type_eq_ok_iff {ts rest : List Token} {ty : Ty} :
    type ts = .ok ty rest ↔ ∃ t, ts = t :: rest ∧ t.kind = .type ty := by
  rw [type, peek_bind]
  constructor
  · intro h
    generalize hk : kindAt ts 0 = k at h
    split at h
    · obtain ⟨t, us, rfl, ht⟩ := exists_of_kindAt hk (by simp)
      obtain ⟨rfl, rfl⟩ := pure_eq_ok_iff.1 h
      exact ⟨t, rfl, ht⟩
    · exact absurd h fail_ne_ok
  · intro h
    obtain ⟨t, rfl, ht⟩ := h
    rw [kindAt_cons, ht]
    rfl

end Scriptlet.Rule
