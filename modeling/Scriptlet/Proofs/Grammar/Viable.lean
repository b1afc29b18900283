import Scriptlet.Proofs.Grammar.Sound

/-!
# Scriptlet.Proofs.Grammar.Viable

**What a failing rule has taken can be continued.** A rule that fails has taken tokens with which a
phrase can begin: there are more tokens that complete them. And its error points at the token that
comes next, which it has not taken.

`Viable r D` says this of a rule `r` and the phrases `D`. In a sequence of rules the second one goes
on with a phrase that the first has begun, so it is viable for what is missing of the phrase. The
proofs build the phrase as a derivation does, with the tokens of the one rule before those of the
next. That something always completes a phrase is part of the statement: where a rule fails, the
rules after it have not been tried.
-/

namespace Scriptlet

/-- The error is about the first of these tokens, or about there being none. -/
def SyntaxError.PointsAt (e : SyntaxError) : List Token → Prop
  | [] => ∃ expected, e = .unexpectedEnd expected
  | t :: _ => (∃ expected, e = .unexpectedToken expected t.lexeme t.offset) ∨
      e = .expressionExpected t.lexeme t.offset ∨ e = .literalTooLarge t.lexeme t.offset

namespace Grammar

open Rule

variable {α β : Type}

/-- If the rule fails on the tokens, it has taken the front of a phrase and its error points at what
comes next. -/
def ViableOn (r : Rule α) (D : List Token → α → Prop) (ts : List Token) : Prop :=
  ∀ e rest, r ts = .error e rest →
    e.PointsAt rest ∧ ∃ us, ts = us ++ rest ∧ ∃ vs a, D (us ++ vs) a

/-- There are phrases, and wherever the rule fails it has taken the front of one. -/
structure Viable (r : Rule α) (D : List Token → α → Prop) : Prop where
  inhabited : ∃ us a, D us a
  on : ∀ ts, ViableOn r D ts

/-- A token to complete a phrase with, where only its kind matters. -/
def filler (k : Kind) : Token :=
  ⟨k, "", 0⟩

/-! ### Building rules -/

section Building

variable {D D' : List Token → α → Prop} {E : List Token → β → Prop} {ts : List Token}

/-- Of more phrases there are more fronts. -/
theorem ViableOn.mono {r : Rule α} (h : ViableOn r D ts) (himp : ∀ us a, D us a → D' us a) :
    ViableOn r D' ts := by
  intro e rest herror
  obtain ⟨hpoints, us, rfl, vs, a, hD⟩ := h e rest herror
  exact ⟨hpoints, us, rfl, vs, a, himp _ _ hD⟩

theorem Viable.mono {r : Rule α} (h : Viable r D) (himp : ∀ us a, D us a → D' us a) :
    Viable r D' := by
  obtain ⟨us, a, hD⟩ := h.inhabited
  exact ⟨⟨us, a, himp us a hD⟩, fun ts => (h.on ts).mono himp⟩

/-- A rule that fails where it stands has taken nothing. -/
theorem ViableOn.of_error {r : Rule α} {e : SyntaxError} (hD : ∃ us a, D us a)
    (hr : r ts = .error e ts) (he : e.PointsAt ts) : ViableOn r D ts := by
  intro e' rest h
  rw [hr] at h
  cases h
  exact ⟨he, [], rfl, hD⟩

theorem ViableOn.of_ok {r : Rule α} {a : α} {rest : List Token} (hr : r ts = .ok a rest) :
    ViableOn r D ts := by
  intro e rest h
  rw [hr] at h
  cases h

/-- A rule that takes a token goes on with a phrase that begins with it. -/
theorem ViableOn.cons {r q : Rule α} {t : Token} (hr : r (t :: ts) = q ts)
    (hq : Viable q fun us a => D (t :: us) a) : ViableOn r D (t :: ts) := by
  intro e rest h
  rw [hr] at h
  obtain ⟨hpoints, us, rfl, vs, a, hD⟩ := hq.on ts e rest h
  exact ⟨hpoints, t :: us, rfl, vs, a, hD⟩

theorem viableOn_fail {expected : Expected} (hD : ∃ us a, D us a) (ts : List Token) :
    ViableOn (fail expected) D ts := by
  cases ts with
  | nil => exact .of_error hD rfl ⟨_, rfl⟩
  | cons t ts => exact .of_error hD rfl (.inl ⟨_, rfl⟩)

theorem viable_exhausted (hD : ∃ us a, D us a) : Viable exhausted D :=
  ⟨hD, viableOn_fail hD⟩

theorem viable_pure {a : α} (hD : D [] a) : Viable (pure a) D :=
  ⟨⟨[], a, hD⟩, fun _ => .of_ok rfl⟩

/-- The second rule of a sequence goes on with the phrase that the first has begun. -/
theorem Viable.bind {x : Rule α} {f : α → Rule β} (hread : Reads x D) (hx : Viable x D)
    (hf : ∀ us a, D us a → Viable (f a) fun vs b => E (us ++ vs) b) : Viable (x >>= f) E := by
  refine ⟨?_, fun ts e rest h => ?_⟩
  · obtain ⟨us, a, hD⟩ := hx.inhabited
    obtain ⟨vs, b, hE⟩ := (hf us a hD).inhabited
    exact ⟨us ++ vs, b, hE⟩
  · change EStateM.bind x f ts = .error e rest at h
    rw [EStateM.bind] at h
    cases hrun : x ts with
    | error e' rest' =>
      rw [hrun] at h
      cases h
      obtain ⟨hpoints, us, rfl, vs, a, hD⟩ := hx.on ts e rest hrun
      -- the first rule failed: it can be completed, and what comes after it can be added
      obtain ⟨ws, b, hE⟩ := (hf (us ++ vs) a hD).inhabited
      exact ⟨hpoints, us, rfl, vs ++ ws, b, by rwa [← List.append_assoc]⟩
    | ok a rest' =>
      rw [hrun] at h
      obtain ⟨us, rfl, hD⟩ := hread ts a rest' hrun
      obtain ⟨hpoints, ws, rfl, vs, b, hE⟩ := (hf us a hD).on rest' e rest h
      refine ⟨hpoints, us ++ ws, (List.append_assoc ..).symm, vs, b, ?_⟩
      rwa [List.append_assoc]

theorem Viable.map {x : Rule α} {g : α → β} (hx : Viable x D) (hg : ∀ us a, D us a → E us (g a)) :
    Viable (g <$> x) E := by
  obtain ⟨us, a, hD⟩ := hx.inhabited
  refine ⟨⟨us, g a, hg us a hD⟩, fun ts e rest h => ?_⟩
  change EStateM.map g x ts = .error e rest at h
  rw [EStateM.map] at h
  cases hrun : x ts with
  | error e' rest' =>
    rw [hrun] at h
    cases h
    obtain ⟨hpoints, us, rfl, vs, a, hD⟩ := hx.on ts e rest hrun
    exact ⟨hpoints, us, rfl, vs, g a, hg _ _ hD⟩
  | ok a rest' =>
    rw [hrun] at h
    cases h

/-- A rule that looks ahead is viable if what it does for each next kind is. -/
theorem Viable.peek {f : Kind → Rule α} (hD : ∃ us a, D us a)
    (h : ∀ ts, ViableOn (f (kindAt ts 0)) D ts) : Viable (peek >>= f) D :=
  ⟨hD, h⟩

/-- Passing over a token that belongs to the phrase. -/
theorem ViableOn.advance {f : Unit → Rule α} {t : Token}
    (h : Viable (f ()) fun us a => D (t :: us) a) : ViableOn (advance >>= f) D (t :: ts) :=
  .cons rfl h

end Building

/-! ### Single tokens -/

theorem expectAs_reads (expected : Expected) (k : Kind) :
    Reads (expectAs expected k) fun us t => us = [t] ∧ t.kind = k := by
  intro ts t rest h
  obtain ⟨rfl, hk⟩ := expectAs_eq_ok_iff.1 h
  exact ⟨[t], rfl, rfl, hk⟩

theorem expectAs_viable (expected : Expected) (k : Kind) :
    Viable (expectAs expected k) fun us t => us = [t] ∧ t.kind = k := by
  have hinhabited : ∃ us, ∃ t : Token, us = [t] ∧ t.kind = k := ⟨_, filler k, rfl, rfl⟩
  refine ⟨hinhabited, fun ts => ?_⟩
  cases ts with
  | nil => exact .of_error hinhabited rfl ⟨_, rfl⟩
  | cons t ts =>
    by_cases hk : t.kind = k
    · exact .of_ok (expectAs_eq_ok_iff.2 ⟨rfl, hk⟩)
    · exact .of_error hinhabited (if_neg hk) (.inl ⟨_, rfl⟩)

theorem name_reads : Reads name fun us x =>
    ∃ t : Token, us = [t] ∧ t.kind = .identifier ∧ t.lexeme = x := by
  intro ts x rest h
  obtain ⟨t, rfl, hk, rfl⟩ := name_eq_ok_iff.1 h
  exact ⟨[t], rfl, t, rfl, hk, rfl⟩

theorem name_viable :
    Viable name fun us x => ∃ t : Token, us = [t] ∧ t.kind = .identifier ∧ t.lexeme = x := by
  refine .bind (expectAs_reads _ _) (expectAs_viable _ _) fun us t h => ?_
  obtain ⟨rfl, hk⟩ := h
  exact viable_pure ⟨t, rfl, hk, rfl⟩

theorem type_reads : Reads type fun us ty => ∃ t : Token, us = [t] ∧ t.kind = .type ty := by
  intro ts ty rest h
  obtain ⟨t, rfl, hk⟩ := type_eq_ok_iff.1 h
  exact ⟨[t], rfl, t, rfl, hk⟩

theorem type_viable : Viable type fun us ty => ∃ t : Token, us = [t] ∧ t.kind = .type ty := by
  have hinhabited : ∃ us ty, ∃ t : Token, us = [t] ∧ t.kind = .type ty :=
    ⟨_, .int, filler (.type .int), rfl, rfl⟩
  refine .peek hinhabited fun ts => ?_
  generalize hk : kindAt ts 0 = k
  split
  · obtain ⟨t, us, rfl, ht⟩ := exists_of_kindAt hk (by simp)
    exact .advance (viable_pure ⟨t, rfl, ht⟩)
  · exact viableOn_fail hinhabited ts

/-! ### Lists of items -/

theorem items_viable {item : Rule α} {closing : Kind} {D : List Token → α → Prop}
    {Ds : List Token → List α → Prop} (hread : Reads item D) (hitem : Viable item D)
    (hone : ∀ {us a}, D us a → Ds us [a])
    (hmore : ∀ {us vs a as} {c : Token}, D us a → c.kind = .mark .comma → Ds vs as →
      Ds (us ++ c :: vs) (a :: as))
    (n : Nat) :
    Viable (items item closing n) fun us as =>
      ∃ vs r, us = vs ++ [r] ∧ r.kind = closing ∧ Ds vs as := by
  induction n with
  | zero =>
    obtain ⟨us, a, hD⟩ := hitem.inhabited
    exact viable_exhausted ⟨_, [a], us, filler closing, rfl, rfl, hone hD⟩
  | succ n ih =>
    refine Viable.bind hread hitem fun us a hD => ?_
    -- the closing token completes a list after any item
    have hinhabited : ∃ ws as vs r, us ++ ws = vs ++ [r] ∧ r.kind = closing ∧ Ds vs as :=
      ⟨_, [a], us, filler closing, rfl, rfl, hone hD⟩
    refine ⟨hinhabited, fun ts => ?_⟩
    cases ts with
    | nil => exact .of_error hinhabited rfl ⟨_, rfl⟩
    | cons t ts =>
      by_cases hcomma : t.kind = .mark .comma
      · refine .cons (if_pos hcomma) (ih.map fun vs as h => ?_)
        obtain ⟨ws, r, rfl, hr, hDs⟩ := h
        exact ⟨us ++ t :: ws, r, by simp, hr, hmore hD hcomma hDs⟩
      · by_cases hclosing : t.kind = closing
        · exact .of_ok ((if_neg hcomma).trans (if_pos hclosing))
        · exact .of_error hinhabited ((if_neg hcomma).trans (if_neg hclosing)) (.inl ⟨_, rfl⟩)

theorem listOf_viable {bound : Nat} {item : Rule α} {closing : Kind}
    {Ds : List Token → List α → Prop} (hclosing : closing ≠ .endOfInput)
    (hitems : Viable (items item closing bound) fun us as =>
      ∃ vs r, us = vs ++ [r] ∧ r.kind = closing ∧ Ds vs as) :
    Viable (listOf bound item closing) fun us as =>
      ∃ vs r, us = vs ++ [r] ∧ r.kind = closing ∧ (vs = [] ∧ as = [] ∨ Ds vs as) := by
  refine .peek ⟨_, [], [], filler closing, rfl, rfl, .inl ⟨rfl, rfl⟩⟩ fun ts => ?_
  split
  · rename_i hk
    obtain ⟨t, us, rfl, ht⟩ := exists_of_kindAt hk hclosing
    exact .advance (viable_pure ⟨[], t, rfl, ht, .inl ⟨rfl, rfl⟩⟩)
  · refine (hitems.on ts).mono fun us as h => ?_
    obtain ⟨vs, r, rfl, hr, hDs⟩ := h
    exact ⟨vs, r, rfl, hr, .inr hDs⟩

/-! ### Expressions -/

theorem derivesAtom_true : DerivesAtom [filler (.keyword .true)] (.bool true) :=
  .true rfl

theorem chainOnto_viable {atom : Rule Expr} (hread : Reads atom DerivesAtom)
    (hatom : Viable atom DerivesAtom) (n : Nat) (pending : List (Expr × BinOp)) :
    Viable (chainOnto atom n pending) fun us e =>
      ∃ e', DerivesExpr us e' ∧ e = joinChain pending e' := by
  induction n generalizing pending with
  | zero => exact viable_exhausted ⟨_, _, _, .atom derivesAtom_true, rfl⟩
  | succ n ih =>
    refine .peek ⟨_, _, _, .atom derivesAtom_true, rfl⟩ fun ts => ?_
    generalize hk : kindAt ts 0 = k
    split
    · obtain ⟨t, us, rfl, ht⟩ := exists_of_kindAt hk (by simp)
      refine .advance (.bind hread hatom fun us a ha => ?_)
      exact viable_pure ⟨_, .before ht (by rwa [List.append_nil]), rfl⟩
    · refine (Viable.bind hread hatom fun us a ha => ?_).on ts
      refine .peek ⟨[], _, a, .atom (by rwa [List.append_nil]), rfl⟩ fun ts => ?_
      generalize hk : kindAt ts 0 = k
      split
      · obtain ⟨t, vs, rfl, ht⟩ := exists_of_kindAt hk (by simp)
        exact .advance (viable_pure ⟨_, .after ha ht, rfl⟩)
      · obtain ⟨t, vs, rfl, ht⟩ := exists_of_kindAt hk (by simp)
        refine .advance ((ih _).mono fun vs e h => ?_)
        obtain ⟨e', he', rfl⟩ := h
        exact ⟨_, .chain ha ht he', joinChain_cons ..⟩
      · exact .of_ok rfl

theorem args_viable {bound : Nat} {expression : Rule Expr} (hread : Reads expression DerivesExpr)
    (hexpr : Viable expression DerivesExpr) :
    Viable (listOf bound expression (.mark .closeParen)) fun us args =>
      ∃ vs r, us = vs ++ [r] ∧ r.kind = .mark .closeParen ∧
        (vs = [] ∧ args = [] ∨ DerivesArgs vs args) :=
  listOf_viable (by simp) (items_viable hread hexpr .one .more bound)

theorem atom_viable {bound : Nat} {expression : Rule Expr} (hread : Reads expression DerivesExpr)
    (hexpr : Viable expression DerivesExpr) : Viable (atom bound expression) DerivesAtom := by
  have hinhabited : ∃ us a, DerivesAtom us a := ⟨_, _, derivesAtom_true⟩
  refine ⟨hinhabited, fun ts e rest h => ?_⟩
  cases ts with
  | nil =>
    cases h
    exact ⟨⟨_, rfl⟩, [], rfl, hinhabited⟩
  | cons t ts =>
    rw [atom] at h
    split at h
    · -- a literal out of range is itself the token that the error points at
      split at h
      · cases h
      · cases h
        exact ⟨.inr (.inr rfl), [], rfl, hinhabited⟩
    · split at h
      · cases h
      · cases h
        exact ⟨.inr (.inr rfl), [], rfl, hinhabited⟩
    · cases h
    · cases h
    · cases h
    · rename_i ht
      split at h
      · rename_i hk
        obtain ⟨l, us, rfl, hl⟩ := exists_of_kindAt hk (by simp)
        have hcall : Viable (Expr.call t.lexeme <$> listOf bound expression (.mark .closeParen))
            fun us a => DerivesAtom (t :: l :: us) a := by
          refine (args_viable hread hexpr).map fun us args h => ?_
          obtain ⟨vs, r, rfl, hr, ⟨rfl, rfl⟩ | hargs⟩ := h
          · exact .callNone ht hl hr
          · exact .call ht hl hargs hr
        obtain ⟨hpoints, vs, rfl, hvs⟩ := hcall.on us e rest h
        exact ⟨hpoints, t :: l :: vs, rfl, hvs⟩
      · cases h
    · rename_i ht
      have hgroup : Viable (do let e ← expression; let _ ← expect (.mark .closeParen); return e)
          fun us a => DerivesAtom (t :: us) a := by
        refine .bind hread hexpr fun us e he => ?_
        refine .bind (expectAs_reads _ _) (expectAs_viable _ _) fun vs r hr => ?_
        obtain ⟨rfl, hr⟩ := hr
        exact viable_pure (.group ht he hr)
      obtain ⟨hpoints, vs, rfl, hvs⟩ := hgroup.on ts e rest h
      exact ⟨hpoints, t :: vs, rfl, hvs⟩
    · cases h
      exact ⟨.inr (.inl rfl), [], rfl, hinhabited⟩

theorem expression_viable (n : Nat) : Viable (expression n) DerivesExpr := by
  induction n with
  | zero => exact viable_exhausted ⟨_, _, .atom derivesAtom_true⟩
  | succ n ih =>
    have hatom : Viable (atom n (expression n)) DerivesAtom := atom_viable (expression_reads n) ih
    refine (chainOnto_viable (atom_reads (expression_reads n)) hatom (n + 1) []).mono ?_
    intro us e h
    obtain ⟨e', he, rfl⟩ := h
    exact he

/-! ### Statements -/

theorem ended_viable (s : Stmt) :
    Viable (ended s) fun us s' => ∃ z, us = [z] ∧ z.kind = .mark .semicolon ∧ s' = s := by
  refine .bind (expectAs_reads _ _) (expectAs_viable _ _) fun us z h => ?_
  obtain ⟨rfl, hz⟩ := h
  exact viable_pure ⟨z, rfl, hz, rfl⟩

/-- An expression and the semicolon after it. -/
theorem endedExpression_viable {expression : Rule Expr} (hread : Reads expression DerivesExpr)
    (hexpr : Viable expression DerivesExpr) (f : Expr → Stmt) :
    Viable (expression >>= fun e => ended (f e)) fun us s =>
      ∃ ts z e, us = ts ++ [z] ∧ DerivesExpr ts e ∧ z.kind = .mark .semicolon ∧ s = f e := by
  refine .bind hread hexpr fun us e he => (ended_viable (f e)).mono fun vs s h => ?_
  obtain ⟨z, rfl, hz, rfl⟩ := h
  exact ⟨us, z, e, rfl, he, hz, rfl⟩

theorem condition_viable {expression : Rule Expr} (hread : Reads expression DerivesExpr)
    (hexpr : Viable expression DerivesExpr) :
    Viable (condition expression) fun us c =>
      ∃ l ts r, us = l :: (ts ++ [r]) ∧ l.kind = .mark .openParen ∧ DerivesExpr ts c ∧
        r.kind = .mark .closeParen := by
  refine .bind (expectAs_reads _ _) (expectAs_viable _ _) fun us l hl => ?_
  obtain ⟨rfl, hl⟩ := hl
  refine .bind hread hexpr fun us e he => ?_
  refine .bind (expectAs_reads _ _) (expectAs_viable _ _) fun vs r hr => ?_
  obtain ⟨rfl, hr⟩ := hr
  exact viable_pure ⟨l, us, r, rfl, hl, he, hr⟩

theorem alternative_viable {block : Rule (List Stmt)} (hblock : Viable block DerivesBlock) :
    Viable (alternative block) fun us no =>
      us = [] ∧ no = [] ∨ ∃ o vs, us = o :: vs ∧ o.kind = .keyword .else ∧ DerivesBlock vs no := by
  refine .peek ⟨[], [], .inl ⟨rfl, rfl⟩⟩ fun ts => ?_
  generalize hk : kindAt ts 0 = k
  split
  · obtain ⟨o, us, rfl, ho⟩ := exists_of_kindAt hk (by simp)
    exact .advance (hblock.mono fun vs no hno => .inr ⟨o, vs, rfl, ho, hno⟩)
  · exact .of_ok rfl

theorem declaration_viable {expression : Rule Expr} (hread : Reads expression DerivesExpr)
    (hexpr : Viable expression DerivesExpr) : Viable (declaration expression) DerivesStmt := by
  refine .bind type_reads type_viable fun us ty h => ?_
  obtain ⟨t, rfl, ht⟩ := h
  refine .bind name_reads name_viable fun us _ h => ?_
  obtain ⟨x, rfl, hx, rfl⟩ := h
  have hinhabited : ∃ vs s, DerivesStmt ([t] ++ ([x] ++ vs)) s :=
    ⟨[filler (.mark .semicolon)], _, .declare ht hx rfl⟩
  refine .peek hinhabited fun ts => ?_
  generalize hk : kindAt ts 0 = k
  split
  · obtain ⟨q, us, rfl, hq⟩ := exists_of_kindAt hk (by simp)
    refine .advance ((endedExpression_viable hread hexpr _).mono fun vs s h => ?_)
    obtain ⟨ws, z, e, rfl, he, hz, rfl⟩ := h
    exact .init ht hx hq he hz
  · refine ((ended_viable _).mono fun vs s h => ?_).on ts
    obtain ⟨z, rfl, hz, rfl⟩ := h
    exact .declare ht hx hz
  · exact viableOn_fail hinhabited ts

theorem simple_viable {expression : Rule Expr} (hread : Reads expression DerivesExpr)
    (hexpr : Viable expression DerivesExpr) : Viable (simple expression) DerivesStmt := by
  have heval : Viable (expression >>= fun e => ended (.eval e)) DerivesStmt := by
    refine (endedExpression_viable hread hexpr _).mono fun us s h => ?_
    obtain ⟨ws, z, e, rfl, he, hz, rfl⟩ := h
    exact .eval he hz
  refine ⟨heval.inhabited, fun ts e rest h => ?_⟩
  rw [simple] at h
  split at h
  · rename_i hk
    obtain ⟨x, us, rfl, hx⟩ := exists_of_kindAt hk.1 (by simp)
    obtain ⟨q, us, rfl, hq⟩ := exists_of_kindAt hk.2 (by simp)
    have hassign : Viable (expression >>= fun e => ended (.assign x.lexeme e))
        fun us s => DerivesStmt (x :: q :: us) s := by
      refine (endedExpression_viable hread hexpr _).mono fun us s h => ?_
      obtain ⟨ws, z, e, rfl, he, hz, rfl⟩ := h
      exact .assign hx hq he hz
    rw [bind_of_ok (name_eq_ok_iff.2 ⟨x, rfl, hx, rfl⟩), advance_bind] at h
    obtain ⟨hpoints, vs, rfl, hvs⟩ := hassign.on us e rest h
    exact ⟨hpoints, x :: q :: vs, rfl, hvs⟩
  · exact heval.on ts e rest h

theorem statementOf_viable {expression : Rule Expr} {block : Rule (List Stmt)}
    (hread : Reads expression DerivesExpr) (hexpr : Viable expression DerivesExpr)
    (hblockRead : Reads block DerivesBlock) (hblock : Viable block DerivesBlock) :
    Viable (statementOf expression block) DerivesStmt := by
  have hsimple := simple_viable hread hexpr
  refine .peek hsimple.inhabited fun ts => ?_
  generalize hk : kindAt ts 0 = k
  split
  · obtain ⟨i, us, rfl, hi⟩ := exists_of_kindAt hk (by simp)
    refine .advance ((endedExpression_viable hread hexpr _).mono fun vs s h => ?_)
    obtain ⟨ws, z, e, rfl, he, hz, rfl⟩ := h
    exact .ret hi he hz
  · obtain ⟨i, us, rfl, hi⟩ := exists_of_kindAt hk (by simp)
    refine .advance (.bind (condition_reads hread) (condition_viable hread hexpr)
      fun us c hc => ?_)
    obtain ⟨l, ts, r, rfl, hl, hc, hr⟩ := hc
    refine .bind hblockRead hblock fun us yes hyes => ?_
    refine .bind (alternative_reads hblockRead) (alternative_viable hblock) fun vs no hno => ?_
    refine viable_pure ?_
    rcases hno with ⟨rfl, rfl⟩ | ⟨o, vs, rfl, ho, hno⟩
    · simpa using DerivesStmt.branch hi hl hc hr hyes
    · simpa using DerivesStmt.branchElse hi hl hc hr hyes ho hno
  · obtain ⟨i, us, rfl, hi⟩ := exists_of_kindAt hk (by simp)
    refine .advance (.bind (condition_reads hread) (condition_viable hread hexpr)
      fun us c hc => ?_)
    obtain ⟨l, ts, r, rfl, hl, hc, hr⟩ := hc
    refine .bind hblockRead hblock fun us body hbody => viable_pure ?_
    simpa using DerivesStmt.loop hi hl hc hr hbody
  · exact (declaration_viable hread hexpr).on ts
  · exact hsimple.on ts

theorem statements_viable {statement : Rule Stmt} (hread : Reads statement DerivesStmt)
    (hstmt : Viable statement DerivesStmt) (n : Nat) :
    Viable (statements statement n) fun us ss =>
      ∃ vs r, us = vs ++ [r] ∧ r.kind = .mark .closeBrace ∧ DerivesStmts vs ss := by
  have hinhabited : ∃ us ss vs r, us = vs ++ [r] ∧ r.kind = .mark .closeBrace ∧
      DerivesStmts vs ss :=
    ⟨_, [], [], filler (.mark .closeBrace), rfl, rfl, .nil⟩
  induction n with
  | zero => exact viable_exhausted hinhabited
  | succ n ih =>
    refine .peek hinhabited fun ts => ?_
    generalize hk : kindAt ts 0 = k
    split
    · obtain ⟨r, us, rfl, hr⟩ := exists_of_kindAt hk (by simp)
      exact .advance (viable_pure ⟨[], r, rfl, hr, .nil⟩)
    · exact viableOn_fail hinhabited ts
    · refine (Viable.bind hread hstmt fun us s hs => ?_).on ts
      refine .bind (statements_reads hread n) ih fun vs ss hss => ?_
      obtain ⟨ws, r, rfl, hr, hss⟩ := hss
      exact viable_pure ⟨us ++ ws, r, by simp, hr, .cons hs hss⟩

theorem blockOf_viable {statement : Rule Stmt} (hread : Reads statement DerivesStmt)
    (hstmt : Viable statement DerivesStmt) (n : Nat) :
    Viable (blockOf n statement) DerivesBlock := by
  refine .bind (expectAs_reads _ _) (expectAs_viable _ _) fun us l hl => ?_
  obtain ⟨rfl, hl⟩ := hl
  refine (statements_viable hread hstmt n).mono fun vs ss h => ?_
  obtain ⟨ws, r, rfl, hr, hss⟩ := h
  exact .block hl hss hr

theorem statement_viable (n : Nat) : Viable (statement n) DerivesStmt := by
  induction n with
  | zero =>
    have heval : DerivesStmt ([filler (.keyword .true)] ++ [filler (.mark .semicolon)])
        (.eval (.bool true)) := .eval (.atom derivesAtom_true) rfl
    exact viable_exhausted ⟨_, _, heval⟩
  | succ n ih =>
    exact statementOf_viable (expression_reads (n + 1)) (expression_viable (n + 1))
      (blockOf_reads (statement_reads n) n) (blockOf_viable (statement_reads n) ih n)

/-! ### Programs -/

theorem param_viable :
    Viable param fun us p =>
      ∃ t x ty, us = [t, x] ∧ t.kind = .type ty ∧ x.kind = .identifier ∧ p = ⟨ty, x.lexeme⟩ := by
  refine .bind type_reads type_viable fun us ty h => ?_
  obtain ⟨t, rfl, ht⟩ := h
  refine .bind name_reads name_viable fun us _ h => ?_
  obtain ⟨x, rfl, hx, rfl⟩ := h
  exact viable_pure ⟨t, x, ty, rfl, ht, hx, rfl⟩

theorem params_viable (bound : Nat) :
    Viable (listOf bound param (.mark .closeParen)) fun us ps =>
      ∃ vs r, us = vs ++ [r] ∧ r.kind = .mark .closeParen ∧
        (vs = [] ∧ ps = [] ∨ DerivesParams vs ps) := by
  refine listOf_viable (by simp) (items_viable param_reads param_viable ?_ ?_ bound)
  · intro us p h
    obtain ⟨t, x, ty, rfl, ht, hx, rfl⟩ := h
    exact .one ht hx
  · intro us vs p ps c h hc hps
    obtain ⟨t, x, ty, rfl, ht, hx, rfl⟩ := h
    exact .more ht hx hc hps

theorem definition_viable (bound : Nat) : Viable (definition bound) DerivesDefinition := by
  refine .bind type_reads type_viable fun us ty h => ?_
  obtain ⟨t, rfl, ht⟩ := h
  refine .bind name_reads name_viable fun us _ h => ?_
  obtain ⟨x, rfl, hx, rfl⟩ := h
  refine .bind (expectAs_reads _ _) (expectAs_viable _ _) fun us l hl => ?_
  obtain ⟨rfl, hl⟩ := hl
  refine .bind (params_reads bound) (params_viable bound) fun us ps hps => ?_
  obtain ⟨vs, r, rfl, hr, hps⟩ := hps
  refine .bind (blockOf_reads (statement_reads bound) bound)
    (blockOf_viable (statement_reads bound) (statement_viable bound) bound) fun us body hbody => ?_
  refine viable_pure ?_
  rcases hps with ⟨rfl, rfl⟩ | hps
  · exact .noParams ht hx hl hr (by rwa [List.append_nil])
  · simpa using DerivesDefinition.params ht hx hl hps hr hbody

/-- **What a failing rule for programs has taken is the front of a program.** -/
theorem definitions_viable (bound n : Nat) : Viable (definitions bound n) DerivesProgram := by
  have hinhabited : ∃ us p, DerivesProgram us p := ⟨[filler .endOfInput], [], .done rfl⟩
  induction n with
  | zero => exact viable_exhausted hinhabited
  | succ n ih =>
    refine .peek hinhabited fun ts => ?_
    generalize hk : kindAt ts 0 = k
    split
    · have hdefinition := definition_viable bound
      refine (Viable.bind (definition_reads bound) hdefinition fun us f hf => ?_).on ts
      refine .bind (definitions_reads bound n) ih fun vs p hp => viable_pure ?_
      rw [List.append_nil]
      exact .more hf hp
    · refine (Viable.bind (expectAs_reads _ _) (expectAs_viable _ _) fun us t ht => ?_).on ts
      obtain ⟨rfl, ht⟩ := ht
      exact viable_pure (.done ht)

end Grammar

end Scriptlet
