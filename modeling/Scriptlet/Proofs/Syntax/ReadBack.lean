import Scriptlet.Proofs.Syntax.RoundTrip
import Scriptlet.Proofs.Syntax.Sign
import Scriptlet.Proofs.Token.Tiling

/-!
# Scriptlet.Proofs.Syntax.ReadBack

**Which trees are read back from their text.** A printable tree is, by the round trip. Conversely,
let a tree be read from the text of another and be the same. What is read is printable, and from
sameness the other has its names and its magnitudes, so its text is cut as expected, signs being
minus tokens. The tree that was read has no signs, and as many minus tokens as the text; so the
other tree has no signs either and is printable itself.

Sameness alone does not give this, since the two zeros are the same and one of them has a sign.
-/

namespace Scriptlet

open Grammar

/-- A float literal can be written if and only if it is finite and its sign bit is clear. -/
theorem Expr.printable_float {x : Float} :
    (Expr.float x).Printable ↔ Decimal.isFinite x ∧ Decimal.isNegative x = false := by
  constructor
  · rintro ⟨r, hr, rfl⟩
    exact ⟨Decimal.isFinite_ofRank hr false, Decimal.isNegative_ofRank hr false⟩
  · rintro ⟨hfinite, hsign⟩
    obtain ⟨r, hr, heq⟩ := Decimal.exists_ofRank_of_isFinite hfinite
    rw [hsign] at heq
    exact ⟨r, hr, heq⟩

/-! ### Sameness of trees -/

mutual

/-- A printable expression is the same as itself; a NaN would not be. -/
theorem Expr.same_self (e : Expr) (he : e.Printable) : e.same e := by
  match e with
  | .int _ | .str _ | .bool _ | .var _ => simp [Expr.same]
  | .float x =>
    obtain ⟨r, hr, rfl⟩ := he
    exact Decimal.sameNumber_self hr
  | .call f args => simp [Expr.same, Expr.sameAll_self args he.2]
  | .binary l op r => simp [Expr.same, l.same_self he.1, r.same_self he.2]
  | .step s place e => simp [Expr.same, e.same_self he]

theorem Expr.sameAll_self (es : List Expr) (hes : Expr.PrintableAll es) : Expr.sameAll es es := by
  match es with
  | [] => rfl
  | e :: es => simp [Expr.sameAll, e.same_self hes.1, Expr.sameAll_self es hes.2]

end

mutual

theorem Stmt.same_self (s : Stmt) (hs : s.Printable) : s.same s := by
  match s with
  | .init t x e => simp [Stmt.same, e.same_self hs.2]
  | .declare t x => simp [Stmt.same]
  | .assign x e => simp [Stmt.same, e.same_self hs.2]
  | .eval e => exact e.same_self hs
  | .branch c yes no =>
    simp [Stmt.same, c.same_self hs.1, Stmt.sameAll_self yes hs.2.1, Stmt.sameAll_self no hs.2.2]
  | .loop c body => simp [Stmt.same, c.same_self hs.1, Stmt.sameAll_self body hs.2]
  | .ret e => exact e.same_self hs

theorem Stmt.sameAll_self (ss : List Stmt) (hss : Stmt.PrintableAll ss) : Stmt.sameAll ss ss := by
  match ss with
  | [] => rfl
  | s :: ss => simp [Stmt.sameAll, s.same_self hss.1, Stmt.sameAll_self ss hss.2]

end

theorem Program.same_self (p : Program) (hp : p.Printable) : Program.same p p := by
  induction p with
  | nil => rfl
  | cons f p ih =>
    obtain ⟨hf, hp⟩ := List.forall_mem_cons.1 hp
    simp [Program.same, Function.same, Stmt.sameAll_self f.body hf.body, ih hp]

/-! ### Trees that are the same up to signs -/

/-- What is known of a tree that is the same as a printable one: it is spellable, it has at least
the minus signs of the other, `m` and `n`, and if it has no more then it is printable. -/
structure Matched (spellable printable : Prop) (m n : Nat) : Prop where
  spellable : spellable
  le : n ≤ m
  printable : m ≤ n → printable

namespace Matched

variable {S S' P P' : Prop} {m m' n n' : Nat}

/-- A part without literals. -/
theorem of_printable (hS : S) (hP : P) : Matched S P 0 0 :=
  ⟨hS, Nat.le_refl 0, fun _ => hP⟩

/-- Two parts: neither has fewer signs, so if there are no more in all there are no more in each. -/
theorem and (h : Matched S P m n) (h' : Matched S' P' m' n') :
    Matched (S ∧ S') (P ∧ P') (m + m') (n + n') where
  spellable := ⟨h.spellable, h'.spellable⟩
  le := Nat.add_le_add h.le h'.le
  printable hle := by
    have hm := h.le
    have hm' := h'.le
    exact ⟨h.printable (by omega), h'.printable (by omega)⟩

/-- A part between two that is the same in both trees. -/
theorem and_same (h : Matched S P m n) (k : Nat) : Matched S P (m + k) (n + k) where
  spellable := h.spellable
  le := Nat.add_le_add_right h.le k
  printable hle := h.printable (Nat.le_of_add_le_add_right hle)

/-- A part that is a name, which has no signs. -/
theorem and_left (hS : S) (hP : P) (h : Matched S' P' m n) : Matched (S ∧ S') (P ∧ P') m n where
  spellable := ⟨hS, h.spellable⟩
  le := h.le
  printable hle := ⟨hP, h.printable hle⟩

end Matched

mutual

/-- What is the same as a printable expression is printable up to signs. Sameness leaves only pairs
of one constructor; floats are the only literals of which the same one may have a sign. -/
theorem Expr.matched (e' e : Expr) (h : e'.same e) (he' : e'.Printable) :
    Matched e.Spellable e.Printable e.minuses e'.minuses := by
  match e', e with
  | .int n, .int m =>
    obtain rfl : n = m := by simpa [Expr.same] using h
    exact ⟨trivial, Nat.le_refl _, fun _ => he'⟩
  | .float x, .float y =>
    obtain ⟨r, hr, rfl⟩ := he'
    have hfinite := Decimal.isFinite_of_sameNumber hr h
    refine ⟨hfinite, by simp [Expr.minuses, Decimal.isNegative_ofRank hr], fun hle => ?_⟩
    refine Expr.printable_float.2 ⟨hfinite, ?_⟩
    simpa [Expr.minuses, Decimal.isNegative_ofRank hr] using hle
  | .str _, .str _ => exact .of_printable trivial trivial
  | .bool _, .bool _ => exact .of_printable trivial trivial
  | .var x, .var y =>
    obtain rfl : x = y := by simpa [Expr.same] using h
    exact .of_printable he' he'
  | .call f as, .call g bs =>
    simp only [Expr.same, Bool.and_eq_true, beq_iff_eq] at h
    obtain ⟨rfl, h⟩ := h
    exact .and_left he'.1 he'.1 (Expr.matched_all as bs h he'.2)
  | .binary l op r, .binary l' op' r' =>
    simp only [Expr.same, Bool.and_eq_true, beq_iff_eq] at h
    obtain ⟨⟨rfl, hl⟩, hr⟩ := h
    exact ((l.matched l' hl he'.1).and_same _).and (r.matched r' hr he'.2)
  | .step s p e, .step s' p' e' =>
    simp only [Expr.same, Bool.and_eq_true, beq_iff_eq] at h
    exact e.matched e' h.2 he'

theorem Expr.matched_all (es' es : List Expr) (h : Expr.sameAll es' es)
    (hes' : Expr.PrintableAll es') :
    Matched (Expr.SpellableAll es) (Expr.PrintableAll es) (Expr.minusesAll es)
      (Expr.minusesAll es') := by
  match es', es with
  | [], [] => exact .of_printable trivial trivial
  | e' :: es', e :: es =>
    rw [Expr.sameAll, Bool.and_eq_true] at h
    exact (e'.matched e h.1 hes'.1).and (Expr.matched_all es' es h.2 hes'.2)

end

mutual

/-- What is the same as a printable statement is printable up to signs. -/
theorem Stmt.matched (s' s : Stmt) (h : s'.same s) (hs' : s'.Printable) :
    Matched s.Spellable s.Printable s.minuses s'.minuses := by
  match s', s with
  | .init t x e', .init _ _ e =>
    simp only [Stmt.same, Bool.and_eq_true, beq_iff_eq] at h
    obtain ⟨⟨rfl, rfl⟩, he⟩ := h
    exact .and_left hs'.1 hs'.1 (e'.matched e he hs'.2)
  | .declare t x, .declare _ _ =>
    simp only [Stmt.same, Bool.and_eq_true, beq_iff_eq] at h
    obtain ⟨rfl, rfl⟩ := h
    exact .of_printable hs' hs'
  | .assign x e', .assign _ e =>
    simp only [Stmt.same, Bool.and_eq_true, beq_iff_eq] at h
    obtain ⟨rfl, he⟩ := h
    exact .and_left hs'.1 hs'.1 (e'.matched e he hs'.2)
  | .eval e', .eval e => exact e'.matched e h hs'
  | .branch c' yes' no', .branch c yes no =>
    simp only [Stmt.same, Bool.and_eq_true] at h
    obtain ⟨⟨hc, hyes⟩, hno⟩ := h
    have hblocks := (c'.matched c hc hs'.1).and <|
      (Stmt.matched_all yes' yes hyes hs'.2.1).and (Stmt.matched_all no' no hno hs'.2.2)
    simpa only [Stmt.minuses, Stmt.Spellable, Stmt.Printable, Nat.add_assoc] using hblocks
  | .loop c' body', .loop c body =>
    simp only [Stmt.same, Bool.and_eq_true] at h
    exact (c'.matched c h.1 hs'.1).and (Stmt.matched_all body' body h.2 hs'.2)
  | .ret e', .ret e => exact e'.matched e h hs'

theorem Stmt.matched_all (ss' ss : List Stmt) (h : Stmt.sameAll ss' ss)
    (hss' : Stmt.PrintableAll ss') :
    Matched (Stmt.SpellableAll ss) (Stmt.PrintableAll ss) (Stmt.minusesAll ss)
      (Stmt.minusesAll ss') := by
  match ss', ss with
  | [], [] => exact .of_printable trivial trivial
  | s' :: ss', s :: ss =>
    rw [Stmt.sameAll, Bool.and_eq_true] at h
    exact (s'.matched s h.1 hss'.1).and (Stmt.matched_all ss' ss h.2 hss'.2)

end

theorem Function.matched {f' f : Function} (h : f'.same f) (hf' : f'.Printable) :
    Matched f.Spellable f.Printable (Stmt.minusesAll f.body) (Stmt.minusesAll f'.body) := by
  simp only [Function.same, Bool.and_eq_true, beq_iff_eq] at h
  obtain ⟨⟨⟨-, hname⟩, hparams⟩, hbody⟩ := h
  have hbody := Stmt.matched_all f'.body f.body hbody hf'.body
  have hname : IsName f.name := hname ▸ hf'.name
  have hparams : ∀ p ∈ f.params, IsName p.name := hparams ▸ hf'.params
  exact ⟨⟨hname, hparams, hbody.spellable⟩, hbody.le,
    fun hle => ⟨hname, hparams, hbody.printable hle⟩⟩

theorem Program.matched (p' p : Program) (h : Program.same p' p) (hp' : p'.Printable) :
    Matched (∀ f ∈ p, f.Spellable) p.Printable p.minuses p'.minuses := by
  match p', p with
  | [], [] => exact .of_printable nofun nofun
  | f' :: p', f :: p =>
    rw [Program.same, Bool.and_eq_true] at h
    obtain ⟨hf', hp'⟩ := List.forall_mem_cons.1 hp'
    have hboth := (Function.matched h.1 hf').and (Program.matched p' p h.2 hp')
    exact ⟨List.forall_mem_cons.2 hboth.spellable, hboth.le,
      fun hle => List.forall_mem_cons.2 (hboth.printable hle)⟩

/-! ### Reading back -/

/-- The canonical text of a printable expression is read as that expression, up to the end. -/
theorem readExpression_print {e : Expr} (he : e.Printable) :
    ∃ t, readExpression (Token.lex e.print) = .ok e [t] ∧ t.kind = .endOfInput := by
  obtain ⟨ts, hts, hlex⟩ := e.cuts he .nil 0
  rw [List.append_nil] at hlex
  refine ⟨⟨.endOfInput, "", 0 + e.print.utf8ByteSize⟩, ?_, rfl⟩
  rw [Token.lex, hlex]
  exact hts.expr.read (by simp) rfl

/-- The tokens of a text that is read as a program derive that program, all of them. -/
theorem derives_of_parse {source : String} {p : Program} (h : Program.parse source = .ok p) :
    DerivesProgram (Token.lex source) p := by
  obtain ⟨rest, hread⟩ := result_eq_ok_iff.1 h
  obtain ⟨us, hus, hp⟩ := definitions_reads _ _ _ _ _ hread
  obtain ⟨body, hbody, hend⟩ := (tiled_lex source).exists_body
  have hends : EndsOnce (Token.lex source) := ⟨body, _, hbody, rfl, fun t ht => (hend t ht).1⟩
  -- nothing is left behind the end at which the derivation stops
  obtain ⟨_, t, rfl, ht⟩ := hp.exists_end
  rw [hus] at hends ⊢
  rwa [hends.eq_nil ht, List.append_nil]

/-- The tokens of a text in which `n` minus tokens are known. -/
theorem HasMinuses.lex {s : String} {n : Nat} (h : HasMinuses s [] n) :
    minuses (Token.lex s) = n := by
  obtain ⟨ts, hts, hlex⟩ := h 0
  rw [List.append_nil] at hlex
  rw [Token.lex, hlex, minuses_append, hts]
  rfl

/-- **Exactly the printable trees are read back.** The text of an expression is read as the same
expression, with nothing left but the end, if and only if the expression is printable; and the text
of a program is read as the same program if and only if the program is printable. A float literal is
printable if and only if it is finite and its sign bit is clear. -/
theorem read_back_iff_printable :
    (∀ e : Expr,
        (∃ e' t, readExpression (Token.lex e.print) = .ok e' [t] ∧ t.kind = .endOfInput ∧
          e'.same e) ↔ e.Printable) ∧
      (∀ p : Program, (∃ q, Program.parse p.print = .ok q ∧ Program.same q p) ↔ p.Printable) ∧
      ∀ x : Float,
        (Expr.float x).Printable ↔ Decimal.isFinite x ∧ Decimal.isNegative x = false := by
  refine ⟨fun e => ⟨?_, fun he => ?_⟩, fun p => ⟨?_, fun hp => ?_⟩, fun x => Expr.printable_float⟩
  · rintro ⟨e', t, hread, ht, hsame⟩
    obtain ⟨us, hus, hderives⟩ := expression_reads _ _ _ _ hread
    have he' := hderives.printable fun t ht => wellLexed_lex e.print t (by
      rw [hus]
      exact List.mem_append_left _ ht)
    have hmatched := e'.matched e hsame he'
    have hcount := (e.hasMinuses hmatched.spellable .nil).lex
    rw [hus, minuses_append, hderives.minuses_eq he', minuses_cons, ht] at hcount
    exact hmatched.printable (Nat.le_of_eq hcount.symm)
  · obtain ⟨t, hread, ht⟩ := readExpression_print he
    exact ⟨e, t, hread, ht, e.same_self he⟩
  · rintro ⟨q, hparse, hsame⟩
    have hq := printable_of_parse hparse
    have hmatched := Program.matched q p hsame hq
    have hcount := (Program.hasMinuses p hmatched.spellable []).lex
    rw [(derives_of_parse hparse).minuses_eq hq] at hcount
    exact hmatched.printable (Nat.le_of_eq hcount.symm)
  · exact ⟨p, parse_print hp, p.same_self hp⟩

end Scriptlet
