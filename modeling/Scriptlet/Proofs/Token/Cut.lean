import Scriptlet.Proofs.Token.Lexing

/-!
# Scriptlet.Proofs.Token.Cut

**Cutting a text piece by piece.** `CutsInto s rest D` says that where `rest` follows, the lexer
cuts the text `s` into tokens with the property `D` and then goes on at `rest`. Pieces are put
together by `CutsInto.append`. A piece that is one lexeme needs to know what follows only in so far
as it could make the lexeme longer; white space can be cut anywhere. What is `Separated` continues
no name and no number.
-/

namespace Scriptlet

/-- Where `rest` follows, the text `s` is cut into tokens with a property. -/
def CutsInto (s : String) (rest : List Char) (D : List Token → Prop) : Prop :=
  ∀ offset, ∃ ts, D ts ∧
    lexFrom 0 offset (s.toList ++ rest) = ts ++ lexFrom 0 (offset + s.utf8ByteSize) rest

/-- Tokens of one sort, and then tokens of another. -/
def Followed (D E : List Token → Prop) (ts : List Token) : Prop :=
  ∃ us vs, ts = us ++ vs ∧ D us ∧ E vs

/-- One token of a kind, with a given lexeme. -/
def OneToken (k : Kind) (s : String) (ts : List Token) : Prop :=
  ∃ t, ts = [t] ∧ t.kind = k ∧ t.lexeme = s

namespace CutsInto

variable {s t : String} {rest : List Char} {D E : List Token → Prop}

theorem mono (h : CutsInto s rest D) (hDE : ∀ ts, D ts → E ts) : CutsInto s rest E := by
  intro offset
  obtain ⟨ts, hts, hlex⟩ := h offset
  exact ⟨ts, hDE ts hts, hlex⟩

/-- Two pieces one after the other. -/
theorem append (hs : CutsInto s (t.toList ++ rest) D) (ht : CutsInto t rest E) :
    CutsInto (s ++ t) rest (Followed D E) := by
  intro offset
  obtain ⟨us, hus, hlex⟩ := hs offset
  obtain ⟨vs, hvs, hlex'⟩ := ht (offset + s.utf8ByteSize)
  refine ⟨us ++ vs, ⟨us, vs, rfl, hus, hvs⟩, ?_⟩
  rw [String.toList_append, List.append_assoc, hlex, hlex', String.utf8ByteSize_append,
    List.append_assoc, Nat.add_assoc]

/-- A piece that is one lexeme. -/
theorem token {k : Kind} (h : Best k s.toList (s.toList ++ rest)) (hk : k.isSkipped = false) :
    CutsInto s rest (OneToken k s) := by
  intro offset
  refine ⟨[⟨k, s, offset⟩], ⟨_, rfl, rfl, rfl⟩, ?_⟩
  have hlex := lexFrom_shown h hk offset
  rwa [String.ofList_toList] at hlex

end CutsInto

/-! ### White space -/

theorem spells_cons_space {k : Kind} {c : Char} {u : List Char} (h : k.Spells (c :: u))
    (hc : isSpace c) : k = .whitespace := by
  cases hk : k.spelling? with
  | some s =>
    have hfixed : ∀ k ∈ Kind.fixed, ∀ s ∈ k.spelling?, s.toList.head?.any isSpace = false := by
      decide
    have hnone := hfixed k (mem_fixed hk) s hk
    rw [← (Kind.spells_fixed hk).1 h] at hnone
    exact absurd hc (Bool.eq_false_iff.1 hnone)
  | none => exact (sortOf_eq hk h).symm.trans (sortOf_space u hc)

theorem best_whitespace {w rest : List Char} (hw : Kind.whitespace.Spells w)
    (hrest : ∀ c ∈ rest.head?, ¬isSpace c) : Best .whitespace w (w ++ rest) := by
  obtain ⟨hne, hall⟩ := Kind.spells_whitespace.1 hw
  refine .of_bound hw (fun k' w' h' hw' => ?_) (by simp)
  obtain ⟨c, u, rfl⟩ := List.exists_cons_of_ne_nil hne
  obtain ⟨u', rfl, -⟩ := h'.exists_cons hw'
  obtain rfl := spells_cons_space h' (hall c (by simp))
  rw [← runLength_append hall hrest]
  exact le_runLength hw' (Kind.spells_whitespace.1 h').2

/-- A run of white space may be passed over in two parts. -/
theorem lexFrom_space {c : Char} (hc : isSpace c) (cs : List Char) (offset : Nat) :
    lexFrom 0 offset (c :: cs) = lexFrom 0 (offset + c.utf8Size) cs := by
  have hsplit : cs.takeWhile isSpace ++ cs.dropWhile isSpace = cs := List.takeWhile_append_dropWhile
  have hstop : ∀ d ∈ (cs.dropWhile isSpace).head?, ¬isSpace d := by
    intro d hd
    have hnot := List.head?_dropWhile_not isSpace cs
    rw [hd] at hnot
    simpa using hnot
  have hrun : ∀ d ∈ cs.takeWhile isSpace, isSpace d := fun d hd => List.mem_takeWhile_imp hd
  have hwhole : Best .whitespace (c :: cs.takeWhile isSpace)
      (c :: cs.takeWhile isSpace ++ cs.dropWhile isSpace) :=
    best_whitespace (Kind.spells_whitespace.2 ⟨by simp, List.forall_mem_cons.2 ⟨hc, hrun⟩⟩) hstop
  have hlex := lexFrom_passed hwhole rfl offset
  rw [List.cons_append, hsplit, utf8ByteSize_ofList_cons, ← Nat.add_assoc] at hlex
  rw [hlex]
  generalize offset + c.utf8Size = offset'
  by_cases hnil : cs.takeWhile isSpace = []
  · rw [hnil] at hsplit ⊢
    exact congrArg _ hsplit
  · have hpart := lexFrom_passed
      (best_whitespace (Kind.spells_whitespace.2 ⟨hnil, hrun⟩) hstop) rfl offset'
    rw [hsplit] at hpart
    exact hpart.symm

namespace CutsInto

variable {s t : String} {rest : List Char} {D : List Token → Prop}

theorem space (hs : s.toList.all isSpace) (rest : List Char) : CutsInto s rest (· = []) := by
  intro offset
  refine ⟨[], rfl, ?_⟩
  rw [← String.ofList_toList (s := s), String.toList_ofList]
  generalize s.toList = w at hs
  induction w generalizing offset with
  | nil => rfl
  | cons c w ih =>
    rw [List.all_cons, Bool.and_eq_true] at hs
    obtain ⟨hc, hw⟩ := hs
    rw [List.cons_append, lexFrom_space hc, ih _ hw, utf8ByteSize_ofList_cons, Nat.add_assoc]

/-- White space before a piece. -/
theorem after_space (hs : s.toList.all isSpace) (ht : CutsInto t rest D) :
    CutsInto (s ++ t) rest D := by
  refine ((space hs _).append ht).mono ?_
  intro tokens htokens
  obtain ⟨_, ts, rfl, rfl, h⟩ := htokens
  exact h

/-- White space after a piece. -/
theorem before_space (hs : CutsInto s (t.toList ++ rest) D) (ht : t.toList.all isSpace) :
    CutsInto (s ++ t) rest D := by
  refine (hs.append (space ht rest)).mono ?_
  intro tokens htokens
  obtain ⟨ts, _, rfl, h, rfl⟩ := htokens
  rwa [List.append_nil]

theorem before_blank (hs : CutsInto s (" ".toList ++ rest) D) : CutsInto (s ++ " ") rest D :=
  hs.before_space rfl

theorem before_newline (hs : CutsInto s ("\n".toList ++ rest) D) : CutsInto (s ++ "\n") rest D :=
  hs.before_space rfl

end CutsInto

/-! ### Lexemes -/

/-- What comes next continues no name and no number. -/
def Separated (rest : List Char) : Prop :=
  ∀ c ∈ rest.head?, isNamePart c = false ∧ c ≠ '.'

theorem Separated.nil : Separated [] := nofun

theorem Separated.of_head {s : String} {c : Char} (hs : s.toList.head? = some c)
    (hc : isNamePart c = false ∧ c ≠ '.') (rest : List Char) : Separated (s.toList ++ rest) := by
  intro d hd
  rw [List.head?_append, hs] at hd
  cases hd
  exact hc

theorem Separated.no_name {rest : List Char} (h : Separated rest) :
    ∀ c ∈ rest.head?, ¬isNamePart c := by
  intro c hc
  rw [(h c hc).1]
  decide

theorem Separated.numberEnds {rest : List Char} (h : Separated rest) : NumberEnds rest where
  no_digit c hc hdigit := by
    have hpart := (h c hc).1
    simp [isNamePart, Char.isAlphanum, hdigit] at hpart
  no_point hpoint := (h '.' hpoint).2 rfl
  no_exponent e he hpre := by
    obtain ⟨mark, sign, d, rfl, hmark, -⟩ := Regex.matches_exponent.1 he
    obtain ⟨tail, rfl⟩ := hpre
    have hpart := (h mark rfl).1
    rcases hmark with rfl | rfl <;> exact absurd hpart (by decide)

/-- A lexeme whose length the classes agree on. -/
theorem cutsInto_of_munch {k : Kind} {s : String} {rest : List Char}
    (h : munch (s.toList ++ rest) = (k, s.toList.length)) (hs : s.toList ≠ [])
    (hk : k.isSkipped = false) : CutsInto s rest (OneToken k s) := by
  obtain ⟨w, hlen, hbest⟩ := best_of_munch h (mt List.length_eq_zero_iff.1 hs)
  obtain rfl : w = s.toList :=
    (List.prefix_of_prefix_length_le hbest.start (List.prefix_append _ _) hlen.le).eq_of_length hlen
  exact .token hbest hk

theorem cutsInto_mark {m : Mark} (hm : m ≠ .assign) (rest : List Char) :
    CutsInto m.text rest (OneToken (.mark m) m.text) := by
  -- no longer lexeme starts with such a mark, so the text after it does not matter
  refine cutsInto_of_munch ?_ ?_ rfl
  · cases m <;> first | rfl | exact absurd rfl hm
  · cases m <;> decide

theorem cutsInto_assign (rest : List Char) :
    CutsInto "=" (" ".toList ++ rest) (OneToken (.mark .assign) "=") :=
  cutsInto_of_munch rfl (by decide) rfl

theorem cutsInto_step (s : Step) (rest : List Char) :
    CutsInto s.symbol rest (OneToken (.step s) s.symbol) := by
  refine cutsInto_of_munch ?_ ?_ rfl
  · cases s <;> rfl
  · cases s <;> decide

theorem cutsInto_operator (op : BinOp) (rest : List Char) :
    CutsInto op.symbol (" ".toList ++ rest) (OneToken (.operator op) op.symbol) := by
  refine cutsInto_of_munch ?_ ?_ rfl
  · cases op <;> rfl
  · cases op <;> decide

theorem cutsInto_reserved {k : Kind} {s : String} {rest : List Char} (hk : k.isReserved)
    (hs : k.spelling? = some s) (hrest : Separated rest) : CutsInto s rest (OneToken k s) := by
  refine .token (best_reserved hk ((Kind.spells_fixed hs).2 rfl) hrest.no_name) ?_
  cases k <;> simp_all [Kind.isReserved, Kind.isSkipped]

end Scriptlet
