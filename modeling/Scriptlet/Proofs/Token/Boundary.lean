import Scriptlet.Proofs.Text.Quoted
import Scriptlet.Proofs.Token.Tiling

/-!
# Scriptlet.Proofs.Token.Boundary

**Behind a token the lexer starts anew.** What follows a token is cut as if it were a text of its
own; only its offsets count from the start of the whole. A lexer that goes on after a token and one
that is started again on the rest cannot be told apart, however often that is done.

Two facts carry this. A lexer that starts some bytes further on gives the same tokens, those bytes
further on (`lexFrom_shift`). And the byte after a token, whatever the token is, is a place at which
the text is cut (`Munched.behind`).

A literal that is written for a text is one token in front of any other text, since it ends at its
own quote; so what stands behind it is cut on its own as well.
-/

namespace Scriptlet

/-! ### Further on -/

/-- The token a number of bytes further on. -/
def Token.shift (n : Nat) (t : Token) : Token :=
  { t with offset := t.offset + n }

/-- The offset at which the lexer starts only moves the tokens. -/
theorem lexFrom_shift (skip offset n : Nat) (cs : List Char) :
    lexFrom skip (offset + n) cs = (lexFrom skip offset cs).map (Token.shift n) := by
  induction cs generalizing skip offset with
  | nil => rfl
  | cons c rest ih =>
    have hrest : ∀ k, lexFrom k (offset + n + c.utf8Size) rest =
        (lexFrom k (offset + c.utf8Size) rest).map (Token.shift n) := by
      intro k
      rw [Nat.add_right_comm, ih]
    cases skip with
    | succ k => exact hrest k
    | zero =>
      rw [lexFrom, lexFrom]
      dsimp only
      split
      · exact hrest _
      · rw [hrest, List.map_cons]
        rfl

theorem lexFrom_eq_shift (offset : Nat) (cs : List Char) :
    lexFrom 0 offset cs = (Token.lex (String.ofList cs)).map (Token.shift offset) := by
  rw [Token.lex, String.toList_ofList, ← lexFrom_shift, Nat.zero_add]

/-! ### Behind a token -/

/-- The token ends somewhere in the text, and the others are the tokens of what comes after. -/
def EndsBefore (offset : Nat) (cs : List Char) (t : Token) (after : List Token) : Prop :=
  ∃ u v, cs = u ++ v ∧ t.stop = offset + (String.ofList u).utf8ByteSize ∧ Munched t.stop v after

/-- More text in front changes nothing behind the token. -/
theorem EndsBefore.append {offset : Nat} {rest : List Char} {t : Token} {after : List Token}
    {w : List Char} (h : EndsBefore (offset + (String.ofList w).utf8ByteSize) rest t after) :
    EndsBefore offset (w ++ rest) t after := by
  obtain ⟨u, v, rfl, hstop, hafter⟩ := h
  refine ⟨w ++ u, v, (List.append_assoc ..).symm, ?_, hafter⟩
  rw [hstop, utf8ByteSize_ofList_append, Nat.add_assoc]

/-- Behind a token the text is cut on its own. -/
theorem Munched.behind {offset : Nat} {cs : List Char} {before after : List Token} {t : Token}
    (h : Munched offset cs (before ++ t :: after)) (ht : t.kind ≠ .endOfInput) :
    EndsBefore offset cs t after := by
  generalize hts : before ++ t :: after = ts at h
  induction h generalizing before with
  | done offset =>
    -- the only token is the end of the text
    obtain ⟨-, rfl, -⟩ := (List.append_eq_singleton_iff.1 hts).resolve_right (by simp)
    exact absurd rfl ht
  | @shown offset k w rest ts hbest hk hrest ih =>
    cases before with
    | nil =>
      obtain ⟨rfl, rfl⟩ := List.cons.inj hts
      exact ⟨w, rest, rfl, rfl, hrest⟩
    | cons s before => exact (ih (List.cons.inj hts).2).append
  | passed _ _ _ ih => exact (ih hts).append
  | @unknown offset c rest ts hnone hrest ih =>
    have hsize : c.utf8Size = (String.ofList [c]).utf8ByteSize := by
      rw [← String.singleton_eq_ofList, String.utf8ByteSize_singleton]
    rw [hsize] at hrest ih
    cases before with
    | nil =>
      obtain ⟨rfl, rfl⟩ := List.cons.inj hts
      rw [← String.singleton_eq_ofList] at hrest
      exact ⟨[c], rest, rfl, by rw [Token.stop, String.singleton_eq_ofList], hrest⟩
    | cons s before => exact EndsBefore.append (w := [c]) (ih (List.cons.inj hts).2)

/-! ### Starting anew -/

/-- The part of a text from a byte on. -/
def textFrom (source : String) (start : Nat) : String :=
  textBetween source start source.utf8ByteSize

theorem textFrom_append (u v : String) : textFrom (u ++ v) u.utf8ByteSize = v :=
  textBetween_end u v

/-- A token ends between two characters, and the tokens behind it are those of the text behind
it. -/
theorem lex_behind {source : String} {before after : List Token} {t : Token}
    (h : Token.lex source = before ++ t :: after) (ht : t.kind ≠ .endOfInput) :
    String.Pos.Raw.IsValid source ⟨t.stop⟩ ∧
      after = (Token.lex (textFrom source t.stop)).map (Token.shift t.stop) := by
  have hmunched : Munched 0 source.toList (before ++ t :: after) := h ▸ munched_lexFrom 0 _
  obtain ⟨u, v, hsource, hstop, hafter⟩ := hmunched.behind ht
  obtain rfl : source = String.ofList u ++ String.ofList v := by
    rw [← String.ofList_append, ← hsource, String.ofList_toList]
  rw [Nat.zero_add] at hstop
  refine ⟨hstop ▸ isValid_append _ _, ?_⟩
  rw [hafter.eq_lexFrom, lexFrom_eq_shift, hstop, textFrom_append]

/-- Whether a lexer that starts anew behind some tokens goes on behind this one. There is nothing to
start on behind the end. -/
def goesOn (anew : Token → Bool) (t : Token) : Bool :=
  t.kind = .endOfInput || !anew t

/-- The tokens of a text from a lexer that is started anew behind the tokens with a property, but
no more than a number of times; behind other tokens it goes on. -/
def lexAnew (anew : Token → Bool) : Nat → String → List Token
  | 0, source => Token.lex source
  | n + 1, source =>
    let ts := Token.lex source
    match ts.dropWhile (goesOn anew) with
    | [] => ts
    | t :: _ =>
      ts.takeWhile (goesOn anew) ++
        t :: (lexAnew anew n (textFrom source t.stop)).map (Token.shift t.stop)

/-- Starting anew does not change the tokens. -/
theorem lexAnew_eq (anew : Token → Bool) (n : Nat) (source : String) :
    lexAnew anew n source = Token.lex source := by
  induction n generalizing source with
  | zero => rfl
  | succ n ih =>
    rw [lexAnew]
    split
    · rfl
    · rename_i t after hdrop
      have hsplit :
          (Token.lex source).takeWhile (goesOn anew) ++ t :: after = Token.lex source := by
        rw [← hdrop, List.takeWhile_append_dropWhile]
      have hstop : goesOn anew t = false := by
        have hhead := List.head?_dropWhile_not (goesOn anew) (Token.lex source)
        rw [hdrop] at hhead
        simpa using hhead
      have hkind : t.kind ≠ .endOfInput := by
        intro hend
        simp [goesOn, hend] at hstop
      rw [ih, ← (lex_behind hsplit.symm hkind).2, hsplit]

/-- **Lexing has no memory at the end of a token.** Behind every token but that of the end, one
unknown character included, come exactly the tokens of the rest of the text, moved by the bytes in
front of it. So it makes no difference behind which tokens the lexer is started anew on the rest and
behind which it goes on, however often that happens. -/
theorem lex_memoryless :
    (∀ (source : String) (before after : List Token) (t : Token),
      Token.lex source = before ++ t :: after → t.kind ≠ .endOfInput →
        String.Pos.Raw.IsValid source ⟨t.stop⟩ ∧
        after = (Token.lex (textFrom source t.stop)).map (Token.shift t.stop)) ∧
    ∀ (anew : Token → Bool) (n : Nat) (source : String),
      lexAnew anew n source = Token.lex source :=
  ⟨fun _ _ _ _ => lex_behind, lexAnew_eq⟩

/-- Behind an unknown character of two bytes come a comment and a quote that nothing closes. -/
theorem lex_memoryless_unknown :
    ∃ (source : String) (before after : List Token) (t : Token),
      source = "x é/*e*/\"ab" ∧ Token.lex source = before ++ t :: after ∧
      t = ⟨.unknown, "é", 2⟩ ∧ t.kind ≠ .endOfInput ∧
      String.Pos.Raw.IsValid source ⟨t.stop⟩ ∧
      after = (Token.lex (textFrom source t.stop)).map (Token.shift t.stop) := by
  have hlex : Token.lex "x é/*e*/\"ab" = [⟨.identifier, "x", 0⟩] ++ ⟨.unknown, "é", 2⟩ ::
      [⟨.unknown, "\"", 9⟩, ⟨.identifier, "ab", 10⟩, ⟨.endOfInput, "", 12⟩] := by decide +kernel
  exact ⟨_, _, _, _, rfl, hlex, rfl, by decide, lex_memoryless.1 _ _ _ _ hlex (by decide)⟩

/-! ### Literals -/

/-- **A literal stands for its text and ends at its own quote.** Reading undoes writing, and in
front of any other text a written literal is one token, behind which that text is cut as if it stood
alone. Whatever quotes, backslashes and line ends a text has, its literal neither ends early nor
takes anything along. -/
theorem quote_codec (s rest : String) :
    Text.unquote (Text.quote s) = s ∧
    Token.lex (Text.quote s ++ rest) =
      ⟨.str, Text.quote s, 0⟩ ::
        (Token.lex rest).map (Token.shift (Text.quote s).utf8ByteSize) := by
  have hbest := best_str (Text.spells_quote s) rest.toList
  refine ⟨Text.unquote_quote s, ?_⟩
  rw [Token.lex, String.toList_append, lexFrom_shown hbest rfl, String.ofList_toList,
    lexFrom_eq_shift, String.ofList_toList, Nat.zero_add]

/-- A text that ends in a backslash, in front of one that starts with a quote. -/
example : Token.lex (Text.quote "a\"\\" ++ "\"b") =
    [⟨.str, "\"a\\\"\\\\\"", 0⟩, ⟨.unknown, "\"", 7⟩, ⟨.identifier, "b", 8⟩,
      ⟨.endOfInput, "", 9⟩] := by decide +kernel

end Scriptlet
