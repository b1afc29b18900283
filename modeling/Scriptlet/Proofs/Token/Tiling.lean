import Mathlib.Data.String.Basic
import Scriptlet.Proofs.Token.Lexing

/-!
# Scriptlet.Proofs.Token.Tiling

**The tokens tile their text.** Every token stands in the text where its offset says, tokens come in
order and do not overlap, and what lies between them is white space and comments, each taken whole.
So the text is its lexemes with the gaps put back between them (`lex_tiles`).

`Tiled source before ts` says this of the part of a text that comes after `before`. It follows from
maximal munch one match at a time: a match that is shown starts the next token, and one that is
passed over makes the gap in front of that token longer. What is wanted of the tokens is then read
off by induction on the tiling.
-/

namespace Scriptlet

/-! ### Places in a text -/

/-- The part of a text from one byte to another. -/
def textBetween (source : String) (start stop : Nat) : String :=
  String.Pos.Raw.extract source ⟨start⟩ ⟨stop⟩

theorem textBetween_append (u v w : String) :
    textBetween (u ++ v ++ w) u.utf8ByteSize (u ++ v).utf8ByteSize = v := by
  have h := String.extract_of_valid u.toList v.toList w.toList
  rw [← String.utf8ByteSize_ofList, ← String.utf8ByteSize_ofList, String.ofList_append,
    String.ofList_append, String.ofList_toList, String.ofList_toList, String.ofList_toList] at h
  rwa [textBetween, String.utf8ByteSize_append]

/-- The end of a text. -/
theorem textBetween_end (u v : String) :
    textBetween (u ++ v) u.utf8ByteSize (u ++ v).utf8ByteSize = v := by
  have h := textBetween_append u v ""
  rwa [String.append_empty] at h

theorem isValid_append (u v : String) : String.Pos.Raw.IsValid (u ++ v) ⟨u.utf8ByteSize⟩ :=
  String.Pos.Raw.isValid_iff_exists_append.2 ⟨u, v, rfl, rfl⟩

namespace Token

/-- The byte after the last one of a token. -/
def stop (t : Token) : Nat :=
  t.offset + t.lexeme.utf8ByteSize

/-- The token is a piece of the text: its two ends lie between characters, and its lexeme is what
stands there. -/
structure StandsIn (source : String) (t : Token) : Prop where
  start_valid : String.Pos.Raw.IsValid source ⟨t.offset⟩
  stop_valid : String.Pos.Raw.IsValid source ⟨t.stop⟩
  text_eq : textBetween source t.offset t.stop = t.lexeme

theorem standsIn_append {t : Token} {u w : String} (h : t.offset = u.utf8ByteSize) :
    t.StandsIn (u ++ t.lexeme ++ w) := by
  have hstop : t.stop = (u ++ t.lexeme).utf8ByteSize := by
    rw [stop, h, String.utf8ByteSize_append]
  refine ⟨?_, ?_, ?_⟩
  · rw [h, String.append_assoc]
    exact isValid_append u _
  · rw [hstop]
    exact isValid_append _ w
  · rw [h, hstop]
    exact textBetween_append u t.lexeme w

end Token

/-! ### What is passed over -/

/-- `w` is a run of white space or a comment, and it ends where `rest` begins: the run cannot go on,
a line comment reaches the end of its line, and a block comment has one closing mark, its last. -/
inductive Passed : List Char → List Char → Prop
  | space {w rest : List Char} (hne : w ≠ []) (hw : ∀ c ∈ w, isSpace c)
      (hrest : ∀ c ∈ rest.head?, ¬isSpace c) : Passed w rest
  | line {u rest : List Char} (hu : ∀ c ∈ u, c ≠ '\n' ∧ c ≠ '\r')
      (hrest : ∀ c ∈ rest.head?, c = '\n' ∨ c = '\r') : Passed ('/' :: '/' :: u) rest
  | block {body rest : List Char} (hbody : ¬closing <:+: body ++ ['*']) :
      Passed ('/' :: '*' :: (body ++ closing)) rest

/-- The text in front of `rest` is a sequence of pieces that are passed over. -/
inductive Gap : List Char → List Char → Prop
  | nil (rest : List Char) : Gap [] rest
  | cons {w g rest : List Char} (hw : Passed w (g ++ rest)) (hg : Gap g rest) : Gap (w ++ g) rest

/-- A best match cannot be made longer by the next character. -/
theorem Best.not_spells_append {k : Kind} {w rest : List Char} {c : Char}
    (h : Best k w (w ++ rest)) (hc : c ∈ rest.head?) : ¬k.Spells (w ++ [c]) := by
  intro hspells
  obtain ⟨tail, rfl⟩ := List.head?_eq_some_iff.1 hc
  have hle := h.longest k (w ++ [c]) hspells ⟨tail, by simp⟩
  rw [List.length_append, List.length_singleton] at hle
  omega

/-- A best match that is not shown is passed over as a whole. -/
theorem Best.passed {k : Kind} {w rest : List Char} (h : Best k w (w ++ rest))
    (hk : k.isSkipped) : Passed w rest := by
  cases k with
  | whitespace =>
    obtain ⟨hne, hw⟩ := Kind.spells_whitespace.1 h.spells
    refine .space hne hw fun c hc hspace => h.not_spells_append hc ?_
    exact Kind.spells_whitespace.2 ⟨by simp, List.forall_mem_append.2 ⟨hw, by simpa using hspace⟩⟩
  | lineComment =>
    obtain ⟨u, rfl, hu⟩ := Kind.spells_lineComment.1 h.spells
    refine .line (fun c hc => by simpa using hu c hc) fun c hc => ?_
    by_contra hend
    refine h.not_spells_append hc ?_
    refine Kind.spells_lineComment.2 ⟨u ++ [c], rfl, List.forall_mem_append.2 ⟨hu, ?_⟩⟩
    simpa using hend
  | blockComment =>
    obtain ⟨body, rfl, hbody⟩ := spells_blockComment_iff.1 h.spells
    exact .block hbody
  | _ => cases hk

/-! ### Tilings -/

/-- The tokens tile what comes after `before` in a text. -/
inductive Tiled (source : String) : String → List Token → Prop
  /-- After the last lexeme comes a gap. -/
  | last {before gap : String} (hsource : source = before ++ gap) (hgap : Gap gap.toList []) :
      Tiled source before [⟨.endOfInput, "", source.utf8ByteSize⟩]
  /-- A gap, a lexeme and what comes after it. -/
  | next {before gap after : String} {t : Token} {ts : List Token}
      (hsource : source = before ++ gap ++ t.lexeme ++ after)
      (hgap : Gap gap.toList (t.lexeme ++ after).toList)
      (hoffset : t.offset = (before ++ gap).utf8ByteSize) (hkind : t.kind ≠ .endOfInput)
      (hlexeme : t.lexeme ≠ "") (hrest : Tiled source (before ++ gap ++ t.lexeme) ts) :
      Tiled source before (t :: ts)

/-- What is passed over joins the gap after it. -/
theorem Tiled.passed {source before w rest : String} {ts : List Token}
    (h : Tiled source (before ++ w) ts) (hsource : source = before ++ w ++ rest)
    (hw : Passed w.toList rest.toList) : Tiled source before ts := by
  cases h with
  | @last _ gap hgapped hgap =>
    obtain rfl : rest = gap := (String.append_right_inj _).1 (hsource.symm.trans hgapped)
    have hpiece : Gap (w ++ rest).toList [] := by
      rw [String.toList_append]
      exact .cons (by rwa [List.append_nil]) hgap
    exact .last (hsource.trans String.append_assoc) hpiece
  | @next _ gap after t ts hgapped hgap hoffset hkind hlexeme hrest =>
    have hafter : rest = gap ++ (t.lexeme ++ after) := by
      refine (String.append_right_inj _).1 (hsource.symm.trans (hgapped.trans ?_))
      simp only [String.append_assoc]
    have hpiece : Gap (w ++ gap).toList (t.lexeme ++ after).toList := by
      rw [String.toList_append]
      refine .cons ?_ hgap
      rwa [← String.toList_append, ← hafter]
    refine .next ?_ hpiece ?_ hkind hlexeme ?_
    · simpa only [String.append_assoc] using hgapped
    · rwa [String.append_assoc] at hoffset
    · rwa [@String.append_assoc before] at hrest

/-- What maximal munch gives is a tiling. -/
theorem Munched.tiled {source : String} {offset : Nat} {cs : List Char} {ts : List Token}
    (h : Munched offset cs ts) {before : String} (hoffset : offset = before.utf8ByteSize)
    (hsource : source = before ++ String.ofList cs) : Tiled source before ts := by
  induction h generalizing before with
  | done offset =>
    obtain rfl : source = before := by rw [hsource, String.ofList_nil, String.append_empty]
    rw [hoffset]
    exact .last (String.append_empty).symm (.nil [])
  | @shown offset k w rest ts hbest hk _ ih =>
    rw [String.ofList_append, ← String.append_assoc] at hsource
    refine @Tiled.next source before "" (String.ofList rest) _ ts ?_ (.nil _) ?_ ?_ ?_ ?_
    · rwa [String.append_empty]
    · rwa [String.append_empty]
    · rintro rfl
      exact Kind.not_spells_endOfInput _ hbest.spells
    · rw [Ne, String.ofList_eq_empty_iff]
      exact hbest.nonempty
    · rw [String.append_empty]
      exact ih (by rw [hoffset, String.utf8ByteSize_append]) hsource
  | @passed offset k w rest ts hbest hk _ ih =>
    rw [String.ofList_append, ← String.append_assoc] at hsource
    refine (ih (by rw [hoffset, String.utf8ByteSize_append]) hsource).passed hsource ?_
    rw [String.toList_ofList, String.toList_ofList]
    exact hbest.passed hk
  | @unknown offset c rest ts hnone _ ih =>
    rw [← List.singleton_append, String.ofList_append, ← String.singleton_eq_ofList,
      ← String.append_assoc] at hsource
    refine @Tiled.next source before "" (String.ofList rest) _ ts ?_ (.nil _) ?_ ?_ ?_ ?_
    · rwa [String.append_empty]
    · rwa [String.append_empty]
    · exact Kind.noConfusion
    · simp
    · rw [String.append_empty]
      refine ih ?_ hsource
      rw [hoffset, String.utf8ByteSize_append, String.utf8ByteSize_singleton]

theorem tiled_lex (source : String) : Tiled source "" (Token.lex source) :=
  (munched_lexFrom 0 source.toList).tiled rfl (by rw [String.ofList_toList, String.empty_append])

/-! ### Reading a tiling -/

namespace Tiled

variable {source before : String} {ts : List Token}

/-- The last token, and no other, is the end of the text. -/
theorem exists_body (h : Tiled source before ts) :
    ∃ body, ts = body ++ [⟨.endOfInput, "", source.utf8ByteSize⟩] ∧
      ∀ t ∈ body, t.kind ≠ .endOfInput ∧ t.lexeme ≠ "" := by
  induction h with
  | last => exact ⟨[], rfl, nofun⟩
  | @next before gap after t ts _ _ _ hkind hlexeme _ ih =>
    obtain ⟨body, rfl, hbody⟩ := ih
    exact ⟨t :: body, rfl, List.forall_mem_cons.2 ⟨⟨hkind, hlexeme⟩, hbody⟩⟩

theorem standsIn (h : Tiled source before ts) : ∀ t ∈ ts, t.StandsIn source := by
  induction h with
  | last =>
    refine List.forall_mem_singleton.2 ?_
    have hend : Token.StandsIn (source ++ "" ++ "") ⟨.endOfInput, "", source.utf8ByteSize⟩ :=
      @Token.standsIn_append ⟨.endOfInput, "", source.utf8ByteSize⟩ source "" rfl
    rwa [String.append_empty, String.append_empty] at hend
  | next hsource _ hoffset _ _ _ ih =>
    refine List.forall_mem_cons.2 ⟨?_, ih⟩
    rw [hsource]
    exact Token.standsIn_append hoffset

/-- No token begins in what is tiled already. -/
theorem le_offset (h : Tiled source before ts) : ∀ t ∈ ts, before.utf8ByteSize ≤ t.offset := by
  induction h with
  | last hsource _ =>
    refine List.forall_mem_singleton.2 ?_
    rw [hsource, String.utf8ByteSize_append]
    exact Nat.le_add_right _ _
  | @next before gap after t ts _ _ hoffset _ _ _ ih =>
    rw [String.utf8ByteSize_append] at hoffset
    refine List.forall_mem_cons.2 ⟨by omega, fun u hu => ?_⟩
    have hle := ih u hu
    rw [String.utf8ByteSize_append, String.utf8ByteSize_append] at hle
    omega

/-- Each token ends before the next ones begin. -/
theorem pairwise (h : Tiled source before ts) :
    ts.Pairwise fun t u => t.offset < u.offset ∧ t.stop ≤ u.offset := by
  induction h with
  | last => exact List.pairwise_singleton _ _
  | @next before gap after t ts _ _ hoffset _ hlexeme hrest ih =>
    refine List.pairwise_cons.2 ⟨fun u hu => ?_, ih⟩
    have hle := hrest.le_offset u hu
    rw [String.utf8ByteSize_append, ← hoffset] at hle
    have hpos : 0 < t.lexeme.utf8ByteSize :=
      Nat.pos_of_ne_zero (mt String.utf8ByteSize_eq_zero_iff.1 hlexeme)
    exact ⟨by omega, hle⟩

end Tiled

/-- The first and last byte positions of what lies between tokens, from `start` on. -/
def gaps (start : Nat) : List Token → List (Nat × Nat)
  | [] => []
  | t :: ts => (start, t.offset) :: gaps t.stop ts

namespace Tiled

variable {source before : String} {ts : List Token}

/-- What lies between tokens is passed over. -/
theorem gap (h : Tiled source before ts) : ∀ g ∈ gaps before.utf8ByteSize ts,
    Gap (textBetween source g.1 g.2).toList
      (textBetween source g.2 source.utf8ByteSize).toList := by
  induction h with
  | @last before gap hsource hgap =>
    refine List.forall_mem_singleton.2 ?_
    have hafter := textBetween_end source ""
    rw [String.append_empty] at hafter
    change Gap (textBetween source before.utf8ByteSize source.utf8ByteSize).toList
      (textBetween source source.utf8ByteSize source.utf8ByteSize).toList
    rw [hafter, hsource, textBetween_end]
    exact hgap
  | @next before gap after t ts hsource hgap hoffset _ _ _ ih =>
    refine List.forall_mem_cons.2 ⟨?_, ?_⟩
    · change Gap (textBetween source before.utf8ByteSize t.offset).toList
        (textBetween source t.offset source.utf8ByteSize).toList
      rw [@String.append_assoc (before ++ gap)] at hsource
      rw [hoffset, hsource, textBetween_append, textBetween_end]
      exact hgap
    · rw [String.utf8ByteSize_append, ← hoffset] at ih
      exact ih

/-- Gaps and lexemes in turn make up the text. -/
theorem join_eq (h : Tiled source before ts) :
    before ++ String.join
        ((gaps before.utf8ByteSize ts).zipWith
          (fun g t => textBetween source g.1 g.2 ++ t.lexeme) ts) = source := by
  induction h with
  | @last before gap hsource _ =>
    have hgap : textBetween source before.utf8ByteSize source.utf8ByteSize = gap := by
      rw [hsource, textBetween_end]
    simp only [gaps, List.zipWith_cons_cons, List.zipWith_nil_left, String.join_cons,
      String.join_nil, String.append_empty, hgap]
    exact hsource.symm
  | @next before gap after t ts hsource _ hoffset _ _ _ ih =>
    have hgap : textBetween source before.utf8ByteSize t.offset = gap := by
      rw [@String.append_assoc (before ++ gap)] at hsource
      rw [hoffset, hsource, textBetween_append]
    rw [String.utf8ByteSize_append, ← hoffset] at ih
    rw [gaps, List.zipWith_cons_cons, String.join_cons, hgap]
    simpa only [String.append_assoc, Token.stop] using ih

end Tiled

/-- **Tiling.** The tokens of a text end with one token for its end, at its number of bytes, and all
before it have a lexeme. Each token is the piece of the text at its offset, cut between characters.
Offsets increase and tokens do not overlap. Every gap is a sequence of runs of white space and of
comments, all complete, and the gaps and lexemes in turn are the text. -/
theorem lex_tiles (source : String) :
    (∃ body, Token.lex source = body ++ [⟨.endOfInput, "", source.utf8ByteSize⟩] ∧
      ∀ t ∈ body, t.kind ≠ .endOfInput ∧ t.lexeme ≠ "") ∧
    (∀ t ∈ Token.lex source, t.StandsIn source) ∧
    ((Token.lex source).Pairwise fun t u => t.offset < u.offset ∧ t.stop ≤ u.offset) ∧
    (∀ g ∈ gaps 0 (Token.lex source),
      Gap (textBetween source g.1 g.2).toList
        (textBetween source g.2 source.utf8ByteSize).toList) ∧
    String.join
      ((gaps 0 (Token.lex source)).zipWith (fun g t => textBetween source g.1 g.2 ++ t.lexeme)
        (Token.lex source)) = source := by
  have h := tiled_lex source
  refine ⟨h.exists_body, h.standsIn, h.pairwise, h.gap, ?_⟩
  have hjoin := h.join_eq
  rwa [String.empty_append] at hjoin

end Scriptlet
