import Scriptlet.Token.Pattern

/-!
# Scriptlet.Proofs.Token.Regex

**The declared token classes.** Every class of lexemes is declared by regular expressions, and
`Kind.declared` is the table of them. The lexer does not run regular expressions: it measures each
class with a function of its own (`Scriptlet.Token.Pattern`). This module gives the declarations a
meaning that is independent of those functions, and reads them as plain conditions on a word:

* `Regex.Matches`: the words of a regular expression;
* `Kind.Spells`: the lexemes of a kind, by its declaration;
* one lemma `spells_…` for each open class, which says what its lexemes look like.

A dot in a declaration stands for any character but a line feed.
-/

namespace Scriptlet

/-- A regular expression over characters. -/
inductive Regex where
  /-- The empty word. -/
  | empty
  /-- One character of a class. -/
  | one (p : Char → Bool)
  | seq (r s : Regex)
  | alt (r s : Regex)
  | star (r : Regex)

namespace Regex

/-- One given character. -/
def just (c : Char) : Regex := one (· == c)

/-- A given word. -/
def literal : List Char → Regex
  | [] => empty
  | c :: w => seq (just c) (literal w)

/-- At least one repetition. -/
def plus (r : Regex) : Regex := seq r (star r)

/-- At most one occurrence. -/
def opt (r : Regex) : Regex := alt r empty

/-- The words of a regular expression. -/
inductive Matches : Regex → List Char → Prop
  | empty : Matches empty []
  | one {p : Char → Bool} {c : Char} (hc : p c) : Matches (one p) [c]
  | seq {r s : Regex} {u v : List Char} (hu : Matches r u) (hv : Matches s v) :
      Matches (seq r s) (u ++ v)
  | left {r s : Regex} {w : List Char} (h : Matches r w) : Matches (alt r s) w
  | right {r s : Regex} {w : List Char} (h : Matches s w) : Matches (alt r s) w
  | nil {r : Regex} : Matches (star r) []
  | cons {r : Regex} {u v : List Char} (hu : Matches r u) (hv : Matches (star r) v) :
      Matches (star r) (u ++ v)

/-! ### Reading a match -/

theorem matches_empty {w : List Char} : empty.Matches w ↔ w = [] :=
  ⟨fun h => by cases h; rfl, fun h => h ▸ .empty⟩

theorem matches_one {p : Char → Bool} {w : List Char} :
    (one p).Matches w ↔ ∃ c, w = [c] ∧ p c := by
  constructor
  · rintro ⟨⟩
    exact ⟨_, rfl, ‹_›⟩
  · intro h
    obtain ⟨c, rfl, hc⟩ := h
    exact .one hc

theorem matches_just {c : Char} {w : List Char} : (just c).Matches w ↔ w = [c] := by
  rw [just, matches_one]
  constructor
  · intro h
    obtain ⟨d, rfl, hd⟩ := h
    rw [eq_of_beq hd]
  · rintro rfl
    exact ⟨c, rfl, beq_self_eq_true c⟩

theorem matches_seq {r s : Regex} {w : List Char} :
    (seq r s).Matches w ↔ ∃ u v, w = u ++ v ∧ r.Matches u ∧ s.Matches v := by
  constructor
  · intro h
    cases h with
    | seq hu hv => exact ⟨_, _, rfl, hu, hv⟩
  · intro h
    obtain ⟨u, v, rfl, hu, hv⟩ := h
    exact .seq hu hv

theorem matches_alt {r s : Regex} {w : List Char} :
    (alt r s).Matches w ↔ r.Matches w ∨ s.Matches w := by
  constructor
  · intro h
    cases h with
    | left h => exact .inl h
    | right h => exact .inr h
  · intro h
    rcases h with h | h
    · exact .left h
    · exact .right h

theorem matches_opt {r : Regex} {w : List Char} : (opt r).Matches w ↔ r.Matches w ∨ w = [] := by
  rw [opt, matches_alt, matches_empty]

/-- A leading character can be split off a sequence. -/
theorem matches_just_seq {c : Char} {r : Regex} {w : List Char} :
    (seq (just c) r).Matches w ↔ ∃ u, w = c :: u ∧ r.Matches u := by
  rw [matches_seq]
  constructor
  · intro h
    obtain ⟨_, v, rfl, hc, hv⟩ := h
    obtain rfl := matches_just.1 hc
    exact ⟨v, rfl, hv⟩
  · intro h
    obtain ⟨u, rfl, hu⟩ := h
    exact ⟨[c], u, rfl, matches_just.2 rfl, hu⟩

theorem matches_literal {l w : List Char} : (literal l).Matches w ↔ w = l := by
  induction l generalizing w with
  | nil => exact matches_empty
  | cons c l ih =>
    rw [literal, matches_just_seq]
    constructor
    · intro h
      obtain ⟨u, rfl, hu⟩ := h
      rw [ih.1 hu]
    · rintro rfl
      exact ⟨l, rfl, ih.2 rfl⟩

/-- A repeated class is a run of characters of the class. -/
theorem matches_star_one {p : Char → Bool} {w : List Char} :
    (star (one p)).Matches w ↔ ∀ c ∈ w, p c := by
  constructor
  · intro h
    generalize hr : star (one p) = r at h
    induction h with
    | nil => simp
    | cons hu _ _ ih =>
      cases hr
      obtain ⟨c, rfl, hc⟩ := matches_one.1 hu
      exact List.forall_mem_cons.2 ⟨hc, ih rfl⟩
    | _ => cases hr
  · intro h
    induction w with
    | nil => exact .nil
    | cons c w ih =>
      obtain ⟨hc, hw⟩ := List.forall_mem_cons.1 h
      exact .cons (.one hc) (ih hw)

theorem matches_plus_one {p : Char → Bool} {w : List Char} :
    (plus (one p)).Matches w ↔ w ≠ [] ∧ ∀ c ∈ w, p c := by
  rw [plus, matches_seq]
  constructor
  · intro h
    obtain ⟨_, v, rfl, hu, hv⟩ := h
    obtain ⟨c, rfl, hc⟩ := matches_one.1 hu
    exact ⟨by simp, List.forall_mem_cons.2 ⟨hc, matches_star_one.1 hv⟩⟩
  · intro h
    obtain ⟨hne, h⟩ := h
    obtain ⟨c, v, rfl⟩ := List.exists_cons_of_ne_nil hne
    obtain ⟨hc, hv⟩ := List.forall_mem_cons.1 h
    exact ⟨[c], v, rfl, .one hc, matches_star_one.2 hv⟩

/-! ### Parts of declarations -/

/-- `[0-9]+` -/
def digits : Regex := plus (one Char.isDigit)

/-- `[eE][+-]?[0-9]+` -/
def exponent : Regex :=
  seq (one fun c => c == 'e' || c == 'E') (seq (opt (one fun c => c == '+' || c == '-')) digits)

/-- `\.[0-9]+([eE][+-]?[0-9]+)?` -/
def fraction : Regex := seq (just '.') (seq digits (opt exponent))

/-- `[^"\\\n]|\\.` between double quotes, and the like between single ones. -/
def quotedChar (quote : Char) : Regex :=
  alt (one fun c => c != quote && c != '\\' && c != '\n') (seq (just '\\') (one (· != '\n')))

/-- `[^*]|\*+[^*/]` -/
def commentPart : Regex :=
  alt (one (· != '*')) (seq (plus (just '*')) (one fun c => c != '*' && c != '/'))

theorem matches_digits {w : List Char} : digits.Matches w ↔ w ≠ [] ∧ ∀ c ∈ w, c.isDigit :=
  matches_plus_one

/-- An exponent is a mark, a sign or none, and digits. -/
theorem matches_exponent {w : List Char} :
    exponent.Matches w ↔ ∃ mark sign d, w = mark :: (sign ++ d) ∧ (mark = 'e' ∨ mark = 'E') ∧
      (sign = [] ∨ sign = ['+'] ∨ sign = ['-']) ∧ digits.Matches d := by
  have hsign : ∀ u : List Char, (opt (one fun c => c == '+' || c == '-')).Matches u ↔
      u = [] ∨ u = ['+'] ∨ u = ['-'] := by
    intro u
    rw [matches_opt, matches_one]
    constructor
    · intro h
      rcases h with ⟨c, rfl, hc⟩ | rfl
      · simpa [Bool.or_eq_true] using hc
      · exact .inl rfl
    · intro h
      rcases h with rfl | rfl | rfl
      · exact .inr rfl
      · exact .inl ⟨'+', rfl, rfl⟩
      · exact .inl ⟨'-', rfl, rfl⟩
  simp only [exponent, matches_seq, matches_one, hsign]
  constructor
  · intro h
    obtain ⟨_, _, rfl, ⟨mark, rfl, hmark⟩, sign, d, rfl, hs, hd⟩ := h
    exact ⟨mark, sign, d, rfl, by simpa [Bool.or_eq_true] using hmark, hs, hd⟩
  · intro h
    obtain ⟨mark, sign, d, rfl, hmark, hs, hd⟩ := h
    exact ⟨[mark], _, rfl, ⟨mark, rfl, by simpa [Bool.or_eq_true] using hmark⟩,
      sign, d, rfl, hs, hd⟩

/-- A fraction is a point, digits, and an exponent or nothing. -/
theorem matches_fraction {w : List Char} :
    fraction.Matches w ↔ ∃ d e, w = '.' :: (d ++ e) ∧ digits.Matches d ∧
      (exponent.Matches e ∨ e = []) := by
  simp only [fraction, matches_seq, matches_just, matches_opt]
  constructor
  · intro h
    obtain ⟨_, _, rfl, rfl, d, e, rfl, hd, he⟩ := h
    exact ⟨d, e, rfl, hd, he⟩
  · intro h
    obtain ⟨d, e, rfl, hd, he⟩ := h
    exact ⟨_, _, rfl, rfl, d, e, rfl, hd, he⟩

/-- A quoted character stands for itself or after a backslash. -/
theorem matches_quotedChar {quote : Char} {w : List Char} :
    (quotedChar quote).Matches w ↔
      (∃ c, w = [c] ∧ c ≠ quote ∧ c ≠ '\\' ∧ c ≠ '\n') ∨ ∃ c, w = ['\\', c] ∧ c ≠ '\n' := by
  simp only [quotedChar, matches_alt, matches_just_seq, matches_one, Bool.and_eq_true, bne_iff_ne,
    and_assoc]
  constructor
  · intro h
    rcases h with h | ⟨_, rfl, c, rfl, hc⟩
    · exact .inl h
    · exact .inr ⟨c, rfl, hc⟩
  · intro h
    rcases h with h | ⟨c, rfl, hc⟩
    · exact .inl h
    · exact .inr ⟨_, rfl, c, rfl, hc⟩

/-- A repeated character. -/
theorem matches_plus_just {c : Char} {w : List Char} :
    (plus (just c)).Matches w ↔ ∃ n, w = List.replicate (n + 1) c := by
  rw [just, matches_plus_one]
  constructor
  · intro h
    obtain ⟨hne, h⟩ := h
    refine ⟨w.length - 1, List.eq_replicate_iff.2 ⟨?_, fun d hd => eq_of_beq (h d hd)⟩⟩
    have := List.length_pos_iff.2 hne
    omega
  · intro h
    obtain ⟨n, rfl⟩ := h
    exact ⟨by simp, fun d hd => beq_iff_eq.2 (List.eq_of_mem_replicate hd)⟩

/-- A part of a block comment is a character other than a star, or stars and a character that
neither continues nor closes them. -/
theorem matches_commentPart {w : List Char} :
    commentPart.Matches w ↔ (∃ c, w = [c] ∧ c ≠ '*') ∨
      ∃ n c, w = List.replicate (n + 1) '*' ++ [c] ∧ c ≠ '*' ∧ c ≠ '/' := by
  simp only [commentPart, matches_alt, matches_one, matches_seq, matches_plus_just,
    Bool.and_eq_true, bne_iff_ne]
  constructor
  · intro h
    rcases h with h | ⟨_, _, rfl, ⟨n, rfl⟩, c, rfl, hc⟩
    · exact .inl h
    · exact .inr ⟨n, c, rfl, hc⟩
  · intro h
    rcases h with h | ⟨n, c, rfl, hc⟩
    · exact .inl h
    · exact .inr ⟨_, _, rfl, ⟨n, rfl⟩, c, rfl, hc⟩

end Regex

/-! ### The declarations -/

namespace Kind

open Regex

/-- The regular expressions that declare a kind. A kind with a fixed spelling is declared by it, and
the two kinds that no text matches by nothing. -/
def declared : Kind → List Regex
  | float => [seq digits fraction, fraction, seq digits exponent]
  | int => [digits]
  | str => [seq (just '"') (seq (star (quotedChar '"')) (just '"'))]
  | char => [seq (just '\'') (seq (quotedChar '\'') (just '\''))]
  | identifier => [seq (one isNameStart) (star (one isNamePart))]
  | lineComment => [seq (just '/') (seq (just '/') (star (one fun c => c != '\n' && c != '\r')))]
  | blockComment =>
    [seq (just '/') (seq (just '*') (seq (star commentPart) (seq (plus (just '*')) (just '/'))))]
  | whitespace => [plus (one isSpace)]
  | unknown | endOfInput => []
  | k => (k.spelling?.map fun s => literal s.toList).toList

/-- A word is a lexeme of a kind, by the declaration of the kind. -/
def Spells (k : Kind) (w : List Char) : Prop := ∃ r ∈ k.declared, r.Matches w

/-- Whether a kind is a reserved word: a keyword or a type. -/
def isReserved : Kind → Bool
  | keyword _ | type _ => true
  | _ => false

/-! ### The lexemes of each kind -/

/-- A kind with a single declaration has the lexemes of that expression. -/
theorem spells_iff_matches {k : Kind} {r : Regex} {w : List Char} (hd : k.declared = [r]) :
    k.Spells w ↔ r.Matches w := by
  simp only [Spells, hd, List.mem_singleton, exists_eq_left]

@[simp]
theorem not_spells_unknown (w : List Char) : ¬ unknown.Spells w := by
  rintro ⟨r, hr, -⟩
  exact List.not_mem_nil hr

@[simp]
theorem not_spells_endOfInput (w : List Char) : ¬ endOfInput.Spells w := by
  rintro ⟨r, hr, -⟩
  exact List.not_mem_nil hr

/-- A kind with a fixed spelling has that lexeme and no other. -/
theorem spells_fixed {k : Kind} {s : String} {w : List Char} (hk : k.spelling? = some s) :
    k.Spells w ↔ w = s.toList := by
  have hd : k.declared = [literal s.toList] := by
    cases k <;> simp_all [spelling?, declared]
  rw [spells_iff_matches hd, matches_literal]

theorem spells_int {w : List Char} : int.Spells w ↔ digits.Matches w :=
  spells_iff_matches rfl

theorem spells_float {w : List Char} :
    float.Spells w ↔ (∃ u v, w = u ++ v ∧ digits.Matches u ∧ fraction.Matches v) ∨
      fraction.Matches w ∨ ∃ u v, w = u ++ v ∧ digits.Matches u ∧ exponent.Matches v := by
  have hd : float.declared = [seq digits fraction, fraction, seq digits exponent] := rfl
  simp [Spells, hd, matches_seq]

theorem spells_str {w : List Char} :
    str.Spells w ↔ ∃ u, w = '"' :: (u ++ ['"']) ∧ (star (quotedChar '"')).Matches u := by
  rw [spells_iff_matches rfl]
  simp only [matches_seq, matches_just]
  constructor
  · intro h
    obtain ⟨_, _, rfl, rfl, u, _, rfl, hu, rfl⟩ := h
    exact ⟨u, rfl, hu⟩
  · intro h
    obtain ⟨u, rfl, hu⟩ := h
    exact ⟨_, _, rfl, rfl, u, _, rfl, hu, rfl⟩

theorem spells_char {w : List Char} :
    char.Spells w ↔ ∃ u, w = '\'' :: (u ++ ['\'']) ∧ (quotedChar '\'').Matches u := by
  rw [spells_iff_matches rfl]
  simp only [matches_seq, matches_just]
  constructor
  · intro h
    obtain ⟨_, _, rfl, rfl, u, _, rfl, hu, rfl⟩ := h
    exact ⟨u, rfl, hu⟩
  · intro h
    obtain ⟨u, rfl, hu⟩ := h
    exact ⟨_, _, rfl, rfl, u, _, rfl, hu, rfl⟩

theorem spells_identifier {w : List Char} :
    identifier.Spells w ↔ ∃ c u, w = c :: u ∧ isNameStart c ∧ ∀ d ∈ u, isNamePart d := by
  rw [spells_iff_matches rfl]
  simp only [matches_seq, matches_one, matches_star_one]
  constructor
  · intro h
    obtain ⟨_, u, rfl, ⟨c, rfl, hc⟩, hu⟩ := h
    exact ⟨c, u, rfl, hc, hu⟩
  · intro h
    obtain ⟨c, u, rfl, hc, hu⟩ := h
    exact ⟨[c], u, rfl, ⟨c, rfl, hc⟩, hu⟩

theorem spells_whitespace {w : List Char} :
    whitespace.Spells w ↔ w ≠ [] ∧ ∀ c ∈ w, isSpace c := by
  rw [spells_iff_matches rfl, matches_plus_one]

theorem spells_lineComment {w : List Char} :
    lineComment.Spells w ↔ ∃ u, w = '/' :: '/' :: u ∧ ∀ c ∈ u, (c != '\n' && c != '\r') := by
  rw [spells_iff_matches rfl]
  simp only [matches_just_seq, matches_star_one]
  constructor
  · intro h
    obtain ⟨_, rfl, u, rfl, hu⟩ := h
    exact ⟨u, rfl, hu⟩
  · intro h
    obtain ⟨u, rfl, hu⟩ := h
    exact ⟨_, rfl, u, rfl, hu⟩

theorem spells_blockComment {w : List Char} :
    blockComment.Spells w ↔ ∃ u n, w = '/' :: '*' :: (u ++ List.replicate (n + 1) '*' ++ ['/']) ∧
      (star commentPart).Matches u := by
  rw [spells_iff_matches rfl]
  simp only [matches_seq, matches_plus_just, matches_just]
  constructor
  · intro h
    obtain ⟨_, _, rfl, rfl, _, _, rfl, rfl, u, _, rfl, hu, _, _, rfl, ⟨n, rfl⟩, rfl⟩ := h
    exact ⟨u, n, by simp, hu⟩
  · intro h
    obtain ⟨u, n, rfl, hu⟩ := h
    exact ⟨_, _, rfl, rfl, _, _, rfl, rfl, u, _, by simp, hu, _, _, rfl, ⟨n, rfl⟩, rfl⟩

end Kind

end Scriptlet
