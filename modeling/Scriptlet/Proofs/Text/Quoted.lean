import Scriptlet.Proofs.Token.Regex
import Scriptlet.Text.Quoted

/-!
# Scriptlet.Proofs.Text.Quoted

**Quoting and its inverse.** The literal that is written for a text is a lexeme of the declared
class of string literals, and it stands for that text.
-/

namespace Scriptlet.Text

/-- Every escape means the character that it was written for. -/
theorem unescapeChars_escapeChar (c : Char) (cs : List Char) :
    unescapeChars (escapeChar c ++ cs) = c :: unescapeChars cs := by
  by_cases hq : c = '"'
  · subst hq
    rfl
  by_cases hb : c = '\\'
  · subst hb
    rfl
  by_cases hn : c = '\n'
  · subst hn
    rfl
  by_cases ht : c = '\t'
  · subst ht
    rfl
  by_cases hr : c = '\r'
  · subst hr
    rfl
  by_cases h0 : c = '\x00'
  · subst h0
    rfl
  simp only [escapeChar, if_neg hq, if_neg hb, if_neg hn, if_neg ht, if_neg hr, if_neg h0,
    List.singleton_append]
  rw [unescapeChars]
  · exact fun h => absurd h hb
  · exact fun _ _ h => absurd h hb

theorem unescapeChars_escapeChars (cs : List Char) : unescapeChars (escapeChars cs) = cs := by
  induction cs with
  | nil => rfl
  | cons c cs ih => rw [escapeChars_cons, unescapeChars_escapeChar, ih]

/-- **Reading a literal undoes writing it.** -/
theorem unquote_quote (s : String) : unquote (quote s) = s := by
  rw [unquote, quote, String.toList_ofList, stripQuotes_quoted, unescapeChars_escapeChars,
    String.ofList_toList]

/-- The written form of a character is one quoted character. -/
theorem matches_escapeChar (c : Char) : (Regex.quotedChar '"').Matches (escapeChar c) := by
  rw [Regex.matches_quotedChar]
  simp only [escapeChar]
  split
  · exact .inr ⟨_, rfl, by decide⟩
  split
  · exact .inr ⟨_, rfl, by decide⟩
  split
  · exact .inr ⟨_, rfl, by decide⟩
  split
  · exact .inr ⟨_, rfl, by decide⟩
  split
  · exact .inr ⟨_, rfl, by decide⟩
  split
  · exact .inr ⟨_, rfl, by decide⟩
  · exact .inl ⟨c, rfl, ‹_›, ‹_›, ‹_›⟩

theorem matches_escapeChars (cs : List Char) :
    (Regex.star (Regex.quotedChar '"')).Matches (escapeChars cs) := by
  induction cs with
  | nil => exact .nil
  | cons c cs ih =>
    rw [escapeChars_cons]
    exact .cons (matches_escapeChar c) ih

theorem spells_quote (s : String) : Kind.str.Spells (quote s).toList := by
  rw [quote, String.toList_ofList]
  exact Kind.spells_str.2 ⟨escapeChars s.toList, rfl, matches_escapeChars s.toList⟩

end Scriptlet.Text
