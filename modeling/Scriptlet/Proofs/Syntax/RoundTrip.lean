import Scriptlet.Evaluate
import Scriptlet.Proofs.Grammar.Complete
import Scriptlet.Proofs.Syntax.Spelling

/-!
# Scriptlet.Proofs.Syntax.RoundTrip

**Parsing, printing, parsing.** The canonical text of a program that was read from a text is read as
the same program. So the canonical text is its own canonical text, and it evaluates as the text that
it came from.
-/

namespace Scriptlet

open Grammar

/-- A program that is read from a text can be written. -/
theorem printable_of_parse {source : String} {p : Program} (h : Program.parse source = .ok p) :
    p.Printable := by
  obtain ⟨rest, hread⟩ := result_eq_ok_iff.1 h
  obtain ⟨us, hus, hp⟩ := definitions_reads _ _ _ _ _ hread
  refine hp.printable fun t ht => wellLexed_lex source t ?_
  rw [hus]
  exact List.mem_append_left rest ht

/-- The canonical text of a printable program is read as that program. -/
theorem parse_print {p : Program} (hp : p.Printable) : Program.parse p.print = .ok p := by
  obtain ⟨ts, hts, hlex⟩ := Program.cuts p hp [] 0
  have hderives := hts [⟨.endOfInput, "", 0 + p.print.utf8ByteSize⟩] [] (.done rfl)
  have hread := hderives.readProgram_eq []
  rw [List.append_nil, List.append_nil] at hread
  rw [List.append_nil] at hlex
  refine result_eq_ok_iff.2 ⟨[], ?_⟩
  rw [Token.lex, hlex]
  exact hread

/-- **Round trip.** Printing a program that was read from a text and reading it again gives the same
program; so formatting changes nothing the second time, and it changes no evaluation. -/
theorem parse_print_parse :
    (∀ (source : String) (p : Program),
        Program.parse source = .ok p → Program.parse p.print = .ok p) ∧
      ∀ (source text : String), Program.format source = .ok text →
        Program.format text = .ok text ∧
          ∀ (fuel : Nat) (options : Options),
            evaluate fuel options text = evaluate fuel options source := by
  have hround : ∀ (source : String) (p : Program),
      Program.parse source = .ok p → Program.parse p.print = .ok p :=
    fun _ _ h => parse_print (printable_of_parse h)
  refine ⟨hround, ?_⟩
  intro source text h
  cases hparse : Program.parse source with
  | error e =>
    rw [Program.format, hparse] at h
    cases h
  | ok p =>
    rw [Program.format, hparse] at h
    cases h
    have hprint := hround source p hparse
    refine ⟨by rw [Program.format, hprint]; rfl, fun fuel options => ?_⟩
    rw [evaluate, evaluate, hprint, hparse]

/-- The round trip at a text whose first parentheses have to stay and whose others may go. -/
theorem parse_print_parse_operands :
    ∃ p : Program, Program.parse "void f()\x7b(1-2)-(a--);\x7d" = .ok p ∧
      p = [⟨.void, "f", [], [.eval
        (.binary (.binary (.int 1) .sub (.int 2)) .sub (.step .decrement .after (.var "a")))]⟩] ∧
      Program.parse p.print = .ok p ∧ Program.format p.print = .ok p.print ∧
      ∀ (fuel : Nat) (options : Options), evaluate fuel options p.print =
        evaluate fuel options "void f()\x7b(1-2)-(a--);\x7d" := by
  have hlex : Token.lex "void f()\x7b(1-2)-(a--);\x7d" =
      [⟨.type .void, "void", 0⟩, ⟨.identifier, "f", 5⟩, ⟨.mark .openParen, "(", 6⟩,
        ⟨.mark .closeParen, ")", 7⟩, ⟨.mark .openBrace, "\x7b", 8⟩, ⟨.mark .openParen, "(", 9⟩,
        ⟨.int, "1", 10⟩, ⟨.operator .sub, "-", 11⟩, ⟨.int, "2", 12⟩,
        ⟨.mark .closeParen, ")", 13⟩, ⟨.operator .sub, "-", 14⟩, ⟨.mark .openParen, "(", 15⟩,
        ⟨.identifier, "a", 16⟩, ⟨.step .decrement, "--", 17⟩, ⟨.mark .closeParen, ")", 19⟩,
        ⟨.mark .semicolon, ";", 20⟩, ⟨.mark .closeBrace, "\x7d", 21⟩,
        ⟨.endOfInput, "", 22⟩] := by decide +kernel
  have hparse : Program.parse "void f()\x7b(1-2)-(a--);\x7d" = .ok [⟨.void, "f", [], [.eval
      (.binary (.binary (.int 1) .sub (.int 2)) .sub (.step .decrement .after (.var "a")))]⟩] := by
    rw [Program.parse, hlex]
    rfl
  obtain ⟨hformat, heval⟩ := parse_print_parse.2 _ _ (by rw [Program.format, hparse]; rfl)
  exact ⟨_, hparse, rfl, parse_print_parse.1 _ _ hparse, hformat, heval⟩

end Scriptlet
