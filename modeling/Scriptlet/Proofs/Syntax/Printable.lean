import Scriptlet.Proofs.Decimal.Layout
import Scriptlet.Proofs.Grammar.Derivation
import Scriptlet.Proofs.Token.Lexing

/-!
# Scriptlet.Proofs.Syntax.Printable

**Trees that come from a text.** The grammar has no sign in front of a number and no name that is a
reserved word, so not every tree is the tree of some text: an integer literal is not negative, a
float literal is finite and has no sign, and names are words of the class of identifiers other than
the reserved ones. `Printable` collects these conditions. They hold of every tree that is derived
from the tokens of a text, since each token spells its own kind.
-/

namespace Scriptlet

/-- A word that is read as a name: it has the shape of one and is no reserved word. -/
structure IsName (x : String) : Prop where
  spells : Kind.identifier.Spells x.toList
  not_reserved : ∀ k : Kind, k.isReserved → ¬k.Spells x.toList

/-! ### Printable trees -/

mutual

/-- The literals and names of an expression can be written. -/
def Expr.Printable : Expr → Prop
  | .int n => 0 ≤ n.toInt
  | .float x => ∃ r < Decimal.infinityRank, x = Decimal.ofRank false r
  | .str _ => True
  | .bool _ => True
  | .var x => IsName x
  | .call f args => IsName f ∧ Expr.PrintableAll args
  | .binary l _ r => l.Printable ∧ r.Printable
  | .step _ _ e => e.Printable

def Expr.PrintableAll : List Expr → Prop
  | [] => True
  | a :: rest => a.Printable ∧ Expr.PrintableAll rest

end

mutual

/-- The expressions and names of a statement can be written. -/
def Stmt.Printable : Stmt → Prop
  | .init _ x e => IsName x ∧ e.Printable
  | .declare _ x => IsName x
  | .assign x e => IsName x ∧ e.Printable
  | .eval e => e.Printable
  | .branch c yes no => c.Printable ∧ Stmt.PrintableAll yes ∧ Stmt.PrintableAll no
  | .loop c body => c.Printable ∧ Stmt.PrintableAll body
  | .ret e => e.Printable

def Stmt.PrintableAll : List Stmt → Prop
  | [] => True
  | s :: rest => s.Printable ∧ Stmt.PrintableAll rest

end

/-- The names and the body of a function can be written. -/
structure Function.Printable (f : Function) : Prop where
  name : IsName f.name
  params : ∀ p ∈ f.params, IsName p.name
  body : Stmt.PrintableAll f.body

/-- The functions of a program can be written. -/
def Program.Printable (p : Program) : Prop :=
  ∀ f ∈ p, f.Printable

/-! ### Tokens of a text -/

/-- The lexeme of a token spells its kind, where the grammar looks at the lexeme. -/
structure Token.WellLexed (t : Token) : Prop where
  int : t.kind = .int → Regex.digits.Matches t.lexeme.toList
  float : t.kind = .float → Kind.float.Spells t.lexeme.toList
  name : t.kind = .identifier → IsName t.lexeme

theorem Best.wellLexed {k : Kind} {w cs : List Char} (h : Best k w cs) (offset : Nat) :
    Token.WellLexed ⟨k, String.ofList w, offset⟩ := by
  have hspells := h.spells
  refine ⟨?_, ?_, ?_⟩
  · rintro rfl
    exact Kind.spells_int.1 (by rwa [String.toList_ofList])
  · rintro rfl
    rwa [String.toList_ofList]
  · rintro rfl
    -- a reserved word of the same lexeme would have been preferred
    refine ⟨by rwa [String.toList_ofList], fun k hk hw => ?_⟩
    rw [String.toList_ofList] at hw
    rcases h.preferred k hw with rfl | hres
    · simp [Kind.isReserved] at hk
    · simp [Kind.isReserved] at hres

theorem Munched.wellLexed {offset : Nat} {cs : List Char} {ts : List Token}
    (h : Munched offset cs ts) : ∀ t ∈ ts, t.WellLexed := by
  induction h with
  | done => simpa using Token.WellLexed.mk (by simp) (by simp) (by simp)
  | shown hbest _ _ ih => exact List.forall_mem_cons.2 ⟨hbest.wellLexed _, ih⟩
  | passed _ _ _ ih => exact ih
  | unknown _ _ ih =>
    exact List.forall_mem_cons.2 ⟨⟨by simp, by simp, by simp⟩, ih⟩

theorem wellLexed_lex (source : String) : ∀ t ∈ Token.lex source, t.WellLexed :=
  (munched_lexFrom 0 source.toList).wellLexed

/-! ### Derived trees -/

namespace Grammar

mutual

theorem DerivesExpr.printable {ts : List Token} {e : Expr} (h : DerivesExpr ts e)
    (hts : ∀ t ∈ ts, t.WellLexed) : e.Printable := by
  match h with
  | .before ht ha => exact ha.printable (List.forall_mem_cons.1 hts).2
  | .after ha ht => exact ha.printable (List.forall_mem_append.1 hts).1
  | .chain ha ht he =>
    obtain ⟨hleft, hright⟩ := List.forall_mem_append.1 hts
    exact ⟨ha.printable hleft, he.printable (List.forall_mem_cons.1 hright).2⟩
  | .atom ha => exact ha.printable hts

theorem DerivesAtom.printable {ts : List Token} {a : Expr} (h : DerivesAtom ts a)
    (hts : ∀ t ∈ ts, t.WellLexed) : a.Printable := by
  match h with
  | .int ht hn => exact Decimal.nonneg_of_readInt64? ((hts _ (by simp)).int ht) hn
  | .float ht hx => exact Decimal.exists_rank_of_readFloat? ((hts _ (by simp)).float ht) hx
  | .str ht => trivial
  | .true ht => trivial
  | .false ht => trivial
  | .var ht => exact (hts _ (by simp)).name ht
  | .callNone hf hl hr => exact ⟨(hts _ (by simp)).name hf, trivial⟩
  | .call hf hl hargs hr =>
    obtain ⟨hname, hrest⟩ := List.forall_mem_cons.1 hts
    have hargsLexed := (List.forall_mem_append.1 (List.forall_mem_cons.1 hrest).2).1
    exact ⟨hname.name hf, hargs.printable hargsLexed⟩
  | .group hl he hr =>
    exact he.printable (List.forall_mem_append.1 (List.forall_mem_cons.1 hts).2).1

theorem DerivesArgs.printable {ts : List Token} {args : List Expr} (h : DerivesArgs ts args)
    (hts : ∀ t ∈ ts, t.WellLexed) : Expr.PrintableAll args := by
  match h with
  | .one he => exact ⟨he.printable hts, trivial⟩
  | .more he hc hes =>
    obtain ⟨hleft, hright⟩ := List.forall_mem_append.1 hts
    exact ⟨he.printable hleft, hes.printable (List.forall_mem_cons.1 hright).2⟩

end

mutual

theorem DerivesStmt.printable {ts : List Token} {s : Stmt} (h : DerivesStmt ts s)
    (hts : ∀ t ∈ ts, t.WellLexed) : s.Printable := by
  match h with
  | .init ht hx hq he hz =>
    simp only [List.forall_mem_cons, List.forall_mem_append] at hts
    exact ⟨hts.2.1.name hx, he.printable hts.2.2.2.1⟩
  | .declare ht hx hz =>
    simp only [List.forall_mem_cons] at hts
    exact hts.2.1.name hx
  | .assign hx hq he hz =>
    simp only [List.forall_mem_cons, List.forall_mem_append] at hts
    exact ⟨hts.1.name hx, he.printable hts.2.2.1⟩
  | .eval he hz => exact he.printable (List.forall_mem_append.1 hts).1
  | .branch hi hl hc hr hyes =>
    simp only [List.forall_mem_cons, List.forall_mem_append] at hts
    exact ⟨hc.printable hts.2.2.1, hyes.printable hts.2.2.2.2, trivial⟩
  | .branchElse hi hl hc hr hyes ho hno =>
    simp only [List.forall_mem_cons, List.forall_mem_append] at hts
    exact ⟨hc.printable hts.2.2.1, hyes.printable hts.2.2.2.2.1,
      hno.printable hts.2.2.2.2.2.2⟩
  | .loop hi hl hc hr hbody =>
    simp only [List.forall_mem_cons, List.forall_mem_append] at hts
    exact ⟨hc.printable hts.2.2.1, hbody.printable hts.2.2.2.2⟩
  | .ret hi he hz =>
    simp only [List.forall_mem_cons, List.forall_mem_append] at hts
    exact he.printable hts.2.1

theorem DerivesBlock.printable {ts : List Token} {ss : List Stmt} (h : DerivesBlock ts ss)
    (hts : ∀ t ∈ ts, t.WellLexed) : Stmt.PrintableAll ss := by
  match h with
  | .block hl hss hr =>
    exact hss.printable (List.forall_mem_append.1 (List.forall_mem_cons.1 hts).2).1

theorem DerivesStmts.printable {ts : List Token} {ss : List Stmt} (h : DerivesStmts ts ss)
    (hts : ∀ t ∈ ts, t.WellLexed) : Stmt.PrintableAll ss := by
  match h with
  | .nil => trivial
  | .cons hs hss =>
    obtain ⟨hleft, hright⟩ := List.forall_mem_append.1 hts
    exact ⟨hs.printable hleft, hss.printable hright⟩

end

theorem DerivesParams.printable {ts : List Token} {ps : List Param} (h : DerivesParams ts ps)
    (hts : ∀ t ∈ ts, t.WellLexed) : ∀ p ∈ ps, IsName p.name := by
  induction h with
  | one _ hx =>
    simp only [List.forall_mem_cons] at hts
    simpa using hts.2.1.name hx
  | more _ hx _ _ ih =>
    simp only [List.forall_mem_cons] at hts
    exact List.forall_mem_cons.2 ⟨hts.2.1.name hx, ih hts.2.2.2⟩

theorem DerivesDefinition.printable {ts : List Token} {f : Function} (h : DerivesDefinition ts f)
    (hts : ∀ t ∈ ts, t.WellLexed) : f.Printable := by
  cases h with
  | noParams _ hf _ _ hbody =>
    simp only [List.forall_mem_cons] at hts
    exact ⟨hts.2.1.name hf, by simp, hbody.printable hts.2.2.2.2⟩
  | params _ hf _ hps _ hbody =>
    simp only [List.forall_mem_cons, List.forall_mem_append] at hts
    exact ⟨hts.2.1.name hf, hps.printable hts.2.2.2.1, hbody.printable hts.2.2.2.2.2⟩

/-- **A program that the tokens of a text derive can be written.** -/
theorem DerivesProgram.printable {ts : List Token} {p : Program} (h : DerivesProgram ts p)
    (hts : ∀ t ∈ ts, t.WellLexed) : p.Printable := by
  induction h with
  | done _ => exact fun _ hf => absurd hf List.not_mem_nil
  | more hf _ ih =>
    obtain ⟨hleft, hright⟩ := List.forall_mem_append.1 hts
    exact List.forall_mem_cons.2 ⟨hf.printable hleft, ih hright⟩

end Grammar

end Scriptlet
