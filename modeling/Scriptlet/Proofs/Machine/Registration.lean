import Mathlib.Data.List.Nodup
import Scriptlet.Machine.Run

/-!
# Scriptlet.Proofs.Machine.Registration

**Adding functions to a machine.** The functions of a program are all added exactly if their names
are new, distinct and not built in. Then a name means the one function that has it, wherever it
stands in the program.
-/

namespace Scriptlet

/-- The function that a program defines under a name. -/
def Program.function? (p : Program) (name : String) : Option Function :=
  p.find? (·.name = name)

theorem Program.of_function?_eq_some {p : Program} {name : String} {f : Function}
    (h : p.function? name = some f) : f ∈ p ∧ f.name = name := by
  rw [function?] at h
  exact ⟨List.mem_of_find?_eq_some h, by simpa using List.find?_some h⟩

/-- A name that is not taken twice finds its function. -/
theorem find?_of_nodup {p : Program} {f : Function} (hnodup : (p.map Function.name).Nodup)
    (hf : f ∈ p) : p.find? (·.name = f.name) = some f := by
  cases hfind : p.find? (·.name = f.name) with
  | none => exact absurd (decide_eq_true rfl) (List.find?_eq_none.1 hfind f hf)
  | some g =>
    have hname : g.name = f.name := by simpa using List.find?_some hfind
    rw [List.inj_on_of_nodup_map hnodup (List.mem_of_find?_eq_some hfind) hf hname]

/-- Among functions with distinct names a name means the function that has it. -/
theorem Program.function?_eq_some_iff {p : Program} (hnodup : (p.map Function.name).Nodup)
    {name : String} {f : Function} : p.function? name = some f ↔ f ∈ p ∧ f.name = name := by
  refine ⟨of_function?_eq_some, fun h => ?_⟩
  obtain ⟨hf, rfl⟩ := h
  exact find?_of_nodup hnodup hf

/-- Functions with distinct new names are all added. -/
theorem register_of_nodup {q : Program} (hnodup : (q.map Function.name).Nodup)
    (hbuiltin : ∀ f ∈ q, Builtin.isName f.name = false) :
    ∀ {m : Machine}, (∀ f ∈ q, m.function? f.name = none) →
      register q m = .done () { m with functions := m.functions ++ q } := by
  induction q with
  | nil =>
    intro m _
    rw [List.append_nil]
    rfl
  | cons f rest ih =>
    intro m hnew
    obtain ⟨hfresh, hnodup⟩ := List.nodup_cons.1 hnodup
    obtain ⟨hf, hrest⟩ := List.forall_mem_cons.1 hbuiltin
    obtain ⟨hfnew, hnew⟩ := List.forall_mem_cons.1 hnew
    simp only [register, hf, hfnew, Bool.false_eq_true, if_false, Option.isSome_none]
    refine (ih hnodup hrest fun g hg => ?_).trans ?_
    · have hne : f.name ≠ g.name := fun heq => hfresh (List.mem_map.2 ⟨g, hg, heq.symm⟩)
      rw [Machine.function?, List.find?_append, ← Machine.function?, hnew g hg,
        List.find?_cons_of_neg (by simpa using hne)]
      rfl
    · rw [List.append_assoc]
      rfl

/-- If functions are added, they are all added, and their names are distinct, not built in and were
not taken. -/
theorem register_eq_done {p : Program} {m m' : Machine} (h : register p m = .done () m') :
    m' = { m with functions := m.functions ++ p } ∧ (p.map Function.name).Nodup ∧
      ∀ f ∈ p, Builtin.isName f.name = false ∧ m.function? f.name = none := by
  induction p generalizing m with
  | nil =>
    cases h
    exact ⟨by rw [List.append_nil], List.nodup_nil, nofun⟩
  | cons f rest ih =>
    simp only [register] at h
    split at h
    · cases h
    rename_i hbuiltin
    split at h
    · cases h
    rename_i hfree
    obtain ⟨rfl, hnodup, hnew⟩ := ih h
    have hfind (g : Function) (hg : g ∈ rest) :
        m.function? g.name = none ∧ f.name ≠ g.name := by
      have hnone := (hnew g hg).2
      rw [Machine.function?, List.find?_append, Option.or_eq_none_iff] at hnone
      exact ⟨hnone.1, by simpa using hnone.2⟩
    refine ⟨by rw [List.append_assoc]; rfl, List.nodup_cons.2 ⟨?_, hnodup⟩, ?_⟩
    · intro hmem
      obtain ⟨g, hg, heq⟩ := List.mem_map.1 hmem
      exact (hfind g hg).2 heq.symm
    · refine List.forall_mem_cons.2 ⟨⟨by simpa using hbuiltin, ?_⟩, fun g hg =>
        ⟨(hnew g hg).1, (hfind g hg).1⟩⟩
      rwa [Bool.not_eq_true, Option.isSome_eq_false_iff, Option.isNone_iff_eq_none] at hfree

end Scriptlet
