import Mathlib.Data.String.Basic

/-!
# Scriptlet.Proofs.Text.Utf8

**UTF-8 keeps the order of texts.** Texts are ordered like the lists of their characters, and
characters by their scalar values. The bytes of two encoded texts are ordered in the same way,
although the codes of characters differ in length.

A code is a first byte and continuation bytes. The continuation bytes are the last digits of the
scalar value to base 64, the highest first, and the first byte holds the rest of it. The first byte
also says how many bytes follow, and it is the larger the more there are. So of two codes the first
byte that differs decides, and it decides like the scalar values do.
-/

namespace Scriptlet.Text

/-! ### Codes of characters -/

/-- The last `k` digits of a number to base 64 as continuation bytes, the highest first. -/
def continuation (v : Nat) : Nat → List UInt8
  | 0 => []
  | k + 1 => UInt8.ofNat (v / 64 ^ k % 64 + 0x80) :: continuation v k

/-- The number of continuation bytes in the code of a scalar value. -/
def continuationLength (v : Nat) : Nat :=
  if v < 0x80 then 0 else if v < 0x800 then 1 else if v < 0x10000 then 2 else 3

/-- The part of a first byte that says how many bytes follow. -/
def lengthMark : Nat → Nat
  | 0 => 0
  | 1 => 0xc0
  | 2 => 0xe0
  | _ => 0xf0

/-- The first byte in the code of a scalar value. -/
def firstByte (v : Nat) : Nat :=
  v / 64 ^ continuationLength v + lengthMark (continuationLength v)

/-- The four lengths of a code. -/
theorem code_cases {v : Nat} (hv : v < 0x110000) :
    (v < 0x80 ∧ continuationLength v = 0 ∧ firstByte v = v) ∨
    (0x80 ≤ v ∧ v < 0x800 ∧ continuationLength v = 1 ∧ firstByte v = v / 64 + 0xc0) ∨
    (0x800 ≤ v ∧ v < 0x10000 ∧ continuationLength v = 2 ∧ firstByte v = v / 4096 + 0xe0) ∨
    (0x10000 ≤ v ∧ v < 0x110000 ∧ continuationLength v = 3 ∧ firstByte v = v / 262144 + 0xf0) := by
  have hlength : continuationLength v =
    if v < 0x80 then 0 else if v < 0x800 then 1 else if v < 0x10000 then 2 else 3 := rfl
  rw [firstByte]
  split at hlength
  · rw [hlength, Nat.pow_zero, Nat.div_one]
    exact .inl ⟨‹_›, rfl, rfl⟩
  split at hlength
  · rw [hlength]
    exact .inr (.inl ⟨by omega, ‹_›, rfl, rfl⟩)
  split at hlength
  · rw [hlength]
    exact .inr (.inr (.inl ⟨by omega, ‹_›, rfl, rfl⟩))
  · rw [hlength]
    exact .inr (.inr (.inr ⟨by omega, hv, rfl, rfl⟩))

theorem toNat_lt_max (c : Char) : c.toNat < 0x110000 := by
  obtain h | h := c.valid
  · exact Nat.lt_trans h (by decide)
  · exact h.2

/-- The code of a character is its first byte and its continuation bytes. -/
theorem utf8EncodeChar_eq (c : Char) :
    String.utf8EncodeChar c =
      UInt8.ofNat (firstByte c.toNat) :: continuation c.toNat (continuationLength c.toNat) := by
  have hval : c.val.toNat = c.toNat := rfl
  simp only [String.utf8EncodeChar, hval]
  obtain ⟨h, hlength, hfirst⟩ | ⟨h, h', hlength, hfirst⟩ | ⟨h, h', hlength, hfirst⟩ |
    ⟨h, h', hlength, hfirst⟩ := code_cases (toNat_lt_max c)
  · rw [hlength, hfirst, if_pos (by omega)]
    rfl
  · rw [hlength, hfirst, if_neg (by omega), if_pos (by omega),
      Nat.mod_eq_of_lt (by omega : c.toNat / 64 < 0x20)]
    simp only [continuation, Nat.pow_zero, Nat.div_one]
  · rw [hlength, hfirst, if_neg (by omega), if_neg (by omega), if_pos (by omega),
      Nat.mod_eq_of_lt (by omega : c.toNat / 4096 < 0x10)]
    simp only [continuation, Nat.pow_zero, Nat.div_one, Nat.pow_one]
  · rw [hlength, hfirst, if_neg (by omega), if_neg (by omega), if_neg (by omega),
      Nat.mod_eq_of_lt (by omega : c.toNat / 262144 < 0x08)]
    simp only [continuation, Nat.pow_zero, Nat.div_one, Nat.pow_one, Nat.reducePow]

/-! ### The order of codes -/

theorem ofNat_lt_ofNat {a b : Nat} (h : a < b) (hb : b < 256) :
    UInt8.ofNat a < UInt8.ofNat b := by
  rw [UInt8.lt_iff_toNat_lt, UInt8.toNat_ofNat_of_lt' hb, UInt8.toNat_ofNat_of_lt' (h.trans hb)]
  exact h

/-- Of two numbers the first digit that differs decides, whatever follows the digits. -/
theorem continuation_append_lt {k v w : Nat} (h : v % 64 ^ k < w % 64 ^ k) (xs ys : List UInt8) :
    continuation v k ++ xs < continuation w k ++ ys := by
  induction k with
  | zero => simp only [Nat.pow_zero, Nat.mod_one, Nat.lt_irrefl] at h
  | succ k ih =>
    rw [Nat.pow_succ, Nat.mod_mul, Nat.mod_mul] at h
    rw [continuation, continuation, List.cons_append, List.cons_append, List.cons_lt_cons_iff]
    obtain hlt | heq | hgt := Nat.lt_trichotomy (v / 64 ^ k % 64) (w / 64 ^ k % 64)
    · exact .inl (ofNat_lt_ofNat (Nat.add_lt_add_right hlt _) (by omega))
    · rw [heq] at h ⊢
      exact .inr ⟨rfl, ih (Nat.lt_of_add_lt_add_right h)⟩
    · -- a larger digit outweighs all that follow it
      have hrest : w % 64 ^ k < 64 ^ k := Nat.mod_lt _ (Nat.pow_pos (by decide))
      have hdigit := Nat.mul_le_mul_left (64 ^ k) hgt
      rw [Nat.mul_succ] at hdigit
      omega

theorem firstByte_lt_max {v : Nat} (hv : v < 0x110000) : firstByte v < 256 := by
  obtain h | h | h | h := code_cases hv <;> omega

theorem continuationLength_mono {v w : Nat} (h : v < w) (hw : w < 0x110000) :
    continuationLength v ≤ continuationLength w := by
  obtain h' | h' | h' | h' := code_cases (h.trans hw) <;>
    obtain h'' | h'' | h'' | h'' := code_cases hw <;> omega

/-- The longer code has the larger first byte. -/
theorem firstByte_lt_of_length_lt {v w : Nat} (hv : v < 0x110000) (hw : w < 0x110000)
    (h : continuationLength v < continuationLength w) : firstByte v < firstByte w := by
  obtain h' | h' | h' | h' := code_cases hv <;> obtain h'' | h'' | h'' | h'' := code_cases hw <;>
    omega

/-- **The codes of two characters** are ordered like the characters, whatever follows them. -/
theorem utf8EncodeChar_append_lt {c d : Char} (h : c < d) (xs ys : List UInt8) :
    String.utf8EncodeChar c ++ xs < String.utf8EncodeChar d ++ ys := by
  have hlt : c.toNat < d.toNat := h
  have hc := toNat_lt_max c
  have hd := toNat_lt_max d
  rw [utf8EncodeChar_eq, utf8EncodeChar_eq, List.cons_append, List.cons_append,
    List.cons_lt_cons_iff]
  obtain hlength | hlength := Nat.lt_or_eq_of_le (continuationLength_mono hlt hd)
  · exact .inl (ofNat_lt_ofNat (firstByte_lt_of_length_lt hc hd hlength) (firstByte_lt_max hd))
  · have hdiv : c.toNat / 64 ^ continuationLength d.toNat ≤
        d.toNat / 64 ^ continuationLength d.toNat := Nat.div_le_div_right hlt.le
    obtain hdigit | hdigit := Nat.lt_or_eq_of_le hdiv
    · refine .inl (ofNat_lt_ofNat ?_ (firstByte_lt_max hd))
      rw [firstByte, firstByte, hlength]
      exact Nat.add_lt_add_right hdigit _
    · refine .inr ⟨by rw [firstByte, firstByte, hlength, hdigit], ?_⟩
      rw [hlength]
      refine continuation_append_lt ?_ xs ys
      have hsum := Nat.div_add_mod c.toNat (64 ^ continuationLength d.toNat)
      have hsum' := Nat.div_add_mod d.toNat (64 ^ continuationLength d.toNat)
      rw [hdigit] at hsum
      omega

/-! ### The order of texts -/

theorem flatMap_utf8EncodeChar_lt {cs ds : List Char} (h : cs < ds) :
    cs.flatMap String.utf8EncodeChar < ds.flatMap String.utf8EncodeChar := by
  induction h with
  | @nil d ds =>
    rw [List.flatMap_nil, List.flatMap_cons, utf8EncodeChar_eq]
    exact .nil
  | @cons c cs ds _ ih =>
    rw [List.flatMap_cons, List.flatMap_cons]
    exact List.append_left_lt ih
  | @rel c cs d ds h =>
    rw [List.flatMap_cons, List.flatMap_cons]
    exact utf8EncodeChar_append_lt h _ _

theorem toList_data_toUTF8 (s : String) :
    s.toUTF8.data.toList = s.toList.flatMap String.utf8EncodeChar := by
  rw [String.toUTF8_eq_toByteArray, ← String.ofList_toList (s := s), String.toByteArray_ofList,
    String.toList_ofList]
  exact List.toList_data_toByteArray

/-- What keeps the order of texts also reflects it. -/
theorem lt_iff_of_mono {α : Type} [LT α] [Std.Asymm (α := α) (· < ·)] {f : String → List α}
    (hmono : ∀ {s t : String}, s < t → f s < f t) {s t : String} : f s < f t ↔ s < t := by
  refine ⟨fun h => ?_, hmono⟩
  obtain hlt | rfl | hgt := lt_trichotomy s t
  · exact hlt
  · exact absurd h (List.lt_irrefl _)
  · exact absurd h (List.lt_asymm (hmono hgt))

/-- **Bytes are ordered like texts.** -/
theorem toUTF8_lt_iff {s t : String} : s.toUTF8.data.toList < t.toUTF8.data.toList ↔ s < t := by
  refine lt_iff_of_mono (f := fun s => s.toUTF8.data.toList) fun {s t} h => ?_
  rw [toList_data_toUTF8, toList_data_toUTF8]
  exact flatMap_utf8EncodeChar_lt (String.lt_iff_toList_lt.1 h)

/-- **Scalar values are ordered like texts.** -/
theorem map_toNat_lt_iff {s t : String} :
    s.toList.map Char.toNat < t.toList.map Char.toNat ↔ s < t :=
  lt_iff_of_mono (f := fun s => s.toList.map Char.toNat) fun h =>
    List.map_lt (fun _ _ hlt => hlt) (String.lt_iff_toList_lt.1 h)

end Scriptlet.Text
