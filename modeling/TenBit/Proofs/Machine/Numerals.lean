/-
# Numerals are read back

A value has a numeral of width `w` exactly if it is below `4 ^ w`. The numeral
has `w` letters, and its letters, taken from the left, build up the value again.
So the address and the contents of a cell are known from what an object file
says about it.

Key theorems: `Quaternary.fits_iff`, `Quaternary.valueFrom_letters`,
`Quaternary.decode_letters`, `Address.decode_letters`, `Cell.decode_letters`.
-/
import Mathlib.Algebra.Group.Nat.Defs
import TenBit.Machine.Address
import TenBit.Machine.Cell

namespace TenBit
namespace Quaternary

/-- **The values that have a numeral of width `w`.** -/
theorem fits_iff : ∀ {w v : Nat}, fits w v = true ↔ v < 4 ^ w
  | 0, v => by simp [fits]
  | w + 1, v => by
    have hrest : v / 4 < 4 ^ w ↔ v < 4 ^ (w + 1) := by
      rw [Nat.pow_succ]
      exact Nat.div_lt_iff_lt_mul (by decide)
    have hpos : 0 < 4 ^ (w + 1) := Nat.pow_pos (by decide)
    rw [fits, Bool.or_eq_true, fits_iff, hrest, beq_iff_eq]
    omega

theorem length_letters : ∀ w v : Nat, (letters w v).length = w
  | 0, _ => rfl
  | w + 1, v => by
    rw [letters, List.length_append, length_letters w (v / 4)]
    rfl

theorem digit?_letter (d : Nat) : digit? (letter d) = some (d % 4) := by
  have hlt : d % 4 < 4 := Nat.mod_lt d (by decide)
  unfold letter
  generalize d % 4 = r at hlt
  match r, hlt with
  | 0, _ => rfl
  | 1, _ => rfl
  | 2, _ => rfl
  | 3, _ => rfl

/-- A numeral behind digits worth `u`, with more letters behind it. -/
theorem valueFrom_letters (u : Nat) : ∀ {w v : Nat} (cs : Text), v < 4 ^ w →
    valueFrom u (letters w v ++ cs) = valueFrom (u * 4 ^ w + v) cs
  | 0, v, cs, h => by
    have hzero : v = 0 := by simpa using h
    simp [letters, hzero]
  | w + 1, v, cs, h => by
    have hrest : v / 4 < 4 ^ w := by
      rw [Nat.pow_succ] at h
      exact Nat.div_lt_of_lt_mul (by omega)
    have hvalue : 4 * (u * 4 ^ w + v / 4) + v % 4 = u * 4 ^ (w + 1) + v := by
      rw [Nat.pow_succ, ← Nat.mul_assoc]
      omega
    rw [letters, List.append_assoc, valueFrom_letters u _ hrest, List.singleton_append, valueFrom,
      digit?_letter]
    simp only [hvalue]

/-- **A numeral is read back.** -/
theorem decode_letters {w v : Nat} (hw : 0 < w) (hmax : w ≤ maxLength) (h : v < 4 ^ w) :
    decode (letters w v) = .ok v := by
  have hlength := length_letters w v
  have hne : letters w v ≠ [] := fun he => by
    rw [he, List.length_nil] at hlength
    omega
  have hvalue := valueFrom_letters 0 [] h
  rw [List.append_nil, Nat.zero_mul, Nat.zero_add] at hvalue
  rw [decode, if_neg (by simpa using hne), if_neg (by omega), hvalue, valueFrom]

/-- A numeral is made of the four letters. -/
theorem not_mem_letters {c : Char} (hc : digit? c = none) : ∀ w v : Nat, c ∉ letters w v
  | 0, _ => List.not_mem_nil
  | w + 1, v => by
    rw [letters, List.mem_append, List.mem_singleton]
    rintro (h | rfl)
    · exact not_mem_letters hc w (v / 4) h
    · rw [digit?_letter] at hc
      cases hc

/-- The last letter is that of the lowest digit. -/
theorem getLast?_letters (w v : Nat) : (letters (w + 1) v).getLast? = some (letter v) := by
  rw [letters, List.getLast?_concat]

end Quaternary

theorem Address.length_letters (a : Address) : a.letters.length = 4 := Quaternary.length_letters 4 _

theorem Address.decode_letters (a : Address) : Quaternary.decode a.letters = .ok a.toNat :=
  Quaternary.decode_letters (by decide) (by decide) a.isLt

theorem Address.eq_of_letters {a b : Address} (h : a.letters = b.letters) : a = b := by
  have hdecode := a.decode_letters
  rw [h, b.decode_letters] at hdecode
  exact eq_of_toNat (Except.ok.inj hdecode).symm

theorem Cell.length_letters (c : Cell) : c.letters.length = 5 := Quaternary.length_letters 5 _

theorem Cell.decode_letters (c : Cell) : Quaternary.decode c.letters = .ok c.toNat :=
  Quaternary.decode_letters (by decide) (by decide) c.bits.isLt

theorem Cell.eq_of_toNat {c c' : Cell} (h : c.toNat = c'.toNat) : c = c' := by
  obtain ⟨b⟩ := c
  obtain ⟨b'⟩ := c'
  exact congrArg Cell.mk (BitVec.eq_of_toNat_eq h)

end TenBit
