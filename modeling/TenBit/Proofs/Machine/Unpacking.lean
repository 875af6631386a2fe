/-
# Unpacking undoes packing

A word is packed by putting its fields side by side, the tag lowest. Reading a
field back gives what was put there, because no two fields overlap; and every
operation, mode, register, tag and address is found again from its code. So a
cell, read as the kind of word that was packed into it, is that word.

Key theorems: `Word.unpackTag_mk`, `Word.unpack_cell`.
-/
import TenBit.Machine.Word

namespace TenBit

/-! ### Codes -/

theorem Opcode.ofCode_code (o : Opcode) : ofCode o.code = o := by
  cases o <;> rfl

theorem Mode.ofCode_code (m : Mode) : ofCode m.code = m := by
  cases m <;> rfl

theorem Address.ofBits_bits (a : Address) : ofBits a.bits = a := by
  obtain ⟨n, h⟩ := a
  have hn : (BitVec.ofNat 8 n).toNat = n := by
    rw [BitVec.toNat_ofNat]
    exact Nat.mod_eq_of_lt h
  simp only [ofBits, bits, hn]

theorem Register.ofNumber?_code (r : Register) : ofNumber? r.code.toNat = some r := by
  obtain ⟨n⟩ := r
  revert n
  decide

namespace Word

theorem tagOfNat_code (t : Linkage) : tagOfNat t.code.toNat = .ok t := by
  cases t <;> rfl

theorem registerOfNat_code (r : Register) : registerOfNat r.code.toNat = .ok r := by
  rw [registerOfNat, Register.ofNumber?_code]

/-! ### Fields -/

/-- The tag stands below everything else. -/
theorem field_tag (v : BitVec 8) (t : BitVec 2) : (Cell.mk (v ++ t)).field 0 2 = t :=
  BitVec.extractLsb'_append_eq_right

/-- A field above the tag is a field of what stands above the tag. -/
theorem field_payload (v : BitVec 8) (t : BitVec 2) (shift width : Nat) :
    (Cell.mk (v ++ t)).field (shift + 2) width = v.extractLsb' shift width :=
  BitVec.extractLsb'_append_eq_of_le (Nat.le_add_left 2 shift)

theorem payload_value (v : BitVec 8) (t : BitVec 2) : (Cell.mk (v ++ t)).field 2 8 = v :=
  BitVec.extractLsb'_append_eq_left

/-- The upper of two halves above the tag. -/
theorem field_upper (a b : BitVec 4) (t : BitVec 2) : (Cell.mk (a ++ b ++ t)).field 6 4 = a :=
  (field_payload (a ++ b) t 4 4).trans BitVec.extractLsb'_append_eq_left

/-- The lower of two halves above the tag. -/
theorem field_lower (a b : BitVec 4) (t : BitVec 2) : (Cell.mk (a ++ b ++ t)).field 2 4 = b :=
  (field_payload (a ++ b) t 0 4).trans BitVec.extractLsb'_append_eq_right

theorem field_operation (o : BitVec 4) (s d t : BitVec 2) :
    (Cell.mk (o ++ s ++ d ++ t)).field 6 4 = o := by
  have h : BitVec.extractLsb' 4 4 (o ++ s ++ d) = BitVec.extractLsb' 2 4 (o ++ s) :=
    BitVec.extractLsb'_append_eq_of_le (by decide)
  exact (field_payload (o ++ s ++ d) t 4 4).trans (h.trans BitVec.extractLsb'_append_eq_left)

theorem field_source (o : BitVec 4) (s d t : BitVec 2) :
    (Cell.mk (o ++ s ++ d ++ t)).field 4 2 = s := by
  have h : BitVec.extractLsb' 2 2 (o ++ s ++ d) = BitVec.extractLsb' 0 2 (o ++ s) :=
    BitVec.extractLsb'_append_eq_of_le (by decide)
  exact (field_payload (o ++ s ++ d) t 2 2).trans (h.trans BitVec.extractLsb'_append_eq_right)

theorem field_destination (o : BitVec 4) (s d t : BitVec 2) :
    (Cell.mk (o ++ s ++ d ++ t)).field 2 2 = d :=
  (field_payload (o ++ s ++ d) t 0 2).trans BitVec.extractLsb'_append_eq_right

/-! ### Words -/

/-- The tag is read back, whatever stands above it. -/
theorem unpackTag_mk (v : BitVec 8) (t : Linkage) : unpackTag ⟨v ++ t.code⟩ = .ok t := by
  rw [unpackTag, field_tag, tagOfNat_code]

theorem unpackHigh_mk (r : Register) (b : BitVec 4) (t : BitVec 2) :
    unpackHigh ⟨r.code ++ b ++ t⟩ = .ok r := by
  rw [unpackHigh, field_upper, registerOfNat_code]

theorem unpackLow_mk (a : BitVec 4) (r : Register) (t : BitVec 2) :
    unpackLow ⟨a ++ r.code ++ t⟩ = .ok r := by
  rw [unpackLow, field_lower, registerOfNat_code]

/-- **A cell, read as the kind of word it was made from, is that word.** -/
theorem unpack_cell (w : Word) : unpack w.kind w.cell = .ok w := by
  cases w with
  | first o s d t =>
    have ht : unpackTag ⟨o.code ++ s.code ++ d.code ++ t.code⟩ = .ok t := unpackTag_mk _ t
    simp only [kind, cell, unpack]
    rw [ht, field_operation, field_source, field_destination, Opcode.ofCode_code, Mode.ofCode_code,
      Mode.ofCode_code]
    rfl
  | immediate v t =>
    simp only [kind, cell, unpack]
    rw [unpackTag_mk, payload_value]
    rfl
  | registers s d t =>
    have ht : unpackTag ⟨s.code ++ d.code ++ t.code⟩ = .ok t := unpackTag_mk _ t
    simp only [kind, cell, unpack]
    rw [unpackHigh_mk, unpackLow_mk, ht]
    rfl
  | address a t =>
    simp only [kind, cell, unpack]
    rw [unpackTag_mk, payload_value, Address.ofBits_bits]
    rfl
  | matrixRegisters r c t =>
    have ht : unpackTag ⟨r.code ++ c.code ++ t.code⟩ = .ok t := unpackTag_mk _ t
    simp only [kind, cell, unpack]
    rw [unpackHigh_mk, unpackLow_mk, ht]
    rfl
  | data c => rfl

end Word
end TenBit
