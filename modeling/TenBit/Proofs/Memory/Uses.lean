/-
# Where names are used

An instruction has its first word, then the words of its source and then those
of its destination, and the first word of an operand that has a name is the one
for the name. So the words of the code that stand for names can be pointed out
in the outline of a program, without looking at the slots. The slots are just
there, and the uses of external names are recorded in their order.

Key definitions: `Instruction.UsesAt`, `Word.Fixed`, `Outline.UsedAt`.
Key theorems: `Instruction.getElem?_slots_iff`, `Instruction.fixed_of_mem_slots`,
`Outline.getElem?_slots_iff`, `Slot.mem_references_iff`,
`Slot.references_ascending`.
-/
import TenBit.Proofs.Memory.Encoding

namespace TenBit

/-! ### Inside an instruction -/

/-- A word of code that does not depend on where names are. -/
def Word.Fixed (w : Word) : Prop := w.tag = .absolute ∧ w.kind ≠ .data

/-- Word `j` of the instruction stands for an operand with the given name. -/
def Instruction.UsesAt (i : Instruction) (name : Text) (j : Nat) : Prop :=
  (∃ o, i.source = some o ∧ o.operand.name? = some name ∧ j = 1) ∨
    ∃ o, i.destination = some o ∧ o.operand.name? = some name ∧ j = 1 + wordsOf i.source

theorem Operand.getElem?_slots_iff (lone : Register → Word) {o : Operand} {j : Nat} {n : Text} :
    (o.slots lone)[j]? = some (.reference n) ↔ o.name? = some n ∧ j = 0 := by
  cases o with
  | immediate v => cases j <;> simp [slots, name?]
  | direct m => cases j <;> simp [slots, name?]
  | register r => cases j <;> simp [slots, name?]
  | matrix m r c =>
    match j with
    | 0 => simp [slots, name?]
    | 1 => simp [slots, name?]
    | j + 2 => simp [slots, name?]

theorem Operand.wordCount_pos (o : Operand) : 0 < o.wordCount := by
  cases o <;> exact Nat.succ_pos _

namespace Instruction

theorem getElem?_slotsOf_iff (lone : Register → Word) {o : Option WrittenOperand} {j : Nat}
    {n : Text} : (slotsOf lone o)[j]? = some (.reference n) ↔
      ∃ w, o = some w ∧ w.operand.name? = some n ∧ j = 0 := by
  cases o with
  | none => simp [slotsOf]
  | some w => simp [slotsOf, Operand.getElem?_slots_iff]

/-- The slots of two registers hold no name, and neither have the registers one. -/
theorem not_usesAt_of_shared {i : Instruction} {s d : Register}
    (h : i.sharedRegisters? = some (s, d)) (n : Text) (j : Nat) : ¬ i.UsesAt n j := by
  obtain ⟨hsource, hdestination⟩ := sharedRegisters?_eq_some_iff.1 h
  rintro (⟨o, ho, hn, -⟩ | ⟨o, ho, hn, -⟩)
  · rw [ho, Option.map_some, Option.some.injEq] at hsource
    rw [hsource] at hn
    cases hn
  · rw [ho, Option.map_some, Option.some.injEq] at hdestination
    rw [hdestination] at hn
    cases hn

/-- **Which words of an instruction stand for names.** -/
theorem getElem?_slots_iff {i : Instruction} {j : Nat} {n : Text} :
    i.slots[j]? = some (.reference n) ↔ i.UsesAt n j := by
  cases hshared : i.sharedRegisters? with
  | some registers =>
    have hnone := not_usesAt_of_shared hshared n j
    refine iff_of_false (fun h => ?_) hnone
    rw [slots, operandSlots, hshared] at h
    match j with
    | 0 => cases h
    | 1 => cases h
    | j + 2 => cases h
  | none =>
    rw [slots, operandSlots, hshared]
    cases j with
    | zero =>
      refine iff_of_false nofun ?_
      rintro (⟨o, -, -, hj⟩ | ⟨o, -, -, hj⟩) <;> omega
    | succ j =>
      simp only [List.getElem?_cons_succ]
      rw [List.getElem?_append]
      split
      · rename_i hlt
        rw [getElem?_slotsOf_iff]
        constructor
        · rintro ⟨w, hw, hn, hj⟩
          exact .inl ⟨w, hw, hn, by omega⟩
        · rintro (⟨w, hw, hn, hj⟩ | ⟨w, -, -, hj⟩)
          · exact ⟨w, hw, hn, by omega⟩
          · rw [length_slotsOf] at hlt
            omega
      · rename_i hge
        rw [getElem?_slotsOf_iff, length_slotsOf]
        rw [length_slotsOf] at hge
        constructor
        · rintro ⟨w, hw, hn, hj⟩
          exact .inr ⟨w, hw, hn, by omega⟩
        · rintro (⟨w, hw, hn, hj⟩ | ⟨w, hw, hn, hj⟩)
          · -- the source has a word, so word 0 of the operands is not behind it
            have hpos : 0 < wordsOf i.source := by
              rw [hw]
              exact w.operand.wordCount_pos
            omega
          · exact ⟨w, hw, hn, by omega⟩

end Instruction

theorem Word.fixed_sourceRegister (r : Register) : (sourceRegister r).Fixed :=
  ⟨rfl, WordKind.noConfusion⟩

theorem Word.fixed_destinationRegister (r : Register) : (destinationRegister r).Fixed :=
  ⟨rfl, WordKind.noConfusion⟩

theorem Operand.fixed_of_mem_slots {lone : Register → Word} (hlone : ∀ r, (lone r).Fixed)
    {o : Operand} {w : Word} (h : Slot.word w ∈ o.slots lone) : w.Fixed := by
  cases o with
  | immediate v =>
    cases List.mem_singleton.1 h
    exact ⟨rfl, nofun⟩
  | direct n => cases List.mem_singleton.1 h
  | matrix n r c =>
    rcases List.mem_cons.1 h with h | h
    · cases h
    · cases List.mem_singleton.1 h
      exact ⟨rfl, nofun⟩
  | register r =>
    cases List.mem_singleton.1 h
    exact hlone r

/-- **The words of an instruction that hold no address of a name are fixed.** -/
theorem Instruction.fixed_of_mem_slots {i : Instruction} {w : Word} (h : Slot.word w ∈ i.slots) :
    w.Fixed := by
  have hoperand : ∀ {lone : Register → Word} {o : Option WrittenOperand},
      (∀ r, (lone r).Fixed) → Slot.word w ∈ slotsOf lone o → w.Fixed := by
    intro lone o hlone hw
    cases o with
    | none => cases hw
    | some o => exact Operand.fixed_of_mem_slots hlone hw
  rcases List.mem_cons.1 h with h | h
  · cases h
    exact ⟨rfl, nofun⟩
  · unfold operandSlots at h
    split at h
    · cases List.mem_singleton.1 h
      exact ⟨rfl, nofun⟩
    · rcases List.mem_append.1 h with h | h
      · exact hoperand Word.fixed_sourceRegister h
      · exact hoperand Word.fixed_destinationRegister h

/-! ### Inside a program -/

namespace Outline

/-- Word `k` of the code stands for an operand with the given name. -/
def UsedAt (ss : List Statement) (name : Text) (k : Nat) : Prop :=
  ∃ before label i after j, ss = before ++ .instruction label i :: after ∧
    k = codeSize before + j ∧ i.UsesAt name j

/-- A slot of a program is a slot of one of its statements. -/
theorem getElem?_slots_eq_some_iff {slot : Slot} : ∀ {ss : List Statement} {k : Nat},
    (slots ss)[k]? = some slot ↔ ∃ before s after j, ss = before ++ s :: after ∧
      k = codeSize before + j ∧ s.slots[j]? = some slot
  | [], k => by simp [slots]
  | s :: ss, k => by
    have hcons : slots (s :: ss) = s.slots ++ slots ss := rfl
    rw [hcons, List.getElem?_append, s.length_slots]
    constructor
    · intro h
      split at h
      · exact ⟨[], s, ss, k, rfl, by simp, h⟩
      · obtain ⟨before, s', after, j, rfl, hk, hslot⟩ := getElem?_slots_eq_some_iff.1 h
        exact ⟨s :: before, s', after, j, rfl, by rw [codeSize_cons]; omega, hslot⟩
    · rintro ⟨before, s', after, j, heq, rfl, hslot⟩
      have hj : j < s'.slots.length := (List.getElem?_eq_some_iff.1 hslot).1
      cases before with
      | nil =>
        obtain ⟨rfl, rfl⟩ := List.cons.inj heq
        rw [s.length_slots] at hj
        rw [codeSize_nil, Nat.zero_add, if_pos hj]
        exact hslot
      | cons b before =>
        obtain ⟨rfl, rfl⟩ := List.cons.inj heq
        rw [codeSize_cons, if_neg (by omega)]
        exact getElem?_slots_eq_some_iff.2 ⟨before, s', after, j, rfl, by omega, hslot⟩

/-- **The slots for names are where the names are used.** -/
theorem getElem?_slots_iff {ss : List Statement} {n : Text} {k : Nat} :
    (slots ss)[k]? = some (.reference n) ↔ UsedAt ss n k := by
  rw [getElem?_slots_eq_some_iff]
  constructor
  · rintro ⟨before, s, after, j, hss, hk, hslot⟩
    cases s with
    | instruction label i =>
      exact ⟨before, label, i, after, j, hss, hk, Instruction.getElem?_slots_iff.1 hslot⟩
    | blank => cases hslot
    | comment => cases hslot
    | directive label d => cases hslot
  · rintro ⟨before, label, i, after, j, hss, hk, huse⟩
    exact ⟨before, _, after, j, hss, hk, Instruction.getElem?_slots_iff.2 huse⟩

/-- A word stands for one name only. -/
theorem UsedAt.unique {ss : List Statement} {n m : Text} {k : Nat} (hn : UsedAt ss n k)
    (hm : UsedAt ss m k) : n = m := by
  rw [← getElem?_slots_iff] at hn hm
  exact Slot.reference.inj (Option.some.inj (hn.symm.trans hm))

end Outline

/-! ### The uses that are recorded -/

namespace Slot

variable {places : Text → Option (SymbolKind × Address)}

theorem reference?_eq_some_iff {address : Option Address} {s : Slot} {n : Text} {a : Address} :
    s.reference? places address = some ⟨n, a⟩ ↔
      s = .reference n ∧ (places n).map Prod.fst = some .external ∧ address = some a := by
  cases s with
  | word w => simp [reference?]
  | reference m =>
    cases hm : places m with
    | none =>
      simp only [reference?, hm, reference.injEq]
      refine iff_of_false (fun hnone => by cases hnone) ?_
      rintro ⟨rfl, hn, -⟩
      simp [hm] at hn
    | some place =>
      obtain ⟨kind, target⟩ := place
      simp only [reference?, hm, reference.injEq]
      split
      · rename_i hkind
        rw [Option.map_eq_some_iff]
        constructor
        · rintro ⟨b, hb, hr⟩
          cases hr
          exact ⟨rfl, by rw [hm, hkind]; rfl, hb⟩
        · rintro ⟨rfl, -, ha⟩
          exact ⟨a, ha, rfl⟩
      · rename_i hkind
        refine iff_of_false (fun hnone => by cases hnone) ?_
        rintro ⟨rfl, hn, -⟩
        rw [hm] at hn
        exact hkind (Option.some.inj hn)

/-- **The uses that are recorded**: those of external names, each with the address
of its word. -/
theorem mem_references_iff {n : Text} {a : Address} : ∀ {offset : Nat} {ss : List Slot},
    ⟨n, a⟩ ∈ references places offset ss ↔ ∃ k, ss[k]? = some (.reference n) ∧
      (places n).map Prod.fst = some .external ∧ Address.base.advance? (offset + k) = some a
  | offset, [] => by simp [references]
  | offset, s :: ss => by
    rw [references, List.mem_append, Option.mem_toList, reference?_eq_some_iff, mem_references_iff]
    constructor
    · rintro (⟨rfl, hn, ha⟩ | ⟨k, hk, hn, ha⟩)
      · exact ⟨0, rfl, hn, ha⟩
      · exact ⟨k + 1, hk, hn, by rw [← ha]; congr 1; omega⟩
    · rintro ⟨k, hk, hn, ha⟩
      cases k with
      | zero => exact .inl ⟨Option.some.inj hk, hn, ha⟩
      | succ k => exact .inr ⟨k, hk, hn, by rw [← ha]; congr 1; omega⟩

/-- **The uses are recorded in the order of their addresses.** -/
theorem references_ascending : ∀ (offset : Nat) (ss : List Slot),
    (references places offset ss).Pairwise fun r r' => r.address.toNat < r'.address.toNat
  | _, [] => .nil
  | offset, s :: ss => by
    refine List.pairwise_append.2 ⟨?_, references_ascending (offset + 1) ss, ?_⟩
    · cases s.reference? places (Address.base.advance? offset) with
      | none => exact .nil
      | some r => exact List.pairwise_singleton _ r
    · intro ⟨n, a⟩ hr ⟨n', a'⟩ hr'
      obtain ⟨-, -, ha⟩ := reference?_eq_some_iff.1 (Option.mem_toList.1 hr)
      obtain ⟨k, -, -, ha'⟩ := mem_references_iff.1 hr'
      have h := Address.advance?_eq_some_iff.1 ha
      have h' := Address.advance?_eq_some_iff.1 ha'
      simp only
      omega

end Slot
end TenBit
