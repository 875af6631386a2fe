/-
# Disassembly

Nothing in a cell says what kind of word it holds, but the first word of an
instruction says how many words follow it and of what kinds. So the code of a
program can be read back from its cells: a first word, the words behind it, the
next first word, and so on. For an assembled program this never fails, uses up
all the cells, and shows its instructions one by one.

Key definitions: `Disassembly.kindsAfter`, `Disassembly.readAll`,
`Disassembly.Shows`.
Key theorems: `Disassembly.kindsAfter_firstWord`, `Disassembly.readAll_append`,
`Disassembly.readAll_code`.
-/
import TenBit.Proofs.Machine.Unpacking
import TenBit.Proofs.Program.Assembly

namespace TenBit
namespace Disassembly

/-! ### Reading cells -/

/-- The kinds of the words of an operand. -/
def operandKinds : Mode → List WordKind
  | .immediate => [.immediate]
  | .direct => [.address]
  | .matrix => [.address, .matrixRegisters]
  | .register => [.registers]

/-- The kinds of the words behind a first word. The operation says how many
operands there are and the modes say what they are; two registers share a
word. -/
def kindsAfter : Word → List WordKind
  | .first o s d _ =>
    match o.operandCount with
    | 0 => []
    | 1 => operandKinds d
    | _ => if s = .register ∧ d = .register then [.registers] else operandKinds s ++ operandKinds d
  | _ => []

/-- Why some cells are not the code of a program. -/
inductive Malformed
  /-- A cell does not hold a word of the kind expected there. -/
  | word (e : Word.Malformed)
  /-- The cells end inside an instruction. -/
  | truncated
deriving DecidableEq, Repr

/-- The words of the given kinds at the start of some cells, and the cells
behind them. -/
def take : List WordKind → List Cell → Except Malformed (List Word × List Cell)
  | [], cs => .ok ([], cs)
  | _ :: _, [] => .error .truncated
  | k :: ks, c :: cs =>
    match Word.unpack k c, take ks cs with
    | .ok w, .ok (ws, rest) => .ok (w :: ws, rest)
    | .error e, _ => .error (.word e)
    | .ok _, .error e => .error e

/-- An instruction as its words show it. -/
structure Decoded where
  first : Word
  operands : List Word
deriving DecidableEq, Repr

/-- The words of an instruction. -/
def Decoded.words (d : Decoded) : List Word := d.first :: d.operands

theorem length_of_take : ∀ {ks : List WordKind} {cs rest : List Cell} {ws : List Word},
    take ks cs = .ok (ws, rest) → rest.length ≤ cs.length
  | [], cs, rest, ws, h => by
    cases h
    exact Nat.le_refl _
  | k :: ks, [], rest, ws, h => by cases h
  | k :: ks, c :: cs, rest, ws, h => by
    unfold take at h
    split at h
    · rename_i hrest
      cases h
      exact Nat.le_succ_of_le (length_of_take hrest)
    · cases h
    · cases h

/-- The instructions that some cells hold. -/
def readAll : List Cell → Except Malformed (List Decoded)
  | [] => .ok []
  | c :: cs =>
    match Word.unpack .first c with
    | .error e => .error (.word e)
    | .ok first =>
      match _h : take (kindsAfter first) cs with
      | .error e => .error e
      | .ok (operands, rest) => (readAll rest).map (⟨first, operands⟩ :: ·)
termination_by cs => cs.length
decreasing_by
  have := length_of_take _h
  simp only [List.length_cons]
  omega

/-- Words are read back from their cells, whatever comes behind. -/
theorem take_map_cell : ∀ (ws : List Word) (rest : List Cell),
    take (ws.map Word.kind) (ws.map Word.cell ++ rest) = .ok (ws, rest)
  | [], rest => rfl
  | w :: ws, rest => by
    simp only [List.map_cons, List.cons_append, take, Word.unpack_cell, take_map_cell ws rest]

/-- One instruction is read back from its cells, whatever comes behind. -/
theorem readAll_append (first : Word) {operands : List Word} (hfirst : first.kind = .first)
    (hkinds : kindsAfter first = operands.map Word.kind) (rest : List Cell) :
    readAll (first.cell :: (operands.map Word.cell ++ rest)) =
      (readAll rest).map (⟨first, operands⟩ :: ·) := by
  have hunpack : Word.unpack .first first.cell = .ok first := by
    rw [← hfirst]
    exact Word.unpack_cell first
  have htake : take (kindsAfter first) (operands.map Word.cell ++ rest) = .ok (operands, rest) := by
    rw [hkinds]
    exact take_map_cell operands rest
  rw [readAll]
  simp only [hunpack]
  split
  · rename_i h
    rw [htake] at h
    cases h
  · rename_i h
    rw [htake] at h
    cases h
    rfl

/-! ### What the words show -/

/-- The word for the address of a name: the address of a symbol of this program
moves with it, the address of an external one is left open. -/
def AddressWord (t : SymbolTable) (name : Text) (w : Word) : Prop :=
  ∃ s, t.get? name = some s ∧
    w = if s.kind = .external then .address .zero .external else .address s.address .relocatable

/-- The words of an operand that does not share one; `lone` makes the word of a
register. -/
inductive OperandWords (t : SymbolTable) (lone : Register → Word) :
    Option Operand → List Word → Prop
  | absent : OperandWords t lone none []
  | immediate (v : BitVec 8) :
    OperandWords t lone (some (.immediate v)) [.immediate v .absolute]
  | direct {n : Text} {w : Word} : AddressWord t n w →
    OperandWords t lone (some (.direct n)) [w]
  | matrix {n : Text} {w : Word} (r c : Register) : AddressWord t n w →
    OperandWords t lone (some (.matrix n r c)) [w, .matrixRegisters r c .absolute]
  | register (r : Register) :
    OperandWords t lone (some (.register r)) [lone r]

/-- The words of the operands. A lone register leaves the other half of its word
zero. -/
inductive OperandsWords (t : SymbolTable) : (source destination : Option Operand) → List Word → Prop
  | shared (s d : Register) :
    OperandsWords t (some (.register s)) (some (.register d)) [.registers s d .absolute]
  | apart {source destination : Option Operand} {ws vs : List Word} :
    (∀ s d, ¬ (source = some (.register s) ∧ destination = some (.register d))) →
    OperandWords t (fun r => .registers r .zero .absolute) source ws →
    OperandWords t (fun r => .registers .zero r .absolute) destination vs →
    OperandsWords t source destination (ws ++ vs)

/-- The mode of an operand; an absent one counts as immediate, whose code is
zero. -/
def shownMode (o : Option WrittenOperand) : Mode :=
  (o.map fun w => w.operand.mode).getD .immediate

/-- What was read is the instruction, with the symbols of `t`. -/
structure Shows (t : SymbolTable) (d : Decoded) (i : Instruction) : Prop where
  first : d.first = .first i.opcode (shownMode i.source) (shownMode i.destination) .absolute
  operands : OperandsWords t (i.source.map WrittenOperand.operand)
    (i.destination.map WrittenOperand.operand) d.operands

/-! ### One instruction -/

/-- The instruction as its words will show it. -/
def decodedOf (places : Text → Option (SymbolKind × Address)) (i : Instruction) : Decoded :=
  ⟨i.firstWord, i.operandSlots.map (Slot.fill places)⟩

/-- A filled reference is an address, whether or not its name is known. -/
theorem kind_fill_reference (places : Text → Option (SymbolKind × Address)) (n : Text) :
    (Slot.fill places (.reference n)).kind = .address := by
  cases hn : places n with
  | none => simp [Slot.fill, hn, Word.kind]
  | some place =>
    obtain ⟨k, a⟩ := place
    by_cases hk : k = .external
    · simp [Slot.fill, hn, hk, Word.kind]
    · simp [Slot.fill, hn, hk, Word.kind]

/-- The words of an operand have the kinds that its mode tells. -/
theorem kinds_slotsOf (places : Text → Option (SymbolKind × Address)) {lone : Register → Word}
    (hlone : ∀ r, (lone r).kind = .registers) (w : WrittenOperand) :
    ((Instruction.slotsOf lone (some w)).map (Slot.fill places)).map Word.kind =
      operandKinds w.operand.mode := by
  simp only [Instruction.slotsOf]
  cases w.operand with
  | immediate v => rfl
  | direct n => exact congrArg (· :: []) (kind_fill_reference places n)
  | matrix n r c => exact congrArg (· :: [.matrixRegisters]) (kind_fill_reference places n)
  | register r => exact congrArg (· :: []) (hlone r)

theorem mode_eq_register_iff {o : Operand} : o.mode = .register ↔ ∃ r, o = .register r := by
  cases o <;> simp [Operand.mode]

/-- **The first word tells the kinds of the words behind it.** -/
theorem kindsAfter_firstWord (places : Text → Option (SymbolKind × Address)) {i : Instruction}
    (h : i.TakesOperands) :
    kindsAfter i.firstWord = (i.operandSlots.map (Slot.fill places)).map Word.kind := by
  have hsource : ∀ r, (Word.sourceRegister r).kind = .registers := fun _ => rfl
  have hdestination : ∀ r, (Word.destinationRegister r).kind = .registers := fun _ => rfl
  have hle := i.opcode.operandCount_le_two
  obtain ⟨o, source, destination⟩ := i
  obtain ⟨hs, hd⟩ := h
  simp only at hs hd hle
  cases hshared : Instruction.sharedRegisters? ⟨o, source, destination⟩ with
  | some pair =>
    obtain ⟨s, d⟩ := pair
    obtain ⟨hso, hdo⟩ := Instruction.sharedRegisters?_eq_some_iff.1 hshared
    obtain ⟨ws, rfl, hws⟩ := Option.map_eq_some_iff.1 hso
    obtain ⟨wd, rfl, hwd⟩ := Option.map_eq_some_iff.1 hdo
    have hcount : o.operandCount = 2 := hs.1 rfl
    simp [kindsAfter, Instruction.firstWord, Instruction.modeOf, hcount, hws, hwd, Operand.mode,
      Instruction.operandSlots, hshared, Slot.fill, Word.kind]
  | none =>
    simp only [Instruction.operandSlots, hshared, List.map_append]
    cases source with
    | none =>
      have htwo : o.operandCount ≠ 2 := fun h2 => by simpa using hs.2 h2
      cases destination with
      | none =>
        have hcount : o.operandCount = 0 := Nat.eq_zero_of_not_pos fun hpos => by simpa using hd.2 hpos
        simp [kindsAfter, Instruction.firstWord, hcount, Instruction.slotsOf]
      | some wd =>
        have hpos : 0 < o.operandCount := hd.1 rfl
        have hcount : o.operandCount = 1 := by omega
        rw [kinds_slotsOf places hdestination]
        simp [kindsAfter, Instruction.firstWord, hcount, Instruction.slotsOf, Instruction.modeOf]
    | some ws =>
      have hcount : o.operandCount = 2 := hs.1 rfl
      cases destination with
      | none => exact absurd (hd.2 (by omega)) (by simp)
      | some wd =>
        rw [kinds_slotsOf places hsource, kinds_slotsOf places hdestination]
        -- both modes are register only if the word is shared
        have hmodes : ¬ (ws.operand.mode = .register ∧ wd.operand.mode = .register) := by
          rintro ⟨h₁, h₂⟩
          obtain ⟨s, hs'⟩ := mode_eq_register_iff.1 h₁
          obtain ⟨d, hd'⟩ := mode_eq_register_iff.1 h₂
          have := Instruction.sharedRegisters?_eq_some_iff (i := ⟨o, some ws, some wd⟩).2
            ⟨congrArg some hs', congrArg some hd'⟩
          rw [hshared] at this
          cases this
        simp only [kindsAfter, Instruction.firstWord, hcount, Instruction.modeOf, if_neg hmodes]

/-- The word that fills a reference to a known name. -/
theorem addressWord_fill {t : SymbolTable} {n : Text} (h : t.place? n ≠ none) :
    AddressWord t n (Slot.fill t.place? (.reference n)) := by
  cases hg : t.get? n with
  | none => exact absurd (by simp [SymbolTable.place?, hg]) h
  | some s => exact ⟨s, hg, by simp [Slot.fill, SymbolTable.place?, hg]⟩

theorem operandWords_slotsOf {t : SymbolTable} (lone : Register → Word)
    (o : Option WrittenOperand)
    (h : ∀ n, Slot.reference n ∈ Instruction.slotsOf lone o → t.place? n ≠ none) :
    OperandWords t lone (o.map WrittenOperand.operand)
      ((Instruction.slotsOf lone o).map (Slot.fill t.place?)) := by
  cases o with
  | none => exact .absent
  | some w =>
    obtain ⟨text, operand⟩ := w
    cases operand with
    | immediate v => exact .immediate v
    | direct n => exact .direct (addressWord_fill (h n List.mem_cons_self))
    | matrix n r c => exact .matrix r c (addressWord_fill (h n List.mem_cons_self))
    | register r => exact .register r

/-- **The words of an instruction show it**, if the names in it are known. -/
theorem shows_decodedOf {t : SymbolTable} {i : Instruction}
    (h : ∀ n, Slot.reference n ∈ i.slots → t.place? n ≠ none) :
    Shows t (decodedOf t.place? i) i := by
  have hmode : ∀ o : Option WrittenOperand, Instruction.modeOf o = shownMode o := by
    intro o
    cases o <;> rfl
  refine ⟨?_, ?_⟩
  · rw [← hmode, ← hmode]
    rfl
  · have hoperands : ∀ n, Slot.reference n ∈ i.operandSlots → t.place? n ≠ none :=
      fun n hn => h n (List.mem_cons_of_mem _ hn)
    simp only [decodedOf]
    unfold Instruction.operandSlots at hoperands ⊢
    cases hshared : i.sharedRegisters? with
    | some pair =>
      obtain ⟨s, d⟩ := pair
      obtain ⟨hs, hd⟩ := Instruction.sharedRegisters?_eq_some_iff.1 hshared
      rw [hs, hd]
      exact .shared s d
    | none =>
      rw [hshared] at hoperands
      simp only [List.map_append]
      refine .apart (fun s d hsd => ?_) ?_ ?_
      · rw [← Instruction.sharedRegisters?_eq_some_iff, hshared] at hsd
        cases hsd
      · exact operandWords_slotsOf _ i.source fun n hn => hoperands n (List.mem_append_left _ hn)
      · exact operandWords_slotsOf _ i.destination fun n hn =>
          hoperands n (List.mem_append_right _ hn)

/-! ### A whole program -/

open Outline

/-- The code of some instructions is read back as these instructions. -/
theorem readAll_slots (places : Text → Option (SymbolKind × Address)) :
    ∀ is : List Instruction, (∀ i ∈ is, i.TakesOperands) →
      readAll (((is.flatMap Instruction.slots).map (Slot.fill places)).map Word.cell) =
        .ok (is.map (decodedOf places))
  | [], _ => by simp [readAll]
  | i :: is, h => by
    have ih := readAll_slots places is fun j hj => h j (List.mem_cons_of_mem _ hj)
    have hkinds := kindsAfter_firstWord places (h i List.mem_cons_self)
    simp only [List.flatMap_cons, List.map_append, Instruction.slots, List.map_cons,
      List.cons_append]
    have hi := readAll_append (i.firstWord) rfl hkinds
      (((is.flatMap Instruction.slots).map (Slot.fill places)).map Word.cell)
    rw [ih] at hi
    exact hi

theorem slots_eq_flatMap : ∀ ss : List Statement,
    slots ss = (instructions ss).flatMap Instruction.slots
  | [] => rfl
  | s :: ss => by
    have ih := slots_eq_flatMap ss
    simp only [slots, instructions, List.flatMap_cons, List.filterMap_cons] at ih ⊢
    cases s with
    | instruction l i => simp only [Statement.slots, Statement.instruction?, List.flatMap_cons, ih]
    | blank => exact ih
    | comment => exact ih
    | directive l d => exact ih

theorem mem_instructions {ss : List Statement} {i : Instruction} (h : i ∈ instructions ss) :
    ∃ l, Statement.instruction l i ∈ ss := by
  obtain ⟨s, hs, hi⟩ := List.mem_filterMap.1 h
  cases s with
  | instruction l j =>
    cases hi
    exact ⟨l, hs⟩
  | blank => cases hi
  | comment => cases hi
  | directive l d => cases hi

/-- The names used in an assembled program are known. -/
theorem place?_ne_none {x : Expansion} {p : Program} (h : Program.Assembles x p) {i : Instruction}
    (hi : i ∈ instructions (statements x.macros x.lines)) {n : Text}
    (hn : Slot.reference n ∈ i.slots) : p.symbols.place? n ≠ none := by
  obtain ⟨l, hl⟩ := mem_instructions hi
  have hnil : i.slots.flatMap (Slot.faults p.symbols.place?) = [] := h.encodingFaults_eq_nil _ hl
  have hslot := List.flatMap_eq_nil_iff.1 hnil _ hn
  intro hnone
  simp [Slot.faults, hnone] at hslot

/-- **Disassembly recovers the program.** The cells of the code are read back to
their end without a failure, word for word, and what is read shows the
instructions of the source in order. -/
theorem readAll_code {x : Expansion} {p : Program} (h : Program.ofExpansion x = .ok p) :
    ∃ ds, readAll (p.image.code.map Word.cell) = .ok ds ∧
      ds.flatMap Decoded.words = p.image.code ∧
      List.Forall₂ (Shows p.symbols) ds (instructions (statements x.macros x.lines)) := by
  have ha := Program.assembles_of_ok h
  have hcode : p.image.code = ((instructions (statements x.macros x.lines)).flatMap
      Instruction.slots).map (Slot.fill p.symbols.place?) := by
    rw [← slots_eq_flatMap]
    exact ha.code
  have hsound : ∀ i ∈ instructions (statements x.macros x.lines), i.TakesOperands := by
    intro i hi
    obtain ⟨l, hl⟩ := mem_instructions hi
    exact sound_of_mem_statements x.macros x.lines _ hl
  refine ⟨(instructions (statements x.macros x.lines)).map (decodedOf p.symbols.place?), ?_, ?_, ?_⟩
  · rw [hcode]
    exact readAll_slots p.symbols.place? _ hsound
  · rw [hcode, List.flatMap_map, List.map_flatMap]
    rfl
  · rw [List.forall₂_map_left_iff, List.forall₂_same]
    intro i hi
    exact shows_decodedOf fun n hn => place?_ne_none ha hi hn

theorem readAll_sample : ∃ p, Program.ofExpansion Program.sample = .ok p ∧
    ∃ ds, readAll (p.image.code.map Word.cell) = .ok ds ∧
      ds.flatMap Decoded.words = p.image.code ∧
      List.Forall₂ (Shows p.symbols) ds
        (instructions (statements Program.sample.macros Program.sample.lines)) := by
  obtain ⟨p, hp⟩ := Program.sample_ok
  exact ⟨p, hp, readAll_code hp⟩

end Disassembly
end TenBit
