/-
# What is read is well formed

Both passes rely on what reading a line promises, without looking again: names are
those of labels, an instruction has the operands its operation takes in modes it
accepts there, lists of numbers are not empty, the dimensions of a matrix are within
their limits and hold its values, strings are printable. So every instruction has
one to five words, and every directive for the data area has a size.

The readers are taken apart once, by what they can come to (`read_cases`,
`readBody_cases`, `readDirective_cases`), and each part promises its share. What
both passes rely on follows from the promise.

Key definitions: `Instruction.WellFormed`, `Directive.WellFormed`,
`Statement.WellFormed`.
Key theorems: `mapM_eq_ok_iff`, `Operand.isLabel_of_read`,
`Statement.wellFormed_of_readInstruction`, `Statement.readDimensions_eq_ok_iff_parts`,
`Statement.wellFormed_of_readDirective`, `Statement.WellFormed.sound`,
`Statement.wellFormed_of_read`.
-/
import TenBit.Proofs.Statement.Labels
import TenBit.Proofs.Text.Decimal

namespace TenBit

/-! ### Well-formed statements -/

/-- The operands are as many as the operation takes, a single one is the
destination, each has a mode the operation accepts there, and their names are those
of labels. -/
structure Instruction.WellFormed (macros : MacroTable) (i : Instruction) : Prop where
  count : i.operands.length = i.opcode.operandCount
  single : i.source.isSome = true → i.destination.isSome = true
  sourceMode : ∀ w ∈ i.source, w.operand.mode ∈ i.opcode.sourceModes
  destinationMode : ∀ w ∈ i.destination, w.operand.mode ∈ i.opcode.destinationModes
  names : ∀ o ∈ i.operands, ∀ n, o.name? = some n → Name.IsLabel macros n

/-- There are values, or dimensions for them within the limits; strings are
printable; declared names are those of labels. -/
def Directive.WellFormed (macros : MacroTable) : Directive → Prop
  | .data vs => vs ≠ []
  | .string t => ∀ c ∈ t, 0x20 ≤ c.toNat ∧ c.toNat ≤ 0x7E
  | .matrix none vs => vs ≠ []
  | .matrix (some d) vs =>
    1 ≤ d.rows ∧ 1 ≤ d.columns ∧ d.rows * d.columns ≤ 256 ∧ vs.length ≤ d.rows * d.columns
  | .entry n => Name.IsLabel macros n
  | .external n => Name.IsLabel macros n

/-- The label is one, and what it labels is well formed. -/
def Statement.WellFormed (macros : MacroTable) : Statement → Prop
  | .blank => True
  | .comment => True
  | .directive l d => (∀ n, l = some n → Name.IsLabel macros n) ∧ d.WellFormed macros
  | .instruction l i => (∀ n, l = some n → Name.IsLabel macros n) ∧ i.WellFormed macros

/-! ### Lists that are read item by item -/

theorem mapM_eq_ok_iff {ε α β : Type} {f : α → Except ε β} {as : List α} {bs : List β} :
    as.mapM f = .ok bs ↔ List.Forall₂ (fun a b => f a = .ok b) as bs := by
  constructor
  · intro h
    induction as generalizing bs with
    | nil =>
      cases h
      exact .nil
    | cons a as ih =>
      rw [List.mapM_cons] at h
      obtain ⟨b, hb, h⟩ := ok_of_bind h
      obtain ⟨bs', hbs, h⟩ := ok_of_bind h
      cases h
      exact .cons hb (ih hbs)
  · intro h
    induction h with
    | nil => rfl
    | cons hb _ ih =>
      rw [List.mapM_cons, hb, ih]
      rfl

theorem exists_of_mem_mapM {ε α β : Type} {f : α → Except ε β} {as : List α} {bs : List β}
    (h : as.mapM f = .ok bs) {b : β} (hb : b ∈ bs) : ∃ a, f a = .ok b := by
  induction mapM_eq_ok_iff.1 h with
  | nil => cases hb
  | cons hab hrest ih =>
    rcases List.mem_cons.1 hb with rfl | hb
    · exact ⟨_, hab⟩
    · exact ih (mapM_eq_ok_iff.2 hrest) hb

/-! ### Operands -/

namespace Operand

theorem isLabel_of_readElement {macros : MacroTable} {t n : Text} {o : Operand}
    (h : readElement macros t = .ok o) (hn : o.name? = some n) : Name.IsLabel macros n := by
  unfold readElement at h
  split at h
  · cases h
  · split at h
    · cases h
    · rename_i hlabel
      obtain ⟨row, -, h⟩ := ok_of_bind h
      obtain ⟨column, -, h⟩ := ok_of_bind h
      cases h
      cases hn
      exact Name.checkLabel_eq_ok_iff.1 hlabel

theorem isLabel_of_readName {macros : MacroTable} {t n : Text} {o : Operand}
    (h : readName macros t = .ok o) (hn : o.name? = some n) : Name.IsLabel macros n := by
  unfold readName at h
  split at h
  · rename_i hlabel
    cases h
    cases hn
    exact Name.checkLabel_eq_ok_iff.1 hlabel
  · cases h

/-- **The name of an operand is that of a label.** -/
theorem isLabel_of_read {macros : MacroTable} {t n : Text} {o : Operand}
    (h : read macros t = .ok o) (hn : o.name? = some n) : Name.IsLabel macros n := by
  unfold read at h
  split at h
  · obtain ⟨v, -, rfl⟩ := ok_of_map h
    cases hn
  · unfold readPlain at h
    split at h
    · cases h
      cases hn
    · split at h
      · exact isLabel_of_readElement h hn
      · exact isLabel_of_readName h hn

end Operand

namespace Statement

/-! ### Instructions -/

theorem length_of_checkCount {opcode : Opcode} {items : List Text}
    (h : checkCount opcode items = .ok ()) : items.length = opcode.operandCount := by
  unfold checkCount at h
  split_ifs at h
  omega

theorem eq_of_checkModes {i j : Instruction} (h : checkModes i = .ok j) : j = i := by
  unfold checkModes at h
  split_ifs at h
  exact (Except.ok.inj h).symm

theorem modes_of_checkModes {i j : Instruction} (h : checkModes i = .ok j) :
    (∀ w ∈ i.source, w.operand.mode ∈ i.opcode.sourceModes) ∧
      ∀ w ∈ i.destination, w.operand.mode ∈ i.opcode.destinationModes := by
  unfold checkModes at h
  split_ifs at h with hsource hdestination
  simp only [Bool.not_eq_true', Bool.not_eq_false, Option.all_eq_true, Opcode.acceptsSource,
    Opcode.acceptsDestination, List.contains_iff_mem] at hsource hdestination
  exact ⟨fun w hw => hsource w hw, fun w hw => hdestination w hw⟩

theorem mem_of_mem_withOperands {opcode : Opcode} {ws : List WrittenOperand} {o : Operand}
    (h : o ∈ (withOperands opcode ws).operands) : ∃ w ∈ ws, w.operand = o := by
  obtain ⟨w, hw, rfl⟩ := List.mem_map.1 h
  refine ⟨w, ?_, rfl⟩
  simp only [withOperands, List.mem_append, Option.mem_toList] at hw
  rcases hw with hw | hw
  · exact (List.dropLast_sublist ws).subset (List.mem_of_getLast? hw)
  · exact List.mem_of_getLast? hw

/-- **An instruction that is read is well formed.** -/
theorem wellFormed_of_readInstruction {macros : MacroTable} {opcode : Opcode} {t : Text}
    {i : Instruction} (h : readInstruction macros opcode t = .ok i) : i.WellFormed macros := by
  obtain ⟨items, -, h⟩ := ok_of_bind h
  obtain ⟨⟨⟩, hcount, h⟩ := ok_of_bind h
  obtain ⟨ws, hws, h⟩ := ok_of_bind h
  have hi : i = withOperands opcode ws := eq_of_checkModes h
  obtain ⟨hsource, hdestination⟩ := modes_of_checkModes h
  have hlength : ws.length = opcode.operandCount := by
    rw [← (mapM_eq_ok_iff.1 hws).length_eq, length_of_checkCount hcount]
  have htwo := opcode.operandCount_le_two
  rw [hi]
  refine ⟨?_, ?_, hsource, hdestination, fun o ho n hn => ?_⟩
  · rw [← hlength] at htwo
    rw [show (withOperands opcode ws).opcode = opcode from rfl, ← hlength]
    match ws, htwo with
    | [], _ => rfl
    | [d], _ => rfl
    | [s, d], _ => rfl
  · cases ws with
    | nil => exact id
    | cons w ws => simp [withOperands]
  · obtain ⟨w, hw, rfl⟩ := mem_of_mem_withOperands ho
    obtain ⟨item, hitem⟩ := exists_of_mem_mapM hws hw
    obtain ⟨o, hread, rfl⟩ := ok_of_map hitem
    exact Operand.isLabel_of_read hread hn

/-! ### Directives -/

theorem printable_of_readString {t u : Text} (h : readString t = .ok u) :
    ∀ c ∈ u, 0x20 ≤ c.toNat ∧ c.toNat ≤ 0x7E := by
  unfold readString at h
  split at h
  · cases h
  · split at h
    · cases h
    · split_ifs at h with hblank hprintable
      cases h
      simpa [isPrintable] using hprintable
  · cases h

theorem readDimension_eq_ok_iff {t : Text} {n : Nat} : readDimension t = .ok n ↔
    Decimal.WritesCount (Text.trim t) n ∧ 1 ≤ n ∧ n ≤ Decimal.Bounds.nat64.greatest := by
  have hparse := @Decimal.Bounds.parse?_eq_some_iff_writesCount .nat64 rfl (by decide) (Text.trim t)
  constructor
  · intro h
    unfold readDimension at h
    split at h
    · rename_i v hv
      obtain ⟨m, rfl, hm, hgreatest⟩ := hparse.1 hv
      split_ifs at h with hpos
      cases h
      exact ⟨hm, Int.ofNat_lt.1 hpos, hgreatest⟩
    · cases h
  · rintro ⟨hn, hpos, hgreatest⟩
    rw [readDimension, hparse.2 ⟨n, rfl, hn, hgreatest⟩]
    exact if_pos (Int.ofNat_lt.2 hpos)

/-- The number of cells is checked against the machine's numbers before it is checked
against memory, which decides nothing. -/
theorem readDimensions_eq_ok_iff_parts {t rest : Text} {d : Dimensions} :
    readDimensions t = .ok (d, rest) ↔ ∃ x y, dimensionParts? t = some (x, y, rest) ∧
      readDimension x = .ok d.rows ∧ readDimension y = .ok d.columns ∧
      d.rows * d.columns ≤ 256 := by
  constructor
  · intro h
    unfold readDimensions at h
    split at h
    · cases h
    · rename_i x y _ hparts
      obtain ⟨rows, hrows, h⟩ := ok_of_bind h
      obtain ⟨columns, hcolumns, h⟩ := ok_of_bind h
      split at h
      · rename_i cells hcheck
        obtain ⟨rfl, -⟩ := Decimal.Bounds.check_eq_some_iff.1 hcheck
        split_ifs at h with hcells
        cases h
        exact ⟨x, y, hparts, hrows, hcolumns, by exact_mod_cast hcells⟩
      · cases h
  · rintro ⟨x, y, hparts, hrows, hcolumns, hcells⟩
    have hmemory : (d.rows * d.columns : Int) ≤ memorySize := by exact_mod_cast hcells
    have hcheck : Decimal.Bounds.nat64.check (d.rows * d.columns) = some (d.rows * d.columns) :=
      Decimal.Bounds.check_eq_some_iff.2 ⟨rfl, Int.natCast_nonneg _, hmemory.trans (by decide)⟩
    rw [readDimensions, hparts]
    simp only [hrows, hcolumns, bind, Except.bind, hcheck]
    exact if_pos hmemory

/-- Dimensions that fit memory fit the machine's numbers. -/
theorem le_greatest_of_cells {rows columns : Nat} (hrow : 1 ≤ rows) (hcolumn : 1 ≤ columns)
    (hcells : rows * columns ≤ 256) :
    rows ≤ Decimal.Bounds.nat64.greatest ∧ columns ≤ Decimal.Bounds.nat64.greatest := by
  have hrows : rows ≤ 256 := (Nat.le_mul_of_pos_right rows hcolumn).trans hcells
  have hcolumns : columns ≤ 256 := (Nat.le_mul_of_pos_left columns hrow).trans hcells
  simp only [Decimal.Bounds.nat64]
  omega

theorem length_pos_of_readSomeValues {t : Text} {vs : List Cell} (h : readSomeValues t = .ok vs) :
    0 < vs.length := by
  obtain ⟨values, -, h⟩ := ok_of_bind h
  split_ifs at h with hne
  cases h
  exact List.length_pos_iff.2 fun he => hne (by simp [he])

theorem wellFormed_of_readMatrix (macros : MacroTable) {t : Text} {d : Directive}
    (h : readMatrix t = .ok d) : d.WellFormed macros := by
  unfold readMatrix at h
  split at h
  · obtain ⟨⟨dimensions, rest⟩, hdimensions, h⟩ := ok_of_bind h
    obtain ⟨values, -, h⟩ := ok_of_bind h
    split_ifs at h with hmany
    cases h
    obtain ⟨x, y, -, hrows, hcolumns, hcells⟩ := readDimensions_eq_ok_iff_parts.1 hdimensions
    exact ⟨(readDimension_eq_ok_iff.1 hrows).2.1, (readDimension_eq_ok_iff.1 hcolumns).2.1, hcells,
      Nat.le_of_not_lt hmany⟩
  · obtain ⟨values, hvalues, h⟩ := ok_of_bind h
    cases h
    exact List.length_pos_iff.1 (length_pos_of_readSomeValues hvalues)

theorem isLabel_of_readDeclaredName {macros : MacroTable} {t n : Text}
    (h : readDeclaredName macros t = .ok n) : Name.IsLabel macros n := by
  unfold readDeclaredName at h
  split at h
  · cases h
  · obtain ⟨⟨⟩, hlabel, h⟩ := ok_of_bind h
    split_ifs at h
    cases h
    exact Name.checkLabel_eq_ok_iff.1 hlabel

/-- What reading a directive can come to. -/
theorem readDirective_cases {macros : MacroTable} {name t : Text} {d : Directive}
    (h : readDirective macros name t = .ok d) :
    (∃ vs, readSomeValues t = .ok vs ∧ d = .data vs) ∨
    (∃ u, readString t = .ok u ∧ d = .string u) ∨
    readMatrix t = .ok d ∨
    ∃ n, readDeclaredName macros t = .ok n ∧ (d = .entry n ∨ d = .external n) := by
  unfold readDirective at h
  split_ifs at h
  · obtain ⟨vs, hvs, rfl⟩ := ok_of_map h
    exact .inl ⟨vs, hvs, rfl⟩
  · obtain ⟨u, hu, rfl⟩ := ok_of_map h
    exact .inr (.inl ⟨u, hu, rfl⟩)
  · exact .inr (.inr (.inl h))
  · obtain ⟨n, hn, rfl⟩ := ok_of_map h
    exact .inr (.inr (.inr ⟨n, hn, .inl rfl⟩))
  · obtain ⟨n, hn, rfl⟩ := ok_of_map h
    exact .inr (.inr (.inr ⟨n, hn, .inr rfl⟩))

/-- **A directive that is read is well formed.** -/
theorem wellFormed_of_readDirective {macros : MacroTable} {name t : Text} {d : Directive}
    (h : readDirective macros name t = .ok d) : d.WellFormed macros := by
  rcases readDirective_cases h with ⟨vs, hvs, rfl⟩ | ⟨u, hu, rfl⟩ | hmatrix | ⟨n, hn, hd⟩
  · exact List.length_pos_iff.1 (length_pos_of_readSomeValues hvs)
  · exact printable_of_readString hu
  · exact wellFormed_of_readMatrix macros hmatrix
  · have hlabel := isLabel_of_readDeclaredName hn
    rcases hd with rfl | rfl
    · exact hlabel
    · exact hlabel

/-! ### Lines -/

/-- What reading a directive or an instruction can come to. -/
theorem readBody_cases {macros : MacroTable} {label : Option Text} {t : Text} {s : Statement}
    (h : readBody macros label t = .ok s) :
    (∃ opcode u i, readInstruction macros opcode u = .ok i ∧ s = .instruction label i) ∨
    ∃ name u d, readDirective macros name u = .ok d ∧ s = .directive label d := by
  unfold readBody at h
  split at h
  · cases h
  · split at h
    · obtain ⟨i, hi, rfl⟩ := ok_of_map h
      exact .inl ⟨_, _, i, hi, rfl⟩
    · split at h
      · obtain ⟨d, hd, rfl⟩ := ok_of_map h
        exact .inr ⟨_, _, d, hd, rfl⟩
      · cases h

theorem isLabel_of_readLabel {macros : MacroTable} {word n : Text}
    (h : readLabel macros word = .ok n) : Name.IsLabel macros n := by
  unfold readLabel at h
  simp only at h
  split_ifs at h
  obtain ⟨⟨⟩, hlabel, h⟩ := ok_of_bind h
  cases h
  exact Name.checkLabel_eq_ok_iff.1 hlabel

/-- What reading a line can come to. -/
theorem read_cases {macros : MacroTable} {t : Text} {s : Statement} (h : read macros t = .ok s) :
    s = .blank ∨ s = .comment ∨
    ∃ label u, (∀ n, label = some n → Name.IsLabel macros n) ∧ readBody macros label u = .ok s := by
  unfold read at h
  split at h
  · exact .inl (Except.ok.inj h).symm
  · split_ifs at h
    · exact .inr (.inl (Except.ok.inj h).symm)
    · unfold readSpoken at h
      split at h
      · exact .inl (Except.ok.inj h).symm
      · split_ifs at h
        · obtain ⟨n, hn, h⟩ := ok_of_bind h
          exact .inr (.inr ⟨some n, _, fun m hm => Option.some.inj hm ▸ isLabel_of_readLabel hn, h⟩)
        · exact .inr (.inr ⟨none, _, nofun, h⟩)

theorem read_wellFormed {macros : MacroTable} {t : Text} {s : Statement}
    (h : read macros t = .ok s) : s.WellFormed macros := by
  rcases read_cases h with rfl | rfl | ⟨label, u, hlabel, hbody⟩
  · trivial
  · trivial
  · rcases readBody_cases hbody with ⟨opcode, v, i, hi, rfl⟩ | ⟨name, v, d, hd, rfl⟩
    · exact ⟨hlabel, wellFormed_of_readInstruction hi⟩
    · exact ⟨hlabel, wellFormed_of_readDirective hd⟩

end Statement

/-! ### What follows from being well formed -/

theorem Instruction.WellFormed.takesOperands {macros : MacroTable} {i : Instruction}
    (h : i.WellFormed macros) : i.TakesOperands := by
  have hcount := h.count
  have hsingle := h.single
  rw [Instruction.TakesOperands, ← hcount, Instruction.operands]
  cases hsource : i.source with
  | none => cases i.destination <;> simp
  | some s =>
    obtain ⟨d, hd⟩ := Option.isSome_iff_exists.1 (hsingle (by rw [hsource]; rfl))
    simp [hd]

theorem Directive.WellFormed.dataSize_pos {macros : MacroTable} {d : Directive}
    (h : d.WellFormed macros) (hd : d.takesMemory = true) : 0 < d.dataSize := by
  cases d with
  | data vs => exact List.length_pos_iff.2 h
  | string t => exact Nat.succ_pos _
  | matrix dimensions vs =>
    cases dimensions with
    | none => exact List.length_pos_iff.2 h
    | some d => exact Nat.mul_pos h.1 h.2.1
  | entry n => cases hd
  | external n => cases hd

theorem Directive.WellFormed.isLabel {macros : MacroTable} {d : Directive} {n : Text}
    (h : d.WellFormed macros) (hd : d.declaredName? = some n) : Name.IsLabel macros n := by
  cases d with
  | data vs => cases hd
  | string t => cases hd
  | matrix dimensions vs => cases hd
  | entry m => exact Option.some.inj hd ▸ h
  | external m => exact Option.some.inj hd ▸ h

theorem Statement.WellFormed.sound {macros : MacroTable} {s : Statement}
    (h : s.WellFormed macros) : s.Sound := by
  cases s with
  | blank => trivial
  | comment => trivial
  | directive l d => exact h.2.dataSize_pos
  | instruction l i => exact h.2.takesOperands

theorem Statement.sound_of_read {macros : MacroTable} {t : Text} {s : Statement}
    (h : read macros t = .ok s) : s.Sound := (read_wellFormed h).sound

/-- A name is declared only if it can be a label. -/
theorem Statement.isLabel_of_read {macros : MacroTable} {label : Option Text} {t n : Text}
    {d : Directive} (h : read macros t = .ok (.directive label d)) (hd : d.declaredName? = some n) :
    Name.IsLabel macros n := (read_wellFormed h).2.isLabel hd

theorem Operand.wordCount_le (o : Operand) : o.wordCount ≤ 2 := by
  cases o <;> simp [wordCount]

/-- No instruction takes more than five words. -/
theorem Instruction.wordCount_le (i : Instruction) : i.wordCount ≤ 5 := by
  have hoperand : ∀ o : Option WrittenOperand, wordsOf o ≤ 2 := by
    intro o
    cases o with
    | none => exact Nat.zero_le 2
    | some w => exact w.operand.wordCount_le
  have hsource := hoperand i.source
  have hdestination := hoperand i.destination
  unfold wordCount
  split
  · omega
  · omega

namespace Statement

/-- **Whatever a line is read as is well formed.** Blank lines and comments have no
label; an instruction has one to five words; and a directive for the data area has
at least one cell, its size being the number of its cells. -/
theorem wellFormed_of_read {macros : MacroTable} {t : Text} {s : Statement}
    (h : read macros t = .ok s) :
    s.WellFormed macros ∧
    (s = .blank ∨ s = .comment → s.label = none) ∧
    (∀ label i, s = .instruction label i → 1 ≤ i.wordCount ∧ i.wordCount ≤ 5) ∧
    ∀ label d, s = .directive label d → d.takesMemory = true →
      1 ≤ d.dataSize ∧ d.dataSize = d.dataCells.length := by
  have hwell := read_wellFormed h
  refine ⟨hwell, ?_, fun label i _ => ⟨i.wordCount_pos, i.wordCount_le⟩, ?_⟩
  · rintro (rfl | rfl)
    · rfl
    · rfl
  · rintro label d rfl hd
    exact ⟨hwell.2.dataSize_pos hd, d.length_dataCells.symm⟩

theorem wellFormed_of_read_sample : ∃ d, read .empty "L: .mat [ 2 ]\t[+3] 1 ,-7".toList =
      .ok (.directive (some "L".toList) d) ∧
    d.WellFormed .empty ∧ d.dataCells.length = 6 := by
  have h : read .empty "L: .mat [ 2 ]\t[+3] 1 ,-7".toList =
      .ok (.directive (some "L".toList) (.matrix (some ⟨2, 3⟩) [⟨1⟩, ⟨1017⟩])) := rfl
  obtain ⟨⟨-, hwell⟩, -, -, hsize⟩ := wellFormed_of_read h
  exact ⟨_, h, hwell, (hsize _ _ rfl rfl).2.symm⟩

end Statement
end TenBit
