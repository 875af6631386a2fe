/-
# How statements are written

A statement is written by its parts in order: a label with its colon, the name of
the directive or the operation, and what it is about. Separators may stand before,
behind and between the parts, as many as one likes; there must be one behind the
colon, and one behind the name if anything follows. Around commas and behind the
dimensions of a matrix there need not be any. However a well-formed statement is
written, it is read back.

The reader trims before it looks, so each part is shown to survive that: items and
quoted strings start and end visibly, and a list keeps its items when the ends of
the text are trimmed.

Key definitions: `Statement.Front`, `Statement.WritesValues`, `Directive.Argument`,
`Instruction.Argument`, `Statement.WrittenAs`.
Key theorems: `Items.Lists.trim`, `Statement.read_of_front`,
`Statement.readDirective_of_argument`, `Statement.readInstruction_of_argument`,
`Statement.read_written`.
-/
import TenBit.Proofs.Statement.Operands

namespace TenBit

/-! ### The grammar -/

/-- Numerals for the given numbers, with commas between them. -/
def Statement.WritesValues (vs : List Cell) (t : Text) : Prop :=
  ∃ ws, Items.Lists ws t ∧ List.Forall₂ (fun w (v : Cell) => Decimal.WritesInt w v.toInt) ws vs

/-- A numeral with separators around it. -/
def Statement.WritesDimension (n : Nat) (t : Text) : Prop :=
  ∃ a w b, t = a ++ w ++ b ∧ Items.IsGap a ∧ Decimal.WritesCount w n ∧ Items.IsGap b

/-- What stands behind the name of a directive. -/
inductive Directive.Argument : Directive → Text → Prop
  | data {vs : List Cell} {t : Text} (h : Statement.WritesValues vs t) : Argument (.data vs) t
  | string {a t b : Text} (ha : Items.IsGap a) (hb : Items.IsGap b) :
      Argument (.string t) (a ++ ('"' :: t ++ ['"']) ++ b)
  | unsized {vs : List Cell} {t : Text} (h : Statement.WritesValues vs t) :
      Argument (.matrix none vs) t
  | sized {d : Dimensions} {vs : List Cell} {a x b y t : Text} (ha : Items.IsGap a)
      (hrows : Statement.WritesDimension d.rows x) (hb : Items.IsGap b)
      (hcolumns : Statement.WritesDimension d.columns y) (ht : Statement.WritesValues vs t) :
      Argument (.matrix (some d) vs) (a ++ ('[' :: (x ++ ']' :: (b ++ '[' :: (y ++ [']'])))) ++ t)
  | entry {a n b : Text} (ha : Items.IsGap a) (hb : Items.IsGap b) :
      Argument (.entry n) (a ++ n ++ b)
  | external {a n b : Text} (ha : Items.IsGap a) (hb : Items.IsGap b) :
      Argument (.external n) (a ++ n ++ b)

/-- The operands with their texts, source first. -/
def Instruction.written (i : Instruction) : List WrittenOperand :=
  i.source.toList ++ i.destination.toList

/-- What stands behind the name of an operation: its operands, each at its text. -/
def Instruction.Argument (i : Instruction) (t : Text) : Prop :=
  Items.Lists (i.written.map WrittenOperand.text) t ∧ ∀ w ∈ i.written, w.operand.WrittenAs w.text

namespace Statement

/-- What stands in front of a statement: a label with its colon and one or more
separators, or only separators. -/
inductive Front : Option Text → Text → Prop
  | unlabelled {a : Text} (ha : Items.IsGap a) : Front none a
  | labelled {a n b : Text} (ha : Items.IsGap a) (hb : Items.IsGap b) (hne : b ≠ []) :
      Front (some n) (a ++ (n ++ [':']) ++ b)

/-- Nothing, or a separator first. -/
def Apart (t : Text) : Prop := ∀ c ∈ t.head?, c ∈ Items.separators

instance (t : Text) : Decidable (Apart t) := Option.decidableForallMem t.head?

/-- The texts of a statement. -/
inductive WrittenAs : Statement → Text → Prop
  | blank {t : Text} (h : Items.IsGap t) : WrittenAs .blank t
  | comment {a : Text} (ha : Items.IsGap a) (t : Text) : WrittenAs .comment (a ++ ';' :: t)
  | directive {label : Option Text} {d : Directive} {front t : Text} (hfront : Front label front)
      (hapart : Apart t) (ht : d.Argument t) :
      WrittenAs (.directive label d) (front ++ d.keyword.toList ++ t)
  | instruction {label : Option Text} {i : Instruction} {front t : Text}
      (hfront : Front label front) (hapart : Apart t) (ht : i.Argument t) :
      WrittenAs (.instruction label i) (front ++ i.opcode.mnemonic ++ t)

end Statement

/-! ### Trimming lists -/

namespace Items

/-- Separators are white space. -/
theorem isBlank_of_mem_separators : ∀ c ∈ separators, Text.isBlank c = true :=
  List.all_eq_true.1 (by decide)

theorem IsGap.blank {t : Text} (h : IsGap t) : Text.Blank t :=
  fun c hc => isBlank_of_mem_separators c (h c hc)

theorem Divided.head? {w d : Text} {ws : List Text} (h : Divided (w :: ws) d) :
    d.head? = w.head? := by
  cases h with
  | last hw => rfl
  | next hw ha hb ht =>
    obtain ⟨c, u, rfl⟩ := List.exists_cons_of_ne_nil hw.1
    rfl

/-- If the items start and end visibly, so does the list. -/
theorem Divided.tight {d : Text} {ws : List Text} (h : Divided ws d)
    (hws : ∀ w ∈ ws, Text.Tight w) : Text.Tight d := by
  induction h with
  | last hw => exact hws _ List.mem_cons_self
  | next hw ha hb ht ih =>
    obtain ⟨hw, hws⟩ := List.forall_mem_cons.1 hws
    rw [List.append_assoc, List.append_assoc]
    refine Text.tight_append hw.first ?_
    obtain ⟨c, hc, hvisible⟩ := (ih hws).last
    refine ⟨c, ?_, hvisible⟩
    rw [List.getLast?_append, List.cons_append, List.getLast?_cons, List.getLast?_append, hc]
    rfl

/-- Trimming leaves the items with what is between them. -/
theorem Spaced.trim {t : Text} {ws : List Text} (h : Spaced ws t)
    (hws : ∀ w ∈ ws, Text.Tight w) : Divided ws (Text.trim t) := by
  obtain ⟨a, d, b, rfl, ha, hd, hb⟩ := h
  rw [Text.trim_append ha.blank (hd.tight hws) hb.blank]
  exact hd

theorem Divided.lists {d : Text} {ws : List Text} (h : Divided ws d) : Lists ws d :=
  .inr ⟨[], d, [], by simp, .nil, h, .nil⟩

/-- **Trimming keeps the items of a list.** -/
theorem Lists.trim {t : Text} {ws : List Text} (h : Lists ws t) (hws : ∀ w ∈ ws, Text.Tight w) :
    Lists ws (Text.trim t) := by
  rcases h with ⟨rfl, ht⟩ | h
  · rw [Text.trim_blank ht.blank]
    exact .inl ⟨rfl, .nil⟩
  · exact (h.trim hws).lists

theorem Lists.trimEnd {t : Text} {ws : List Text} (h : Lists ws t)
    (hws : ∀ w ∈ ws, Text.Tight w) : Lists ws (Text.trimEnd t) := by
  rcases h with ⟨rfl, ht⟩ | ⟨a, d, b, rfl, ha, hd, hb⟩
  · rw [Text.trimEnd_blank ht.blank]
    exact .inl ⟨rfl, .nil⟩
  · have hlast : ∃ c ∈ (a ++ d).getLast?, Text.isBlank c = false := by
      obtain ⟨c, hc, hvisible⟩ := (hd.tight hws).last
      exact ⟨c, by rw [List.getLast?_append, hc]; rfl, hvisible⟩
    rw [Text.trimEnd_append_of_last hlast, Text.trimEnd_blank hb.blank]
    exact .inr ⟨a, d, [], rfl, ha, hd, .nil⟩

end Items

/-! ### Values -/

theorem Cell.ofInt_of_within {v : Int} (h : -512 ≤ v ∧ v ≤ 511) :
    Cell.ofInt v = .ok ⟨BitVec.ofInt 10 v⟩ := by
  have hleast : ¬ v < Cell.least := Int.not_lt.2 h.1
  have hgreatest : ¬ Cell.greatest < v := Int.not_lt.2 h.2
  rw [Cell.ofInt, if_neg hleast, if_neg hgreatest]

theorem Cell.ofInt_of_not_within {v : Int} (h : ¬ (-512 ≤ v ∧ v ≤ 511)) :
    ∃ e, Cell.ofInt v = .error e := by
  unfold Cell.ofInt
  split_ifs with hleast hgreatest
  · exact ⟨_, rfl⟩
  · exact ⟨_, rfl⟩
  · exact absurd ⟨Int.not_lt.1 hleast, Int.not_lt.1 hgreatest⟩ h

theorem Cell.read_of_not_writesInt {t : Text} (h : ¬ ∃ v, Decimal.WritesInt t v) :
    Cell.read t = .error .valueNotInteger := by
  rw [Cell.read, Decimal.isInteger_eq_false_iff.2 h]
  rfl

/-- Of an integer only the value counts: what does not fit 32 bits does not fit a cell
either. -/
theorem Cell.read_of_writesInt {t : Text} {v : Int} (h : Decimal.WritesInt t v) :
    Cell.read t =
      if -512 ≤ v ∧ v ≤ 511 then .ok ⟨BitVec.ofInt 10 v⟩ else .error .valueOutOfRange := by
  have hparse : Decimal.Bounds.int32.parse? t = Decimal.Bounds.int32.check v :=
    Decimal.Bounds.parse?_of_writesInt (by decide) (by decide) h
  rw [Cell.read, Decimal.isInteger_iff.2 ⟨v, h⟩, hparse]
  cases hcheck : Decimal.Bounds.int32.check v with
  | none =>
    have hrange : ¬ (-512 ≤ v ∧ v ≤ 511) := by
      intro hrange
      apply Decimal.Bounds.check_eq_none_iff.1 hcheck
      simp only [Decimal.Bounds.int32]
      omega
    exact (if_neg hrange).symm
  | some n =>
    obtain ⟨rfl, -⟩ := Decimal.Bounds.check_eq_some_iff.1 hcheck
    by_cases hrange : -512 ≤ v ∧ v ≤ 511
    · simp [if_pos hrange, Cell.ofInt_of_within hrange]
    · obtain ⟨e, he⟩ := Cell.ofInt_of_not_within hrange
      simp [if_neg hrange, he]

theorem Cell.read_of_writesInt_toInt {t : Text} {v : Cell} (h : Decimal.WritesInt t v.toInt) :
    Cell.read t = .ok v := by
  have hleast : -512 ≤ v.toInt := v.bits.le_toInt
  have hgreatest : v.toInt < 512 := v.bits.toInt_lt
  rw [Cell.read_of_writesInt h, if_pos ⟨hleast, by omega⟩, Cell.toInt, BitVec.ofInt_toInt]

theorem Decimal.WritesCount.isBracket {t : Text} {n : Nat} (h : WritesCount t n) :
    ∀ c ∈ t, isBracket c = false := by
  have hdigits : ∀ {u : Text}, Writes u n → ∀ c ∈ u, TenBit.isBracket c = false := by
    intro u hu c hc
    exact isBracket_of_isAlphanum (by simp [Char.isAlphanum, hu.digits c hc])
  rcases h with h | h
  · exact hdigits h
  · exact List.forall_mem_cons.2 ⟨rfl, hdigits h⟩

/-- No numeral starts with a bracket. -/
theorem Decimal.WritesInt.head?_ne {t : Text} {v : Int} (h : WritesInt t v) :
    t.head? ≠ some '[' := by
  rcases h with h | h | h
  · obtain ⟨c, u, rfl, hc⟩ := h.head
    intro he
    rw [Option.some.inj he] at hc
    cases hc
  · exact nofun
  · exact nofun

namespace Statement

theorem readItems_of_lists {t : Text} {ws : List Text} (h : Items.Lists ws t) :
    readItems t = .ok ws := by
  rw [readItems, Items.split_of_lists h]

theorem tight_of_writesInt {ws : List Text} {vs : List Cell}
    (h : List.Forall₂ (fun w (v : Cell) => Decimal.WritesInt w v.toInt) ws vs) :
    ∀ w ∈ ws, Text.Tight w := by
  induction h with
  | nil => exact nofun
  | cons hw _ ih => exact List.forall_mem_cons.2 ⟨hw.isWord.tight, ih⟩

theorem WritesValues.trim {vs : List Cell} {t : Text} (h : WritesValues vs t) :
    WritesValues vs (Text.trim t) := by
  obtain ⟨ws, hlists, hvalues⟩ := h
  exact ⟨ws, hlists.trim (tight_of_writesInt hvalues), hvalues⟩

theorem WritesValues.trimEnd {vs : List Cell} {t : Text} (h : WritesValues vs t) :
    WritesValues vs (Text.trimEnd t) := by
  obtain ⟨ws, hlists, hvalues⟩ := h
  exact ⟨ws, hlists.trimEnd (tight_of_writesInt hvalues), hvalues⟩

/-- **Numbers are read from the texts that list them.** -/
theorem WritesValues.readValues {vs : List Cell} {t : Text} (h : WritesValues vs t) :
    readValues t = .ok vs := by
  obtain ⟨ws, hlists, hvalues⟩ := h
  have hread : ws.mapM Cell.read = .ok vs :=
    mapM_eq_ok_iff.2 (hvalues.imp fun _ _ => Cell.read_of_writesInt_toInt)
  rw [Statement.readValues, readItems_of_lists hlists]
  exact hread

theorem WritesValues.readSomeValues {vs : List Cell} {t : Text} (h : WritesValues vs t)
    (hvs : vs ≠ []) : readSomeValues t = .ok vs := by
  have hsome : vs.isEmpty = false := by simpa using hvs
  rw [Statement.readSomeValues, h.readValues]
  exact if_neg (by simp [hsome])

/-- The text of some numbers starts as a numeral does. -/
theorem WritesValues.head?_ne {vs : List Cell} {t : Text} (h : WritesValues vs t) (hvs : vs ≠ []) :
    (Text.trim t).head? ≠ some '[' := by
  obtain ⟨ws, hlists, hvalues⟩ := h
  cases hvalues with
  | nil => exact absurd rfl hvs
  | cons hw hrest =>
    rcases hlists with ⟨hnil, -⟩ | hspaced
    · cases hnil
    · rw [(hspaced.trim (tight_of_writesInt (.cons hw hrest))).head?]
      exact hw.head?_ne

/-! ### Directives -/

theorem WritesDimension.readDimension {n : Nat} {t : Text} (h : WritesDimension n t)
    (hn : 1 ≤ n) (hgreatest : n ≤ Decimal.Bounds.nat64.greatest) : readDimension t = .ok n := by
  obtain ⟨a, w, b, rfl, ha, hw, hb⟩ := h
  apply readDimension_eq_ok_iff.2
  rw [Text.trim_append ha.blank hw.isWord.tight hb.blank]
  exact ⟨hw, hn, hgreatest⟩

theorem WritesDimension.isBracket {n : Nat} {t : Text} (h : WritesDimension n t) :
    ∀ c ∈ t, isBracket c = false := by
  obtain ⟨a, w, b, rfl, ha, hw, hb⟩ := h
  exact isBracket_of_mem_append ha.blank hw.isBracket hb.blank

/-- The texts between the brackets of a matrix, and the text of its values. -/
theorem dimensionParts?_eq_some {x b y : Text} (hx : ∀ c ∈ x, isBracket c = false)
    (hb : Text.Blank b) (hy : ∀ c ∈ y, isBracket c = false) (t : Text) :
    dimensionParts? ('[' :: (x ++ ']' :: (b ++ '[' :: (y ++ ']' :: t)))) = some (x, y, t) := by
  have hcolumns : Text.trimStart (b ++ '[' :: (y ++ ']' :: t)) = '[' :: (y ++ ']' :: t) :=
    Text.trimStart_append hb ⟨'[', rfl, by decide⟩
  simp [dimensionParts?, bracketed?_eq_some hx, hcolumns, bracketed?_eq_some hy]

theorem readMatrix_of_dimensions {d : Dimensions} {vs : List Cell} {x b y t : Text}
    (hrows : WritesDimension d.rows x) (hb : Items.IsGap b) (hcolumns : WritesDimension d.columns y)
    (ht : WritesValues vs t) (macros : MacroTable)
    (hd : (Directive.matrix (some d) vs).WellFormed macros) :
    readMatrix ('[' :: (x ++ ']' :: (b ++ '[' :: (y ++ ']' :: t)))) =
      .ok (.matrix (some d) vs) := by
  obtain ⟨hrow, hcolumn, hcells, hlength⟩ := hd
  have hdimensions : readDimensions ('[' :: (x ++ ']' :: (b ++ '[' :: (y ++ ']' :: t)))) =
      .ok (d, t) := by
    obtain ⟨hrowLe, hcolumnLe⟩ := le_greatest_of_cells hrow hcolumn hcells
    exact readDimensions_eq_ok_iff_parts.2 ⟨x, y,
      dimensionParts?_eq_some hrows.isBracket hb.blank hcolumns.isBracket t,
      hrows.readDimension hrow hrowLe, hcolumns.readDimension hcolumn hcolumnLe, hcells⟩
  rw [readMatrix, if_pos List.head?_cons, hdimensions]
  simp only [bind, Except.bind, ht.readValues]
  exact if_neg (Nat.not_lt.2 hlength)

theorem readString_quoted {t : Text} (h : ∀ c ∈ t, 0x20 ≤ c.toNat ∧ c.toNat ≤ 0x7E) :
    readString ('"' :: t ++ ['"']) = .ok t := by
  have hcut : cutAtLastQuote? (t ++ ['"']) = some (t, []) := by simp [cutAtLastQuote?]
  have hprintable : t.all isPrintable = true := by
    rw [List.all_eq_true]
    intro c hc
    simp [isPrintable, h c hc]
  simp [readString, hcut, hprintable, Text.isBlankText]

theorem readDeclaredName_of_isLabel {macros : MacroTable} {n : Text}
    (h : Name.IsLabel macros n) : readDeclaredName macros n = .ok n := by
  rw [readDeclaredName, h.isWord.opens.nextWord?]
  simp only [Name.checkLabel_eq_ok_iff.2 h]
  rfl

/-- The name of a directive tells how the text behind it is read. -/
theorem readDirective_keyword (macros : MacroTable) (d : Directive) (t : Text) :
    readDirective macros d.keyword.toList.tail t =
      match d with
      | .data _ => (readSomeValues t).map .data
      | .string _ => (readString t).map .string
      | .matrix .. => readMatrix t
      | .entry _ => (readDeclaredName macros t).map .entry
      | .external _ => (readDeclaredName macros t).map .external := by
  cases d <;> simp [readDirective, Directive.keyword]

/-- **A directive is read from what it is about.** -/
theorem readDirective_of_argument {macros : MacroTable} {d : Directive} {t : Text}
    (hd : d.WellFormed macros) (ht : d.Argument t) :
    readDirective macros d.keyword.toList.tail (Text.trim t) = .ok d := by
  rw [readDirective_keyword]
  cases ht with
  | data h =>
    simp only [h.trim.readSomeValues hd]
    rfl
  | @string a u b ha hb =>
    have htight : Text.Tight ('"' :: u ++ ['"']) :=
      Text.tight_append ⟨'"', rfl, by decide⟩ ⟨'"', rfl, by decide⟩
    simp only [Text.trim_append ha.blank htight hb.blank, readString_quoted hd]
    rfl
  | unsized h =>
    simp only [readMatrix, if_neg (h.head?_ne hd), h.trim.readSomeValues hd]
    rfl
  | @sized d vs a x b y u ha hrows hb hcolumns hu =>
    have htight : Text.Tight ('[' :: (x ++ ']' :: (b ++ '[' :: (y ++ [']'])))) :=
      ⟨⟨'[', rfl, by decide⟩, ']', by simp [List.getLast?_cons, List.getLast?_append], by decide⟩
    have hread := readMatrix_of_dimensions hrows hb hcolumns hu.trimEnd macros hd
    simp only [Text.trim_append_tight ha.blank htight u]
    simpa using hread
  | @entry a n b ha hb =>
    simp only [Text.trim_append ha.blank hd.isWord.tight hb.blank, readDeclaredName_of_isLabel hd]
    rfl
  | @external a n b ha hb =>
    simp only [Text.trim_append ha.blank hd.isWord.tight hb.blank, readDeclaredName_of_isLabel hd]
    rfl

/-! ### Instructions -/

theorem checkCount_of_length {opcode : Opcode} {ws : List Text}
    (h : ws.length = opcode.operandCount) : checkCount opcode ws = .ok () := by
  rw [checkCount, if_neg (by omega), if_neg (by omega)]

theorem checkModes_of_wellFormed {macros : MacroTable} {i : Instruction} (h : i.WellFormed macros) :
    checkModes i = .ok i := by
  have hsource : (i.source.all fun w => i.opcode.acceptsSource w.operand.mode) = true := by
    simpa [Option.all_eq_true, Opcode.acceptsSource, List.contains_iff_mem] using h.sourceMode
  have hdestination :
      (i.destination.all fun w => i.opcode.acceptsDestination w.operand.mode) = true := by
    simpa [Option.all_eq_true, Opcode.acceptsDestination, List.contains_iff_mem] using
      h.destinationMode
  simp [checkModes, hsource, hdestination]

/-- The operands are put back where they were. -/
theorem withOperands_written {i : Instruction}
    (h : i.source.isSome = true → i.destination.isSome = true) :
    withOperands i.opcode i.written = i := by
  obtain ⟨opcode, source, destination⟩ := i
  cases source with
  | none => cases destination <;> rfl
  | some s =>
    cases destination with
    | none => cases h rfl
    | some d => rfl

/-- **An instruction is read from its operands.** -/
theorem readInstruction_of_argument {macros : MacroTable} {i : Instruction} {t : Text}
    (hi : i.WellFormed macros) (ht : i.Argument t) :
    readInstruction macros i.opcode (Text.trim t) = .ok i := by
  obtain ⟨hlists, hwritten⟩ := ht
  have hnames : ∀ w ∈ i.written, ∀ n, w.operand.name? = some n → Name.IsLabel macros n :=
    fun w hw => hi.names w.operand (List.mem_map_of_mem hw)
  have htight : ∀ x ∈ i.written.map WrittenOperand.text, Text.Tight x := by
    intro x hx
    obtain ⟨w, hw, rfl⟩ := List.mem_map.1 hx
    exact (hwritten w hw).tight (hnames w hw)
  have hcount : (i.written.map WrittenOperand.text).length = i.opcode.operandCount := by
    rw [← hi.count, Instruction.operands, List.length_map, List.length_map, Instruction.written]
  have hoperands :
      (i.written.map WrittenOperand.text).mapM (WrittenOperand.read macros) = .ok i.written := by
    rw [mapM_eq_ok_iff, List.forall₂_map_left_iff, List.forall₂_same]
    intro w hw
    rw [WrittenOperand.read, Operand.read_of_writtenAs (hwritten w hw) (hnames w hw)]
    rfl
  rw [readInstruction, readItems_of_lists (hlists.trim htight)]
  simp only [bind, Except.bind, checkCount_of_length hcount, hoperands,
    withOperands_written hi.single]
  exact checkModes_of_wellFormed hi

/-! ### Lines -/

/-- A word that neither has a label in it nor starts a comment. -/
def IsPlain (word : Text) : Prop :=
  word ≠ [] ∧ ∀ c ∈ word, Text.isBlank c = false ∧ c ≠ ':' ∧ c ≠ ';'

instance (word : Text) : Decidable (IsPlain word) :=
  @instDecidableAnd _ _ inferInstance (List.decidableBAll _ word)

theorem IsPlain.isWord {word : Text} (h : IsPlain word) : Text.IsWord word :=
  ⟨h.1, fun c hc => (h.2 c hc).1⟩

theorem isPlain_mnemonic (o : Opcode) : IsPlain o.mnemonic := by
  cases o <;> decide

theorem isPlain_keyword (d : Directive) : IsPlain d.keyword.toList := by
  cases d <;> simp only [Directive.keyword] <;> decide

theorem isWord_colon {macros : MacroTable} {n : Text} (hn : Name.IsLabel macros n) :
    Text.IsWord (n ++ [':']) := by
  refine ⟨by simp, fun c hc => ?_⟩
  rcases List.mem_append.1 hc with hc | hc
  · exact hn.isWord.2 c hc
  · rw [List.mem_singleton.1 hc]
    decide

/-- A line that starts with a label is read by what follows it. -/
theorem read_labelled {macros : MacroTable} {n t rest : Text} (hn : Name.IsLabel macros n)
    (h : Text.Opens t (n ++ [':']) rest) : read macros t = readBody macros (some n) rest := by
  have hcolon : ':' ∉ n := fun hc => hn.ne hc (by decide) rfl
  have hspoken : (n ++ [':']).head? ≠ some commentMark := by
    obtain ⟨c, u, rfl⟩ := List.exists_cons_of_ne_nil hn.isWord.1
    intro hc
    exact hn.ne List.mem_cons_self (by decide) (Option.some.inj hc)
  rw [read_of_opens macros h hspoken, if_pos (by simp), readLabel_colon hcolon, if_pos rfl,
    Name.checkLabel_eq_ok_iff.2 hn]
  rfl

/-- **What stands in front of a statement gives it its label**, and only that. -/
theorem read_of_front {macros : MacroTable} {label : Option Text} {front word t : Text}
    (hlabel : ∀ n, label = some n → Name.IsLabel macros n) (hfront : Front label front)
    (hword : IsPlain word) (ht : Apart t) :
    ∃ u, Text.Opens u word t ∧ read macros (front ++ word ++ t) = readBody macros label u := by
  have hrest : ∀ c ∈ t.head?, Text.isBlank c = true :=
    fun c hc => Items.isBlank_of_mem_separators c (ht c hc)
  cases hfront with
  | unlabelled ha =>
    have hopens := Text.Opens.intro ha.blank hword.isWord hrest
    have hcolon : ':' ∉ word := fun hc => (hword.2 ':' hc).2.1 rfl
    have hspoken : word.head? ≠ some commentMark := fun hc =>
      (hword.2 ';' (List.mem_of_head? hc)).2.2 rfl
    exact ⟨_, hopens, by rw [read_of_opens macros hopens hspoken, if_neg hcolon]⟩
  | @labelled a n b ha hb hne =>
    have hn := hlabel n rfl
    -- the word of the label ends at its colon because a separator follows
    have hgap : ∀ c ∈ (b ++ word ++ t).head?, Text.isBlank c = true := by
      obtain ⟨c, b, rfl⟩ := List.exists_cons_of_ne_nil hne
      intro d hd
      exact Option.some.inj hd ▸ hb.blank c List.mem_cons_self
    have hopens := Text.Opens.intro ha.blank (isWord_colon hn) hgap
    refine ⟨b ++ word ++ t, .intro hb.blank hword.isWord hrest, ?_⟩
    rw [← read_labelled hn hopens]
    simp only [List.append_assoc]

theorem readBody_mnemonic (macros : MacroTable) (label : Option Text) {o : Opcode} {u t : Text}
    (h : Text.Opens u o.mnemonic t) :
    readBody macros label u =
      (readInstruction macros o (Text.trim t)).map (.instruction label) := by
  have hopcode : Opcode.ofMnemonic? o.mnemonic = some o := by cases o <;> decide
  rw [readBody, h.nextWord?]
  simp only [hopcode]

theorem readBody_keyword (macros : MacroTable) (label : Option Text) {d : Directive} {u t : Text}
    (h : Text.Opens u d.keyword.toList t) :
    readBody macros label u =
      (readDirective macros d.keyword.toList.tail (Text.trim t)).map (.directive label) := by
  have hkeyword : d.keyword.toList = '.' :: d.keyword.toList.tail ∧
      Opcode.ofMnemonic? d.keyword.toList = none := by
    cases d <;> simp only [Directive.keyword] <;> decide
  rw [readBody, h.nextWord?]
  simp only [hkeyword.2]
  rw [hkeyword.1]
  rfl

/-- **A well-formed statement is read from each of its texts**, whatever separators
stand before, behind and between its parts. -/
theorem read_written {macros : MacroTable} {s : Statement} {t : Text} (hs : s.WellFormed macros)
    (ht : s.WrittenAs t) : read macros t = .ok s := by
  cases ht with
  | blank h => rw [read, Text.trim_blank h.blank]
  | @comment a ha u =>
    have hmark : Text.Tight [';'] := ⟨⟨';', rfl, by decide⟩, ';', rfl, by decide⟩
    have htrim := Text.trim_append_tight ha.blank hmark u
    rw [List.append_assoc, List.singleton_append] at htrim
    rw [read, htrim]
    rfl
  | directive hfront hapart ht =>
    obtain ⟨u, hopens, hread⟩ := read_of_front hs.1 hfront (isPlain_keyword _) hapart
    rw [hread, readBody_keyword macros _ hopens, readDirective_of_argument hs.2 ht]
    rfl
  | instruction hfront hapart ht =>
    obtain ⟨u, hopens, hread⟩ := read_of_front hs.1 hfront (isPlain_mnemonic _) hapart
    rw [hread, readBody_mnemonic macros _ hopens, readInstruction_of_argument hs.2 ht]
    rfl

/-- An instruction with an element of a matrix, and a string with quotes in it. -/
theorem read_written_sample :
    read .empty " L:\t mov\t#-5 ,M[r1][r2] ".toList =
      .ok (.instruction (some "L".toList) ⟨.mov, some ⟨"#-5".toList, .immediate (-5)⟩,
        some ⟨"M[r1][r2]".toList, .matrix "M".toList ⟨1⟩ ⟨2⟩⟩⟩) ∧
    read .empty "\t.string  \"a \"b\"\" ".toList =
      .ok (.directive none (.string "a \"b\"".toList)) := by
  have hlabel : Name.IsLabel .empty "L".toList := Name.checkLabel_eq_ok_iff.1 rfl
  have hmatrix : Name.IsLabel .empty "M".toList := Name.checkLabel_eq_ok_iff.1 rfl
  have hspace : Items.IsGap " ".toList := by decide
  have hspaces : Items.IsGap "  ".toList := by decide
  have htab : Items.IsGap "\t".toList := by decide
  have htabs : Items.IsGap "\t ".toList := by decide
  have hnumeral : Decimal.WritesInt "-5".toList (-5) :=
    ((Decimal.Bounds.parse?_eq_some_iff (b := .int8) (by decide)).1 rfl).1
  have hfive : Operand.WrittenAs (.immediate (-5)) "#-5".toList := .immediate hnumeral
  have helement : Operand.WrittenAs (.matrix "M".toList ⟨1⟩ ⟨2⟩) "M[r1][r2]".toList :=
    .matrix _ ⟨[], [], rfl, nofun, nofun⟩ ⟨[], [], rfl, nofun, nofun⟩
  have happart : Apart "\t#-5 ,M[r1][r2] ".toList := by decide
  have hlists : Items.Lists ["#-5".toList, "M[r1][r2]".toList] "\t#-5 ,M[r1][r2] ".toList :=
    Items.split_eq_ok_iff.1 rfl
  refine ⟨read_written ⟨?_, rfl, fun _ => rfl, ?_, ?_, ?_⟩ (.instruction
      (.labelled hspace htabs (List.cons_ne_nil _ _)) happart ⟨hlists, ?_⟩),
    read_written ⟨nofun, ?_⟩ (.directive (.unlabelled htab) ?_ (.string hspaces hspace))⟩
  · rintro n ⟨⟩
    exact hlabel
  · rintro w ⟨⟩
    decide
  · rintro w ⟨⟩
    decide
  · refine List.forall_mem_cons.2 ⟨nofun, List.forall_mem_singleton.2 ?_⟩
    rintro n ⟨⟩
    exact hmatrix
  · exact List.forall_mem_cons.2 ⟨hfive, List.forall_mem_singleton.2 helement⟩
  · exact printable_of_readString (t := "\"a \"b\"\"".toList) rfl
  · decide

end Statement
end TenBit
