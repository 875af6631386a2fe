/-
# Numbers count by their value

Wherever a line holds a number, the number that its digits have in base ten decides,
however many digits there are: whether it fits a cell, whether it fits an immediate
operand, and whether the rows and columns of a matrix fit memory. A text that is no
numeral is told from a number out of range. The cells of a matrix with dimensions
are its values, and zeroes behind them.

The two readers of integers differ in their range and their faults only, so what they
do is said once, for any range.

Key definitions: `Decimal.RangeChecked`, `Statement.Sizes`.
Key theorems: `Decimal.rangeChecked`, `Statement.dimensionParts?_eq_some_iff`,
`Statement.readDimensions_eq_ok_iff`, `Statement.numbers_by_value`.
-/
import TenBit.Proofs.Statement.Writing

namespace TenBit

/-! ### Integers in a range -/

namespace Decimal

/-- What a reader of the integers from `least` to `greatest` makes of a text: it tells
a text that is no integer by one fault and an integer out of range by the other, and
any other integer it reads. -/
structure RangeChecked {α : Type} (read : Text → Except Fault α) (toInt : α → Int)
    (least greatest : Int) (notInteger outOfRange : Fault) (t : Text) : Prop where
  notInteger_iff : read t = .error notInteger ↔ ¬ ∃ v, WritesInt t v
  ok_iff : ∀ v, WritesInt t v →
    ((∃ x, read t = .ok x ∧ toInt x = v) ↔ least ≤ v ∧ v ≤ greatest)
  outOfRange_iff : ∀ v, WritesInt t v →
    (read t = .error outOfRange ↔ ¬ (least ≤ v ∧ v ≤ greatest))

/-- **A reader that looks at the value checks the range.** -/
theorem rangeChecked {α : Type} {read : Text → Except Fault α} {toInt : α → Int}
    {least greatest : Int} {notInteger outOfRange : Fault} {t : Text} (ofInt : Int → α)
    (hnone : (¬ ∃ v, WritesInt t v) → read t = .error notInteger)
    (hread : ∀ v, WritesInt t v → read t =
      if least ≤ v ∧ v ≤ greatest then .ok (ofInt v) else .error outOfRange)
    (hofInt : ∀ v, least ≤ v → v ≤ greatest → toInt (ofInt v) = v)
    (hfaults : notInteger ≠ outOfRange) :
    RangeChecked read toInt least greatest notInteger outOfRange t := by
  refine ⟨⟨fun herror => ?_, hnone⟩, fun v hv => ?_, fun v hv => ?_⟩
  · rintro ⟨v, hv⟩
    rw [hread v hv] at herror
    split_ifs at herror
    exact hfaults (Except.error.inj herror).symm
  · rw [hread v hv]
    split_ifs with hrange
    · exact iff_of_true ⟨_, rfl, hofInt v hrange.1 hrange.2⟩ hrange
    · exact iff_of_false nofun hrange
  · rw [hread v hv]
    split_ifs with hrange
    · exact iff_of_false nofun fun h => h hrange
    · exact iff_of_true rfl hrange

end Decimal

theorem Cell.rangeChecked_read (t : Text) :
    Decimal.RangeChecked Cell.read Cell.toInt (-512) 511 .valueNotInteger .valueOutOfRange t := by
  refine Decimal.rangeChecked (fun v => ⟨BitVec.ofInt 10 v⟩) Cell.read_of_not_writesInt
    (fun v => Cell.read_of_writesInt) ?_ nofun
  intro v hleast hgreatest
  exact BitVec.toInt_ofInt_eq_self (by decide) hleast (Int.lt_of_le_of_lt hgreatest (by decide))

theorem Operand.rangeChecked_readImmediate (t : Text) :
    Decimal.RangeChecked Operand.readImmediate BitVec.toInt (-128) 127 .immediateNotInteger
      .immediateOutOfRange t := by
  refine Decimal.rangeChecked (BitVec.ofInt 8) Operand.readImmediate_of_not_writesInt
    (fun v => Operand.readImmediate_of_writesInt) ?_ nofun
  intro v hleast hgreatest
  exact BitVec.toInt_ofInt_eq_self (by decide) hleast (Int.lt_of_le_of_lt hgreatest (by decide))

/-! ### Dimensions -/

theorem bracketed?_eq_some_iff {t x rest : Text} : bracketed? t = some (x, rest) ↔
    t = '[' :: (x ++ ']' :: rest) ∧ ∀ c ∈ x, isBracket c = false := by
  constructor
  · intro h
    unfold bracketed? at h
    split at h
    · rename_i u
      have hsplit := List.takeWhile_append_dropWhile (p := fun c => !isBracket c) (l := u)
      split at h
      · rename_i hrest
        cases h
        rw [hrest] at hsplit
        refine ⟨by rw [hsplit], fun c hc => ?_⟩
        simpa using List.mem_takeWhile_imp hc
      · cases h
    · cases h
  · rintro ⟨rfl, hx⟩
    exact bracketed?_eq_some hx rest

namespace Statement

/-- The brackets in front of the values of a matrix. -/
theorem dimensionParts?_eq_some_iff {t x y rest : Text} : dimensionParts? t = some (x, y, rest) ↔
    ∃ b, t = '[' :: (x ++ ']' :: (b ++ '[' :: (y ++ ']' :: rest))) ∧
      (∀ c ∈ x, isBracket c = false) ∧ Text.Blank b ∧ ∀ c ∈ y, isBracket c = false := by
  constructor
  · intro h
    obtain ⟨⟨x', u⟩, hrows, h⟩ := Option.bind_eq_some_iff.1 h
    obtain ⟨⟨y', rest'⟩, hcolumns, h⟩ := Option.bind_eq_some_iff.1 h
    cases h
    obtain ⟨rfl, hx⟩ := bracketed?_eq_some_iff.1 hrows
    obtain ⟨hu, hy⟩ := bracketed?_eq_some_iff.1 hcolumns
    refine ⟨u.takeWhile Text.isBlank, ?_, hx, fun c hc => List.mem_takeWhile_imp hc, hy⟩
    rw [← hu, Text.trimStart, List.takeWhile_append_dropWhile]
  · rintro ⟨b, rfl, hx, hb, hy⟩
    exact dimensionParts?_eq_some hx hb hy rest

/-- The text starts with dimensions in brackets: numerals for counts that are not zero,
with white space around them or not, that make a matrix of at most 256 cells. The
values follow. -/
def Sizes (t : Text) (rows columns : Nat) (rest : Text) : Prop :=
  ∃ x b y, t = '[' :: (x ++ ']' :: (b ++ '[' :: (y ++ ']' :: rest))) ∧
    (∀ c ∈ x, isBracket c = false) ∧ Text.Blank b ∧ (∀ c ∈ y, isBracket c = false) ∧
    Decimal.WritesCount (Text.trim x) rows ∧ Decimal.WritesCount (Text.trim y) columns ∧
    1 ≤ rows ∧ 1 ≤ columns ∧ rows * columns ≤ 256

theorem readDimension_cases (t : Text) :
    (∃ n, readDimension t = .ok n) ∨ readDimension t = .error .badDimensions := by
  unfold readDimension
  split
  · split
    · exact .inl ⟨_, rfl⟩
    · exact .inr rfl
  · exact .inr rfl

theorem readDimensions_cases (t : Text) :
    (∃ d rest, readDimensions t = .ok (d, rest)) ∨ readDimensions t = .error .badDimensions := by
  unfold readDimensions
  split
  · exact .inr rfl
  · rename_i x y rest _
    rcases readDimension_cases x with ⟨rows, hrows⟩ | hrows
    · rcases readDimension_cases y with ⟨columns, hcolumns⟩ | hcolumns
      · rw [hrows, hcolumns]
        simp only [bind, Except.bind]
        split
        · split
          · exact .inl ⟨_, _, rfl⟩
          · exact .inr rfl
        · exact .inr rfl
      · rw [hrows, hcolumns]
        exact .inr rfl
    · rw [hrows]
      exact .inr rfl

/-- **Dimensions are accepted by their values.** -/
theorem readDimensions_eq_ok_iff {t rest : Text} {rows columns : Nat} :
    readDimensions t = .ok (⟨rows, columns⟩, rest) ↔ Sizes t rows columns rest := by
  rw [readDimensions_eq_ok_iff_parts]
  constructor
  · rintro ⟨x, y, hparts, hrows, hcolumns, hcells⟩
    obtain ⟨b, ht, hx, hb, hy⟩ := dimensionParts?_eq_some_iff.1 hparts
    obtain ⟨hrows, hrow, -⟩ := readDimension_eq_ok_iff.1 hrows
    obtain ⟨hcolumns, hcolumn, -⟩ := readDimension_eq_ok_iff.1 hcolumns
    exact ⟨x, b, y, ht, hx, hb, hy, hrows, hcolumns, hrow, hcolumn, hcells⟩
  · rintro ⟨x, b, y, rfl, hx, hb, hy, hrows, hcolumns, hrow, hcolumn, hcells⟩
    obtain ⟨hrowLe, hcolumnLe⟩ := le_greatest_of_cells hrow hcolumn hcells
    exact ⟨x, y, dimensionParts?_eq_some hx hb hy rest,
      readDimension_eq_ok_iff.2 ⟨hrows, hrow, hrowLe⟩,
      readDimension_eq_ok_iff.2 ⟨hcolumns, hcolumn, hcolumnLe⟩, hcells⟩

/-! ### Matrices -/

theorem readMatrix_of_sizes {t rest : Text} {rows columns : Nat} (h : Sizes t rows columns rest) :
    readMatrix t = (readValues rest).bind fun vs =>
      if rows * columns < vs.length then .error .tooManyValues
      else .ok (.matrix (some ⟨rows, columns⟩) vs) := by
  have hdimensions := readDimensions_eq_ok_iff.2 h
  obtain ⟨x, b, y, rfl, -⟩ := h
  rw [readMatrix, if_pos List.head?_cons, hdimensions]
  rfl

theorem readMatrix_of_not_sizes {t : Text} (hhead : t.head? = some '[')
    (h : ¬ ∃ rows columns rest, Sizes t rows columns rest) :
    readMatrix t = .error .badDimensions := by
  rcases readDimensions_cases t with ⟨d, rest, hok⟩ | herror
  · exact absurd ⟨_, _, _, readDimensions_eq_ok_iff.1 hok⟩ h
  · rw [readMatrix, if_pos hhead, herror]
    rfl

/-- The cells of a matrix are its values, filled up with zeroes. -/
theorem dataCells_of_le {d : Dimensions} {vs : List Cell} (h : vs.length ≤ d.cells) :
    (Directive.matrix (some d) vs).dataCells =
      vs ++ List.replicate (d.cells - vs.length) Cell.zero := by
  rw [Directive.dataCells, List.take_of_length_le h]
  rfl

/-- **Numbers are checked by their value**, whatever text they stand in. A cell takes
the integers from -512 to 511 and an immediate operand those from -128 to 127. A text
in front of which brackets open is that of a matrix with dimensions if and only if
these are counts of at most 256 cells in all; then the matrix has just that many
cells, its values and zeroes behind them, unless there are more values. -/
theorem numbers_by_value (t : Text) :
    Decimal.RangeChecked Cell.read Cell.toInt (-512) 511 .valueNotInteger .valueOutOfRange t ∧
    Decimal.RangeChecked Operand.readImmediate BitVec.toInt (-128) 127 .immediateNotInteger
      .immediateOutOfRange t ∧
    (∀ rows columns rest,
      readDimensions t = .ok (⟨rows, columns⟩, rest) ↔ Sizes t rows columns rest) ∧
    (t.head? = some '[' → (¬ ∃ rows columns rest, Sizes t rows columns rest) →
      readMatrix t = .error .badDimensions) ∧
    ∀ rows columns rest, Sizes t rows columns rest →
      (∀ e, readValues rest = .error e → readMatrix t = .error e) ∧
      ∀ vs, readValues rest = .ok vs →
        (rows * columns < vs.length → readMatrix t = .error .tooManyValues) ∧
        (vs.length ≤ rows * columns → ∃ d, readMatrix t = .ok d ∧
          d.dataCells = vs ++ List.replicate (rows * columns - vs.length) Cell.zero ∧
          d.dataCells.length = rows * columns) := by
  refine ⟨Cell.rangeChecked_read t, Operand.rangeChecked_readImmediate t,
    fun rows columns rest => readDimensions_eq_ok_iff, readMatrix_of_not_sizes, ?_⟩
  intro rows columns rest hsizes
  rw [readMatrix_of_sizes hsizes]
  refine ⟨fun e he => by rw [he]; rfl, fun vs hvs => ?_⟩
  rw [hvs]
  refine ⟨fun hmany => if_pos hmany, fun hfew => ?_⟩
  have hcells := dataCells_of_le (d := ⟨rows, columns⟩) hfew
  refine ⟨_, if_neg (Nat.not_lt.2 hfew), hcells, ?_⟩
  rw [hcells, List.length_append, List.length_replicate]
  exact Nat.add_sub_cancel' hfew

/-- No width of a machine makes these rows one row. -/
example : readMatrix "[18446744073709551617][1] 7".toList = .error .badDimensions := rfl

end Statement
end TenBit
