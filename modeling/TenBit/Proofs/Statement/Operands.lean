/-
# How operands are written

An immediate operand is `#` and a numeral, a name stands for itself, a register is
written by its name, and an element of a matrix by the name of the matrix and the
two registers in brackets; white space may stand around these registers as long as
it does not separate items. Whatever is written so is read as the operand it is
written for, if its name could be that of a label.

Key definitions: `Operand.IsPadding`, `Operand.IsIndex`, `Operand.WrittenAs`.
Key theorems: `bracketed?_eq_some`, `Operand.elementParts?_eq_some`,
`Operand.read_of_writtenAs`, `Operand.WrittenAs.tight`.
-/
import TenBit.Proofs.Statement.Items
import TenBit.Proofs.Statement.WellFormed
import TenBit.Proofs.Text.Decimal

namespace TenBit

/-! ### Names -/

/-- A character that is neither letter nor digit is not in the name of a label. -/
theorem Name.IsLabel.ne {macros : MacroTable} {n : Text} (h : IsLabel macros n) {c d : Char}
    (hc : c ∈ n) (hd : d.isAlphanum = false) : c ≠ d := by
  rintro rfl
  rw [h.isAlphanum c hc] at hd
  cases hd

theorem Name.IsLabel.isWord {macros : MacroTable} {n : Text} (h : IsLabel macros n) :
    Text.IsWord n := by
  refine ⟨?_, fun c hc => Text.isBlank_of_isAlphanum (h.isAlphanum c hc)⟩
  obtain ⟨c, cs, rfl, -⟩ := h.shape
  exact List.cons_ne_nil c cs

theorem Name.IsLabel.ofName? {macros : MacroTable} {n : Text} (h : IsLabel macros n) :
    Register.ofName? n = none :=
  List.find?_eq_none.2 fun r _ => by simpa using (h.unreserved.register r).symm

namespace Register

theorem ofName?_name (r : Register) : ofName? r.name = some r := by
  obtain ⟨n⟩ := r
  revert n
  decide

theorem isAlphanum_of_mem_name (r : Register) : ∀ c ∈ r.name, c.isAlphanum = true := by
  have hall : ∀ n, (Register.mk n).name.all Char.isAlphanum = true := by decide
  obtain ⟨n⟩ := r
  exact List.all_eq_true.1 (hall n)

theorem isWord_name (r : Register) : Text.IsWord r.name :=
  ⟨List.cons_ne_nil _ _, fun c hc => Text.isBlank_of_isAlphanum (r.isAlphanum_of_mem_name c hc)⟩

/-- The name of a register has two characters, neither of them a bracket. -/
theorem ofName?_of_bracket {t : Text} (h : '[' ∈ t) : ofName? t = none := by
  refine List.find?_eq_none.2 fun r _ hr => ?_
  have hname : r.name = t := by simpa using hr
  have halphanum := r.isAlphanum_of_mem_name '[' (hname ▸ h)
  revert halphanum
  decide

end Register

/-! ### Brackets -/

/-- A character of a kind that brackets are not of. -/
theorem isBracket_eq_false {p : Char → Bool} {c : Char} (hopening : p '[' = false)
    (hclosing : p ']' = false) (h : p c = true) : isBracket c = false := by
  rw [Bool.eq_false_iff]
  intro hc
  have hbracket : c = '[' ∨ c = ']' := by simpa [isBracket] using hc
  rcases hbracket with rfl | rfl
  · simp [hopening] at h
  · simp [hclosing] at h

theorem isBracket_of_isAlphanum {c : Char} (h : c.isAlphanum = true) : isBracket c = false :=
  isBracket_eq_false rfl rfl h

theorem isBracket_of_isBlank {c : Char} (h : Text.isBlank c = true) : isBracket c = false :=
  isBracket_eq_false rfl rfl h

/-- White space around a text brings no bracket into it. -/
theorem isBracket_of_mem_append {a t b : Text} (ha : Text.Blank a)
    (ht : ∀ c ∈ t, isBracket c = false) (hb : Text.Blank b) :
    ∀ c ∈ a ++ t ++ b, isBracket c = false := by
  intro c hc
  rcases List.mem_append.1 hc with hc | hc
  · rcases List.mem_append.1 hc with hc | hc
    · exact isBracket_of_isBlank (ha c hc)
    · exact ht c hc
  · exact isBracket_of_isBlank (hb c hc)

/-- The text between two brackets, if there is no bracket in it. -/
theorem bracketed?_eq_some {x : Text} (hx : ∀ c ∈ x, isBracket c = false) (rest : Text) :
    bracketed? ('[' :: (x ++ ']' :: rest)) = some (x, rest) := by
  have hall : ∀ c ∈ x, (!isBracket c) = true := fun c hc => by simp [hx c hc]
  have hstop : ∀ c ∈ (']' :: rest).head?, (!isBracket c) = false := by simp [isBracket]
  simp only [bracketed?, Text.takeWhile_append_stop hall hstop,
    Text.dropWhile_append_stop hall hstop]

namespace Operand

/-- White space that does not separate items. -/
def IsPadding (t : Text) : Prop := ∀ c ∈ t, Text.isBlank c = true ∧ c ∉ Items.separators

theorem IsPadding.blank {t : Text} (h : IsPadding t) : Text.Blank t := fun c hc => (h c hc).1

/-- A register between brackets. -/
def IsIndex (r : Register) (t : Text) : Prop :=
  ∃ a b, t = a ++ r.name ++ b ∧ IsPadding a ∧ IsPadding b

/-- The texts of an operand. -/
inductive WrittenAs : Operand → Text → Prop
  | immediate {v : BitVec 8} {t : Text} (h : Decimal.WritesInt t v.toInt) :
      WrittenAs (.immediate v) ('#' :: t)
  | direct (n : Text) : WrittenAs (.direct n) n
  | matrix (n : Text) {row column : Register} {x y : Text} (hrow : IsIndex row x)
      (hcolumn : IsIndex column y) :
      WrittenAs (.matrix n row column) (n ++ '[' :: (x ++ ']' :: '[' :: (y ++ [']'])))
  | register (r : Register) : WrittenAs (.register r) r.name

/-! ### Elements -/

theorem IsIndex.isBracket {r : Register} {x : Text} (h : IsIndex r x) :
    ∀ c ∈ x, isBracket c = false := by
  obtain ⟨a, b, rfl, ha, hb⟩ := h
  exact isBracket_of_mem_append ha.blank
    (fun c hc => isBracket_of_isAlphanum (r.isAlphanum_of_mem_name c hc)) hb.blank

theorem IsIndex.readIndex {r : Register} {x : Text} (h : IsIndex r x) : readIndex x = .ok r := by
  obtain ⟨a, b, rfl, ha, hb⟩ := h
  have htrim : Text.trim (a ++ r.name ++ b) = r.name :=
    Text.trim_append ha.blank r.isWord_name.tight hb.blank
  rw [Operand.readIndex, htrim, Register.ofName?_name]

/-- The name and the bracketed texts of an element. -/
theorem elementParts?_eq_some {n x y : Text} (hn : n ≠ []) (hname : ∀ c ∈ n, isBracket c = false)
    (hx : ∀ c ∈ x, isBracket c = false) (hy : ∀ c ∈ y, isBracket c = false) :
    elementParts? (n ++ '[' :: (x ++ ']' :: '[' :: (y ++ [']']))) = some (n, x, y) := by
  have hall : ∀ c ∈ n, (!isBracket c) = true := fun c hc => by simp [hname c hc]
  have hstop : ∀ c ∈ ('[' :: (x ++ ']' :: '[' :: (y ++ [']']))).head?, (!isBracket c) = false := by
    simp [isBracket]
  simp [elementParts?, Text.takeWhile_append_stop hall hstop, Text.dropWhile_append_stop hall hstop,
    bracketed?_eq_some hx, bracketed?_eq_some hy, hn]

/-! ### Reading -/

theorem read_of_head {macros : MacroTable} {t : Text} (h : t.head? ≠ some '#') :
    read macros t = readPlain macros t := by
  unfold read
  split
  · exact absurd rfl h
  · rfl

theorem readImmediate_of_not_writesInt {t : Text} (h : ¬ ∃ v, Decimal.WritesInt t v) :
    readImmediate t = .error .immediateNotInteger := by
  rw [readImmediate, Decimal.isInteger_eq_false_iff.2 h]
  rfl

/-- Of an integer only the value counts. -/
theorem readImmediate_of_writesInt {t : Text} {v : Int} (h : Decimal.WritesInt t v) :
    readImmediate t =
      if -128 ≤ v ∧ v ≤ 127 then .ok (BitVec.ofInt 8 v) else .error .immediateOutOfRange := by
  have hparse : Decimal.Bounds.int8.parse? t = Decimal.Bounds.int8.check v :=
    Decimal.Bounds.parse?_of_writesInt (by decide) (by decide) h
  rw [readImmediate, Decimal.isInteger_iff.2 ⟨v, h⟩, hparse]
  cases hcheck : Decimal.Bounds.int8.check v with
  | none =>
    exact (if_neg (Decimal.Bounds.check_eq_none_iff.1 hcheck)).symm
  | some n =>
    obtain ⟨rfl, hrange⟩ := Decimal.Bounds.check_eq_some_iff.1 hcheck
    exact (if_pos hrange).symm

theorem readImmediate_of_writesInt_toInt {v : BitVec 8} {t : Text}
    (h : Decimal.WritesInt t v.toInt) : readImmediate t = .ok v := by
  have hleast : -128 ≤ v.toInt := v.le_toInt
  have hgreatest : v.toInt < 128 := v.toInt_lt
  rw [readImmediate_of_writesInt h, if_pos ⟨hleast, by omega⟩, BitVec.ofInt_toInt]

/-- **An operand is read from each of its texts**, if its name could be that of a
label. -/
theorem read_of_writtenAs {macros : MacroTable} {o : Operand} {t : Text} (h : o.WrittenAs t)
    (hnames : ∀ n, o.name? = some n → Name.IsLabel macros n) : read macros t = .ok o := by
  cases h with
  | immediate h => rw [read, readImmediate_of_writesInt_toInt h]; rfl
  | direct =>
    have hlabel := hnames t rfl
    have hhead : t.head? ≠ some '#' := fun hc =>
      hlabel.ne (List.mem_of_head? hc) (by decide) rfl
    have hbracket : t.any isBracket = false := by
      rw [List.any_eq_false]
      intro c hc
      simp [isBracket_of_isAlphanum (hlabel.isAlphanum c hc)]
    rw [read_of_head hhead, readPlain, hlabel.ofName?]
    simp only [hbracket, Bool.false_eq_true, if_false]
    rw [readName, Name.checkLabel_eq_ok_iff.2 hlabel]
  | @matrix n row column x y hrow hcolumn =>
    have hlabel := hnames n rfl
    obtain ⟨c, u, hcons⟩ := List.exists_cons_of_ne_nil hlabel.isWord.1
    have hhead : (n ++ '[' :: (x ++ ']' :: '[' :: (y ++ [']']))).head? ≠ some '#' := by
      rw [hcons]
      intro hc
      exact hlabel.ne (hcons ▸ List.mem_cons_self) (by decide) (Option.some.inj hc)
    have hparts := elementParts?_eq_some hlabel.isWord.1
      (fun c hc => isBracket_of_isAlphanum (hlabel.isAlphanum c hc)) hrow.isBracket
      hcolumn.isBracket
    have hbracket : (n ++ '[' :: (x ++ ']' :: '[' :: (y ++ [']']))).any isBracket = true :=
      List.any_eq_true.2 ⟨'[', by simp, by decide⟩
    rw [read_of_head hhead, readPlain, Register.ofName?_of_bracket (by simp)]
    simp only [hbracket, if_true]
    rw [readElement, hparts]
    simp only [Name.checkLabel_eq_ok_iff.2 hlabel, hrow.readIndex, hcolumn.readIndex]
    rfl
  | register r =>
    have hhead : r.name.head? ≠ some '#' := by simp [Register.name]
    rw [read_of_head hhead, readPlain, Register.ofName?_name]

/-- The text of an operand starts and ends visibly. -/
theorem WrittenAs.tight {macros : MacroTable} {o : Operand} {t : Text} (h : o.WrittenAs t)
    (hnames : ∀ n, o.name? = some n → Name.IsLabel macros n) : Text.Tight t := by
  cases h with
  | immediate h =>
    have hword : Text.IsWord ('#' :: _) := Decimal.isWord_cons (by decide) h.isWord
    exact hword.tight
  | direct => exact (hnames t rfl).isWord.tight
  | @matrix n row column x y hrow hcolumn =>
    refine Text.tight_append (hnames n rfl).isWord.tight.first ⟨']', ?_, by decide⟩
    simp [List.getLast?_cons, List.getLast?_append]
  | register r => exact r.isWord_name.tight

end Operand
end TenBit
