/-
# The word of a label

A line whose first word has a colon in it is refused for what is wrong with that
word, whatever follows: the faults of a label are looked for in a fixed order, and
the first that applies is told. If none applies, then the line says what the rest
of it would say alone, with the label added.

Key definitions: `Name.IsLabel`, `Name.faults`, `FirstOf`, `Statement.labelFaults`,
`Statement.withLabel`.
Key theorems: `Name.checkLabel_eq_ok_iff`, `Name.checkLabel_of_firstOf`,
`Statement.read_of_opens`, `Statement.read_of_colon`.
-/
import TenBit.Proofs.Macro.Grammar
import TenBit.Proofs.Text.Words

namespace TenBit

/-! ### Names of labels -/

/-- The first rule whose condition holds tells the fault. -/
inductive FirstOf : List (Prop × Fault) → Fault → Prop
  | here {p : Prop} {f : Fault} {rules : List (Prop × Fault)} (h : p) : FirstOf ((p, f) :: rules) f
  | later {p : Prop} {f g : Fault} {rules : List (Prop × Fault)} (h : ¬ p)
      (hrules : FirstOf rules g) : FirstOf ((p, f) :: rules) g

namespace Name

/-- A name that a label may have: a letter and then letters and digits, 30
characters at most, without another meaning and not the name of a macro. -/
structure IsLabel (macros : MacroTable) (n : Text) : Prop where
  shape : ∃ c cs, n = c :: cs ∧ c.isAlpha = true ∧ ∀ d ∈ cs, d.isAlpha = true ∨ d.isDigit = true
  length : n.length ≤ 30
  unreserved : Unreserved n
  fresh : ∀ m ∈ macros.macros, m.name ≠ n

/-- What can be wrong with the name of a label, in the order in which it is
looked for. -/
def faults (macros : MacroTable) (n : Text) : List (Prop × Fault) := [
  (n = [], .labelEmpty),
  (∃ c ∈ n.head?, c.isAlpha = false, .labelStart),
  (∃ c ∈ n.tail, c.isAlpha = false ∧ c.isDigit = false, .labelCharacter),
  (30 < n.length, .labelTooLong),
  (¬ Unreserved n, .labelReserved),
  (∃ m ∈ macros.macros, m.name = n, .labelNamesMacro)]

/-- The names without fault are those of labels. -/
theorem faultless_iff_isLabel {macros : MacroTable} {n : Text} :
    (∀ r ∈ faults macros n, ¬ r.1) ↔ IsLabel macros n := by
  simp only [faults, List.forall_mem_cons, List.not_mem_nil, false_imp_iff, implies_true, and_true]
  constructor
  · rintro ⟨hempty, hstart, hcharacter, hlong, hreserved, hmacro⟩
    obtain ⟨c, cs, rfl⟩ := List.exists_cons_of_ne_nil hempty
    refine ⟨⟨c, cs, rfl, by simpa using hstart, fun d hd => ?_⟩, Nat.le_of_not_lt hlong,
      not_not.1 hreserved, fun m hm he => hmacro ⟨m, hm, he⟩⟩
    by_contra hnot
    exact hcharacter ⟨d, hd, by simpa [not_or] using hnot⟩
  · rintro ⟨⟨c, cs, rfl, halpha, hcharacters⟩, hlength, hfree, hfresh⟩
    refine ⟨List.cons_ne_nil c cs, by simpa using halpha, ?_, Nat.not_lt.2 hlength,
      not_not.2 hfree, ?_⟩
    · rintro ⟨d, hd, halpha, hdigit⟩
      have hcharacter := hcharacters d hd
      simp [halpha, hdigit] at hcharacter
    · rintro ⟨m, hm, he⟩
      exact hfresh m hm he

/-- A label is made of letters and digits. -/
theorem IsLabel.isAlphanum {macros : MacroTable} {n : Text} (h : IsLabel macros n) :
    ∀ c ∈ n, c.isAlphanum = true := by
  obtain ⟨c, cs, rfl, halpha, hcs⟩ := h.shape
  intro d hd
  rcases List.mem_cons.1 hd with rfl | hd
  · simp [Char.isAlphanum, halpha]
  · simpa [Char.isAlphanum] using hcs d hd

theorem all_isLabelCharacter_iff {cs : Text} :
    cs.all isLabelCharacter = true ↔ ∀ d ∈ cs, d.isAlpha = true ∨ d.isDigit = true := by
  simp [isLabelCharacter, Char.isAlphanum]

/-- **The names that are accepted for labels.** -/
theorem checkLabel_eq_ok_iff {macros : MacroTable} {n : Text} :
    checkLabel macros n = .ok () ↔ IsLabel macros n := by
  constructor
  · intro h
    cases n with
    | nil => cases h
    | cons c cs =>
      simp only [checkLabel] at h
      split_ifs at h with halpha hcharacters hlong hreserved hknown
      have hstart : c.isAlpha = true := by simpa using halpha
      refine ⟨⟨c, cs, rfl, hstart, all_isLabelCharacter_iff.1 (by simpa using hcharacters)⟩,
        Nat.le_of_not_lt hlong, unreserved_of_isReserved hstart (by simpa using hreserved), ?_⟩
      intro m hm he
      exact hknown (MacroTable.contains_iff.2 ⟨m, hm, he⟩)
  · rintro ⟨⟨c, cs, rfl, halpha, hcharacters⟩, hlength, hfree, hfresh⟩
    have hknown : macros.contains (c :: cs) = false := by
      rw [Bool.eq_false_iff]
      intro hcontains
      obtain ⟨m, hm, he⟩ := MacroTable.contains_iff.1 hcontains
      exact hfresh m hm he
    simp only [checkLabel, halpha, all_isLabelCharacter_iff.2 hcharacters,
      isReserved_eq_false hfree, hknown, Bool.not_true, Bool.false_eq_true, if_false]
    exact if_neg (Nat.not_lt.2 hlength)

/-- **A name is refused for its first fault.** -/
theorem checkLabel_of_firstOf {macros : MacroTable} {n : Text} {f : Fault}
    (h : FirstOf (faults macros n) f) : checkLabel macros n = .error f := by
  rcases h with hempty | ⟨hempty, h⟩
  · rw [hempty]
    rfl
  obtain ⟨c, cs, rfl⟩ := List.exists_cons_of_ne_nil hempty
  rcases h with ⟨d, hd, hstart⟩ | ⟨hstart, h⟩
  · obtain rfl : c = d := Option.some.inj hd
    simp [checkLabel, hstart]
  have halpha : c.isAlpha = true := by simpa using hstart
  rcases h with ⟨d, hd, hcharacter⟩ | ⟨hcharacter, h⟩
  · have hbad : cs.all isLabelCharacter ≠ true := by
      intro hall
      have hd' := all_isLabelCharacter_iff.1 hall d hd
      simp [hcharacter] at hd'
    simp [checkLabel, halpha, hbad]
  have hall : cs.all isLabelCharacter = true := by
    rw [all_isLabelCharacter_iff]
    intro d hd
    by_contra hnot
    exact hcharacter ⟨d, hd, by simpa [not_or] using hnot⟩
  rcases h with hlong | ⟨hlong, h⟩
  · simp only [checkLabel, halpha, hall, Bool.not_true, Bool.false_eq_true, if_false]
    exact if_pos hlong
  have hshort : ¬ maxLength < (c :: cs).length := hlong
  rcases h with hreserved | ⟨hreserved, h⟩
  · have hword : isReserved (c :: cs) = true := by
      by_contra hnot
      exact hreserved (unreserved_of_isReserved halpha (by simpa using hnot))
    simp only [checkLabel, halpha, hall, hword, Bool.not_true, Bool.false_eq_true, if_false,
      if_neg hshort, if_true]
  rcases h with hmacro | ⟨-, h⟩
  · have hfree : isReserved (c :: cs) = false := isReserved_eq_false (not_not.1 hreserved)
    simp only [checkLabel, halpha, hall, hfree, MacroTable.contains_iff.2 hmacro, Bool.not_true,
      Bool.false_eq_true, if_false, if_neg hshort, if_true]
  · cases h

end Name

namespace Statement

/-! ### The rest of a line -/

theorem readBody_trimEnd (macros : MacroTable) (label : Option Text) (t : Text) :
    readBody macros label (Text.trimEnd t) = readBody macros label t := by
  unfold readBody
  rw [Text.nextWord?_trimEnd]
  cases Text.nextWord? t with
  | none => rfl
  | some r => simp only [Option.map_some, Text.trim_trimEnd]

theorem readBody_trim (macros : MacroTable) (label : Option Text) (t : Text) :
    readBody macros label (Text.trim t) = readBody macros label t := by
  rw [Text.trim, readBody_trimEnd, readBody, readBody, Text.nextWord?_trimStart]

/-- **A line that says something** is read by its first word. -/
theorem read_of_opens (macros : MacroTable) {t word rest : Text} (h : Text.Opens t word rest)
    (hspoken : word.head? ≠ some commentMark) : read macros t =
      if ':' ∈ word then (readLabel macros word >>= fun n => readBody macros (some n) rest)
      else readBody macros none t := by
  obtain ⟨c, u, rfl⟩ := List.exists_cons_of_ne_nil h.isWord.1
  have htrim : Text.trim t = c :: (u ++ Text.trimEnd rest) := h.trim_eq
  have hc : (c == commentMark) = false := by simpa using hspoken
  have hnext : Text.nextWord? (c :: (u ++ Text.trimEnd rest)) = some (c :: u, Text.trimEnd rest) :=
    htrim ▸ h.trim.nextWord?
  rw [read, htrim]
  simp only [hc, Bool.false_eq_true, if_false, readSpoken, hnext, List.contains_iff_mem]
  split
  · simp only [readBody_trimEnd]
  · rw [← htrim, readBody_trim]

/-- The statement with a label. -/
def withLabel (n : Text) : Statement → Statement
  | .blank => .blank
  | .comment => .comment
  | .directive _ d => .directive (some n) d
  | .instruction _ i => .instruction (some n) i

theorem readBody_some (macros : MacroTable) (n t : Text) :
    readBody macros (some n) t = (readBody macros none t).map (withLabel n) := by
  unfold readBody
  split
  · rfl
  · rename_i word rest _
    split
    · rename_i opcode _
      cases readInstruction macros opcode (Text.trim rest) <;> rfl
    · split
      · rename_i name _ _
        cases readDirective macros name (Text.trim rest) <;> rfl
      · rfl

theorem readLabel_colon {macros : MacroTable} {n : Text} (hn : ':' ∉ n) (tail : Text) :
    readLabel macros (n ++ ':' :: tail) =
      if tail = [] then (Name.checkLabel macros n).map fun _ => n else .error .textAfterColon := by
  have hall : ∀ c ∈ n, (c != ':') = true := by
    intro c hc
    have hne : c ≠ ':' := fun he => hn (he ▸ hc)
    simpa using hne
  have hstop : ∀ c ∈ (':' :: tail).head?, (c != ':') = false := by simp
  simp only [readLabel, Text.takeWhile_append_stop hall hstop,
    Text.dropWhile_append_stop hall hstop, List.cons.injEq, true_and]
  split
  · cases Name.checkLabel macros n <;> rfl
  · rfl

/-- What can be wrong with a word that has its first colon between `n` and `tail`,
in the order in which it is looked for. -/
def labelFaults (macros : MacroTable) (n tail : Text) : List (Prop × Fault) :=
  (tail ≠ [], .textAfterColon) :: Name.faults macros n

/-- **Labels.** Take a line that is not a comment and whose first word has its
first colon between `n` and `tail`. Whatever follows that word, the line is refused
for the first thing wrong with it: text behind the colon, or a fault of the name.
If nothing is, then the line must not end there; and if the next word neither has a
colon nor starts a comment, then the line is read as the rest is, with the label
added. -/
theorem read_of_colon (macros : MacroTable) {t n tail rest : Text}
    (hopens : Text.Opens t (n ++ ':' :: tail) rest) (hfirst : ':' ∉ n)
    (hspoken : (n ++ ':' :: tail).head? ≠ some ';') :
    (∀ f, FirstOf (labelFaults macros n tail) f → read macros t = .error f) ∧
    ((∀ r ∈ labelFaults macros n tail, ¬ r.1) →
      (Text.Blank rest → read macros t = .error .labelAlone) ∧
      ∀ next behind, Text.Opens rest next behind → ':' ∉ next → next.head? ≠ some ';' →
        read macros t = (read macros rest).map (withLabel n)) := by
  have hread := read_of_opens macros hopens hspoken
  rw [if_pos (by simp), readLabel_colon hfirst] at hread
  refine ⟨fun f hf => ?_, fun hnone => ?_⟩
  · rcases hf with htail | ⟨htail, hf⟩
    · rw [hread, if_neg htail]
      rfl
    · rw [hread, if_pos (not_not.1 htail), Name.checkLabel_of_firstOf hf]
      rfl
  · obtain ⟨htail, hfaults⟩ := List.forall_mem_cons.1 hnone
    have hlabel := Name.checkLabel_eq_ok_iff.2 (Name.faultless_iff_isLabel.1 hfaults)
    have hbody : read macros t = readBody macros (some n) rest := by
      rw [hread, if_pos (not_not.1 htail), hlabel]
      rfl
    refine ⟨fun hblank => ?_, fun next behind hnext hcolon hcomment => ?_⟩
    · rw [hbody, readBody, Text.nextWord?_eq_none_iff.2 hblank]
    · rw [hbody, readBody_some, read_of_opens macros hnext hcomment, if_neg hcolon]

/-- A name that starts with a digit, and a label in front of a statement. -/
theorem read_of_colon_sample :
    read .empty "\t2X: stop".toList = .error .labelStart ∧
    read .empty "X2:\t stop".toList =
      .ok (.instruction (some "X2".toList) (withOperands .stop [])) := by
  have hbad : Text.Opens "\t2X: stop".toList ("2X".toList ++ ':' :: []) " stop".toList :=
    Text.nextWord?_eq_some_iff.1 rfl
  have hgood : Text.Opens "X2:\t stop".toList ("X2".toList ++ ':' :: []) "\t stop".toList :=
    Text.nextWord?_eq_some_iff.1 rfl
  have hstop : Text.Opens "\t stop".toList "stop".toList [] := Text.nextWord?_eq_some_iff.1 rfl
  have hlabel : Name.IsLabel .empty "X2".toList := Name.checkLabel_eq_ok_iff.1 rfl
  refine ⟨(read_of_colon .empty hbad (by decide) (by decide)).1 _
    (.later (by simp) (.later (by decide) (.here ⟨'2', rfl, by decide⟩))), ?_⟩
  have hnone : ∀ r ∈ labelFaults .empty "X2".toList [], ¬ r.1 :=
    List.forall_mem_cons.2 ⟨not_not.2 rfl, Name.faultless_iff_isLabel.2 hlabel⟩
  rw [((read_of_colon .empty hgood (by decide) (by decide)).2 hnone).2 _ _ hstop (by decide)
    (by decide)]
  rfl

end Statement
end TenBit
