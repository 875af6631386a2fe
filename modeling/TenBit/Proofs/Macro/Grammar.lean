/-
# The grammar of macros

A source is accepted by the expansion if and only if it keeps to a grammar. Its
lines are short; they are cut into blocks and the lines between them; a block
names its macro on its first line and says nothing else there nor on its last;
and a call stands alone, behind one label at most. The grammar is about words,
the pieces of a line between its white space, and knows nothing of the machine
that reads the lines.

Key definitions: `Text.words`, `Name.Admissible`, `SourceLine.Proper`, `Block.Proper`,
`Grammatical`, `Source.numbered`.
Key theorems: `Text.words_of_nextWord?`, `Expander.outside_quiet_iff`,
`Expander.quiet_iff_grammatical`, `Expansion.ofFile_ok_iff_grammatical`.
-/
import Mathlib.Data.List.TakeWhile
import TenBit.Proofs.Macro.Blocks
import TenBit.Proofs.Source.Decoding

namespace TenBit

/-! ### Words -/

namespace Text

/-- The words of a text are its pieces between white space. -/
def words (t : Text) : List Text := (t.splitOnP isBlank).filter fun w => !w.isEmpty

/-- **Words are divided by white space.** -/
theorem words_append_blank {c : Char} (hc : isBlank c = true) (t u : Text) :
    words (t ++ c :: u) = words t ++ words u := by
  unfold words
  rw [List.splitOnP_append_cons t u hc, List.filter_append]

theorem words_cons_blank {c : Char} (hc : isBlank c = true) (t : Text) :
    words (c :: t) = words t := words_append_blank hc [] t

theorem words_eq_singleton {w : Text} (hne : w ≠ []) (h : ∀ c ∈ w, isBlank c = false) :
    words w = [w] := by
  rw [words, List.splitOnP_eq_singleton h]
  simp [hne]

theorem words_trimStart : ∀ t : Text, words (trimStart t) = words t
  | [] => rfl
  | c :: t => by
    unfold trimStart
    by_cases hc : isBlank c = true
    · rw [List.dropWhile_cons_of_pos hc, words_cons_blank hc]
      exact words_trimStart t
    · rw [List.dropWhile_cons_of_neg hc]

/-- A text that starts with a word. -/
theorem words_cons {c : Char} (hc : isBlank c = false) (t : Text) :
    words (c :: t) =
      (c :: t).takeWhile (fun d => !isBlank d) ::
        words ((c :: t).dropWhile fun d => !isBlank d) := by
  have hsplit := List.takeWhile_append_dropWhile (p := fun d => !isBlank d) (l := c :: t)
  have hword : ∀ d ∈ (c :: t).takeWhile (fun d => !isBlank d), isBlank d = false := by
    intro d hd
    simpa using List.mem_takeWhile_imp hd
  have hne : (c :: t).takeWhile (fun d => !isBlank d) ≠ [] := by simp [hc]
  cases hrest : (c :: t).dropWhile (fun d => !isBlank d) with
  | nil =>
    rw [hrest, List.append_nil] at hsplit
    rw [hsplit] at hword
    rw [hsplit, words_eq_singleton (List.cons_ne_nil c t) hword]
    rfl
  | cons b u =>
    have hb : isBlank b = true := by
      simpa [hrest] using List.head?_dropWhile_not (fun d => !isBlank d) (c :: t)
    rw [hrest] at hsplit
    calc words (c :: t)
        = words ((c :: t).takeWhile (fun d => !isBlank d) ++ b :: u) := by rw [hsplit]
      _ = [(c :: t).takeWhile fun d => !isBlank d] ++ words u := by
          rw [words_append_blank hb, words_eq_singleton hne hword]
      _ = (c :: t).takeWhile (fun d => !isBlank d) :: words (b :: u) := by
          rw [words_cons_blank hb, List.singleton_append]

theorem words_of_nextWord?_eq_none {t : Text} (h : nextWord? t = none) : words t = [] := by
  unfold nextWord? at h
  split at h
  · rename_i hblank
    rw [← words_trimStart, hblank]
    rfl
  · cases h

/-- **The next word** is the first of the words, and the others are behind it. -/
theorem words_of_nextWord? {t word rest : Text} (h : nextWord? t = some (word, rest)) :
    words t = word :: words rest := by
  unfold nextWord? at h
  rw [← words_trimStart]
  cases ht : trimStart t with
  | nil => simp [ht] at h
  | cons c s =>
    have hc : isBlank c = false := by
      have hhead := List.head?_dropWhile_not isBlank t
      rw [show t.dropWhile isBlank = c :: s from ht] at hhead
      exact hhead
    simp only [ht, Option.some.injEq, Prod.mk.injEq] at h
    rw [words_cons hc, h.1, h.2]

theorem isBlankText_iff {t : Text} : isBlankText t = true ↔ words t = [] := by
  induction t with
  | nil => simp [isBlankText, words]
  | cons c t ih =>
    cases hc : isBlank c with
    | true =>
      rw [words_cons_blank hc, ← ih, isBlankText, List.all_cons, hc, Bool.true_and, isBlankText]
    | false => simp [isBlankText, hc, words_cons hc]

theorem firstWord?_eq_head? (t : Text) : firstWord? t = (words t).head? := by
  unfold firstWord?
  cases h : nextWord? t with
  | none =>
    rw [words_of_nextWord?_eq_none h]
    rfl
  | some r =>
    rw [words_of_nextWord? h]
    rfl

theorem secondWord?_eq_getElem? (t : Text) : secondWord? t = (words t)[1]? := by
  unfold secondWord?
  cases h : nextWord? t with
  | none =>
    rw [words_of_nextWord?_eq_none h]
    rfl
  | some r =>
    rw [words_of_nextWord? h, Option.bind_some, firstWord?_eq_head?, List.head?_eq_getElem?]
    rfl

end Text

/-! ### The grammar -/

/-- A name that a macro may have: a letter and then letters, digits and
underscores, 30 characters at most, without another meaning. -/
structure Name.Admissible (t : Text) : Prop where
  shape : ∃ c cs, t = c :: cs ∧ c.isAlpha = true ∧
    ∀ d ∈ cs, d.isAlpha = true ∨ d.isDigit = true ∨ d = '_'
  length : t.length ≤ 30
  unreserved : Unreserved t

/-- The name of the macro of a block. -/
def Block.name? (b : Block) : Option Text := Text.secondWord? b.head.text

/-- The first line of a body that says something has no label, if there is one. -/
def Unlabelled (body : List Text) : Prop :=
  ∀ t word, body.find? (fun u => !Statement.isSilent u) = some t →
    Text.firstWord? t = some word → ':' ∉ word

/-- What a line outside the blocks has to keep to, given the blocks before it: it
ends no block, and if it calls a macro it says nothing else and has the only
label. -/
structure SourceLine.Proper (before : List Block) (l : SourceLine) : Prop where
  stray : Text.firstWord? l.text ≠ some Name.macroEnd
  alone : ∀ b ∈ before, ∀ label name, Calls l.text label name → b.name? = some name →
    Text.words l.text = label.toList ++ [name]
  label : ∀ b ∈ before, ∀ label name, Calls l.text (some label) name → b.name? = some name →
    Unlabelled (b.body.map SourceLine.text)

/-- What a block has to keep to, given the blocks before it. -/
structure Block.Proper (before : List Block) (b : Block) (name : Text) : Prop where
  head : Text.words b.head.text = [Name.macroStart, name]
  admissible : Name.Admissible name
  fresh : ∀ b' ∈ before, b'.name? ≠ some name
  last : Text.words b.last.text = [Name.macroEnd]

/-- The parts of a source that keep to the grammar, given the blocks before
them. -/
inductive Grammatical : List Block → List Part → Prop
  | done (before : List Block) : Grammatical before []
  | line {before : List Block} {l : SourceLine} {ps : List Part} (hl : l.Proper before)
      (hps : Grammatical before ps) : Grammatical before (.line l :: ps)
  | block {before : List Block} {b : Block} {name : Text} {ps : List Part}
      (hb : b.Proper before name) (hps : Grammatical (before ++ [b]) ps) :
      Grammatical before (.block b :: ps)

namespace Source

/-- Texts as the lines that follow line `n`. -/
def numbered (n : Nat) : List Text → List SourceLine
  | [] => []
  | t :: ts => ⟨nextNumber n, t⟩ :: numbered (nextNumber n) ts

end Source

/-! ### Names -/

namespace Name

theorem isReserved_eq_false {t : Text} (h : Unreserved t) : isReserved t = false := by
  have hopcode : Opcode.ofMnemonic? t = none :=
    List.find?_eq_none.2 fun o _ => by simpa using (h.opcode o).symm
  have hregister : Register.ofName? t = none :=
    List.find?_eq_none.2 fun r _ => by simpa using (h.register r).symm
  have hdirective : t ∉ directives := by
    intro ht
    simp only [directives, List.mem_cons, List.not_mem_nil, or_false] at ht
    rcases ht with rfl | rfl | rfl | rfl | rfl
    · exact (h.directive (.data [])).2 (by decide)
    · exact (h.directive (.string [])).2 (by decide)
    · exact (h.directive (.matrix none [])).2 (by decide)
    · exact (h.directive (.entry [])).2 (by decide)
    · exact (h.directive (.external [])).2 (by decide)
  simp [isReserved, hopcode, hregister, h.macroStart, h.macroEnd, hdirective]

/-- **The names that are accepted** are those that are admissible and new. -/
theorem checkMacro_eq_ok_iff {macros : MacroTable} {t : Text} :
    checkMacro macros t = .ok () ↔ Admissible t ∧ macros.contains t = false := by
  constructor
  · intro h
    obtain ⟨-, hnew, hfree⟩ := of_checkMacro h
    cases t with
    | nil => cases h
    | cons c cs =>
      simp only [checkMacro] at h
      split_ifs at h with halpha hcharacters hlong
      refine ⟨⟨⟨c, cs, rfl, by simpa using halpha, ?_⟩, Nat.le_of_not_lt hlong, hfree⟩, hnew⟩
      intro d hd
      have hcharacter : isMacroCharacter d = true := by
        simp at hcharacters
        exact hcharacters d hd
      simpa [isMacroCharacter, Char.isAlphanum, or_assoc] using hcharacter
  · rintro ⟨⟨⟨c, cs, rfl, halpha, hcharacters⟩, hlength, hfree⟩, hnew⟩
    have hall : cs.all isMacroCharacter = true := by
      rw [List.all_eq_true]
      intro d hd
      simpa [isMacroCharacter, Char.isAlphanum, or_assoc] using hcharacters d hd
    simp only [checkMacro, halpha, hall, isReserved_eq_false hfree, hnew, Bool.not_true,
      Bool.false_eq_true, if_false]
    exact if_neg (Nat.not_lt.2 hlength)

end Name

/-- What is said of the blocks of a name can be said of their macros. -/
theorem forall_defines_iff {before : List Block} {ms : List Macro}
    (h : List.Forall₂ Block.Defines before ms) (name : Text) (P : List Text → Prop) :
    (∀ b ∈ before, b.name? = some name → P (b.body.map SourceLine.text)) ↔
      ∀ m ∈ ms, m.name = name → P m.body := by
  induction h with
  | nil => simp
  | @cons b m before ms hb _ ih =>
    have hname : b.name? = some name ↔ m.name = name := by
      rw [Block.name?, hb.name, Option.some.injEq]
    rw [List.forall_mem_cons, List.forall_mem_cons, ih, hname, hb.body]

theorem Calls.spoken {t name : Text} {label : Option Text} (h : Calls t label name) :
    Statement.isSilent t = false := by
  cases h with
  | plain hspoken => exact hspoken
  | labelled hspoken => exact hspoken

theorem Calls.firstWord {t name : Text} {label : Option Text} (h : Calls t label name) :
    ∃ word, Text.firstWord? t = some word := by
  cases h with
  | plain _ hname => exact ⟨_, hname⟩
  | labelled _ hlabel => exact ⟨_, hlabel⟩

/-! ### One line -/

namespace Expander

theorem recordIf_quiet_iff {s : Expander} (hs : s.report.diagnostics = []) {b : Bool} {f : Fault}
    {line : Nat} : (s.recordIf b f line).report.diagnostics = [] ↔ b = false := by
  cases b <;> simp [recordIf, Report.recordIf, Report.record, hs]

theorem contains_eq_false_iff {s : Expander} {ms : List Macro} (hs : s.Between ms) {name : Text} :
    s.macros.contains name = false ↔ ∀ m ∈ ms, m.name ≠ name := by
  rw [← Bool.not_eq_true, MacroTable.contains_iff, hs.macros]
  simp

/-- **The line that opens a definition** is quiet if a new name stands on it and
nothing else. -/
theorem openDefinition_quiet_iff {s : Expander} {ms : List Macro} (hs : s.Between ms) (line : Nat)
    (t : Text) : (s.openDefinition line t).report.diagnostics = [] ↔
      ∃ name, Text.words t = [name] ∧ Name.Admissible name ∧ ∀ m ∈ ms, m.name ≠ name := by
  unfold openDefinition
  simp only
  cases hword : Text.nextWord? t with
  | none =>
    -- the missing name is refused
    rw [Text.words_of_nextWord?_eq_none hword]
    simp [Name.checkMacro, record, Report.record]
  | some r =>
    obtain ⟨word, rest⟩ := r
    rw [Text.words_of_nextWord? hword]
    simp only [Option.getD_some]
    cases hcheck : Name.checkMacro s.macros word with
    | error f =>
      refine iff_of_false record_not_quiet ?_
      rintro ⟨name, hname, hadmissible, hnew⟩
      obtain ⟨rfl, -⟩ := List.cons.inj hname
      have hok := Name.checkMacro_eq_ok_iff.2 ⟨hadmissible, (contains_eq_false_iff hs).2 hnew⟩
      rw [hcheck] at hok
      cases hok
    | ok u =>
      obtain ⟨hadmissible, hnew⟩ := Name.checkMacro_eq_ok_iff.1 hcheck
      have hdefine : (s.recordIf (!Text.isBlankText rest) .textAfterMacroName line).macros.define
          word line = .ok ⟨s.macros.macros ++ [⟨word, line, []⟩]⟩ := by
        simp [MacroTable.define, recordIf, hnew]
      simp only [hdefine]
      rw [recordIf_quiet_iff hs.report, Bool.not_eq_false', Text.isBlankText_iff]
      constructor
      · intro hrest
        exact ⟨word, by rw [hrest], hadmissible, (contains_eq_false_iff hs).1 hnew⟩
      · rintro ⟨name, hname, -, -⟩
        exact (List.cons.inj hname).2

theorem unlabelled_cons_of_silent {t : Text} (ht : Statement.isSilent t = true) (body : List Text) :
    Unlabelled (t :: body) ↔ Unlabelled body := by
  unfold Unlabelled
  rw [List.find?_cons_of_neg (by simp [ht])]

theorem unlabelled_cons_of_spoken {t : Text} (ht : Statement.isSilent t = false)
    (body : List Text) : Unlabelled (t :: body) ↔ hasLabel t = false := by
  have hfind : (t :: body).find? (fun u => !Statement.isSilent u) = some t :=
    List.find?_cons_of_pos (by simp [ht])
  have hfirst : hasLabel t = false ↔ ∀ word, Text.firstWord? t = some word → ':' ∉ word := by
    unfold hasLabel Text.firstWord?
    cases Text.nextWord? t <;> simp
  rw [hfirst]
  constructor
  · exact fun h word hword => h t word hfind hword
  · intro h u word hu hword
    rw [hfind] at hu
    exact h word (Option.some.inj hu ▸ hword)

/-- A label finds its place unless another stands there. -/
theorem attach_eq_false_iff (label : Text) : ∀ body : List Text,
    (attach label body).2 = false ↔ Unlabelled body
  | [] => by simp [attach, Unlabelled]
  | t :: body => by
    simp only [attach]
    cases hsilent : Statement.isSilent t with
    | true =>
      rw [unlabelled_cons_of_silent hsilent, ← attach_eq_false_iff label body]
      rfl
    | false =>
      rw [unlabelled_cons_of_spoken hsilent]
      cases hasLabel t <;> simp

/-- **A line that calls a name** is quiet if there is no macro of that name, or if
nothing stands behind the name and no label is in the way of its own. -/
theorem callNamed_quiet_iff {s : Expander} {ms : List Macro} (hs : s.Between ms)
    (hms : (ms.map Macro.name).Nodup) (line : Nat) (t : Text) (label : Option Text)
    (name rest : Text) : (s.callNamed line t label name rest).1.report.diagnostics = [] ↔
      ∀ m ∈ ms, m.name = name →
        Text.words rest = [] ∧ (label.isSome = true → Unlabelled m.body) := by
  unfold callNamed
  cases hcontains : s.macros.contains name with
  | false =>
    refine iff_of_true hs.report fun m hm he => ?_
    exact absurd he ((contains_eq_false_iff hs).1 hcontains m hm)
  | true =>
    obtain ⟨m, hm, rfl, hbody⟩ := body_of_contains hs hcontains
    have honly : ∀ m' ∈ ms, m'.name = m.name → m' = m :=
      fun m' hm' he => List.inj_on_of_nodup_map hms hm' hm he
    have hiff : (∀ m' ∈ ms, m'.name = m.name →
        Text.words rest = [] ∧ (label.isSome = true → Unlabelled m'.body)) ↔
          Text.words rest = [] ∧ (label.isSome = true → Unlabelled m.body) := by
      constructor
      · exact fun h => h m hm rfl
      · intro h m' hm' he
        rw [honly m' hm' he]
        exact h
    rw [hiff, ← Text.isBlankText_iff]
    cases hblank : Text.isBlankText rest with
    | false => simp [record, Report.record]
    | true =>
      simp only [expand, hbody, Bool.not_true, Bool.false_eq_true, if_false, true_and]
      cases label with
      | none => simp [hs.report]
      | some l => simp [recordIf_quiet_iff hs.report, attach_eq_false_iff]

/-- A line that says something calls a name, unless there is only a label. -/
theorem call_cases (s : Expander) (line : Nat) {t word rest : Text}
    (hspoken : Statement.isSilent t = false) (hword : Text.nextWord? t = some (word, rest)) :
    (∃ label name rest', Calls t label name ∧
        Text.words t = label.toList ++ name :: Text.words rest' ∧
        s.call line t word rest = s.callNamed line t label name rest') ∨
      (∀ label name, ¬ Calls t label name) ∧ s.call line t word rest = (s, [⟨line, t⟩]) := by
  have hfirst := Text.firstWord?_of_nextWord? hword
  have hsecond := Text.secondWord?_of_nextWord? hword
  have hwords := Text.words_of_nextWord? hword
  unfold call
  by_cases hcolon : word.getLast? = some ':'
  · rw [if_pos hcolon]
    cases hnext : Text.nextWord? rest with
    | none =>
      rw [Text.firstWord?, hnext, Option.map_none] at hsecond
      refine Or.inr ⟨fun label name hcall => ?_, rfl⟩
      cases hcall with
      | plain _ hname hplain =>
        rw [hfirst] at hname
        exact hplain (Option.some.inj hname ▸ hcolon)
      | labelled _ _ _ hname =>
        rw [hsecond] at hname
        cases hname
    | some r =>
      obtain ⟨name, rest'⟩ := r
      rw [Text.firstWord?_of_nextWord? hnext] at hsecond
      rw [Text.words_of_nextWord? hnext] at hwords
      exact Or.inl ⟨some word, name, rest', .labelled hspoken hfirst hcolon hsecond, hwords, rfl⟩
  · rw [if_neg hcolon]
    exact Or.inl ⟨none, word, rest, .plain hspoken hfirst hcolon, hwords, rfl⟩

/-- What a line outside the definitions can be: it opens one, ends one that is not
there, calls a name, or does none of these. -/
theorem outside_cases (s : Expander) (line : Nat) (t : Text) :
    (∃ rest, Text.words t = Name.macroStart :: Text.words rest ∧
        s.outside line t = (s.openDefinition line rest, [])) ∨
      (Text.firstWord? t = some Name.macroEnd ∧
        s.outside line t = (s.record .strayMacroEnd line, [])) ∨
      Text.firstWord? t ≠ some Name.macroStart ∧ Text.firstWord? t ≠ some Name.macroEnd ∧
        ((∃ label name rest, Calls t label name ∧
            Text.words t = label.toList ++ name :: Text.words rest ∧
            s.outside line t = s.callNamed line t label name rest) ∨
          (∀ label name, ¬ Calls t label name) ∧ s.outside line t = (s, [⟨line, t⟩])) := by
  unfold outside
  cases hsilent : Statement.isSilent t with
  | true =>
    have hmark : ∀ {word}, word.head? ≠ some Statement.commentMark →
        Text.firstWord? t ≠ some word :=
      fun hword hfirst => hword (Statement.firstWord?_of_isSilent hsilent hfirst)
    refine Or.inr (Or.inr ⟨hmark (by decide), hmark (by decide),
      Or.inr ⟨fun label name hcall => ?_, rfl⟩⟩)
    have hspoken := hcall.spoken
    rw [hsilent] at hspoken
    cases hspoken
  | false =>
    simp only [Bool.false_eq_true, if_false]
    cases hword : Text.nextWord? t with
    | none =>
      have hnone : Text.firstWord? t = none := by rw [Text.firstWord?, hword, Option.map_none]
      refine Or.inr (Or.inr ⟨by simp [hnone], by simp [hnone],
        Or.inr ⟨fun label name hcall => ?_, rfl⟩⟩)
      obtain ⟨word, hfirst⟩ := hcall.firstWord
      rw [hnone] at hfirst
      cases hfirst
    | some r =>
      obtain ⟨word, rest⟩ := r
      have hfirst := Text.firstWord?_of_nextWord? hword
      have hwords := Text.words_of_nextWord? hword
      by_cases hstart : word = Name.macroStart
      · subst hstart
        exact Or.inl ⟨rest, hwords, if_pos rfl⟩
      by_cases hend : word = Name.macroEnd
      · subst hend
        exact Or.inr (Or.inl ⟨hfirst, rfl⟩)
      refine Or.inr (Or.inr ⟨by simpa [hfirst] using hstart, by simpa [hfirst] using hend, ?_⟩)
      simp only [if_neg hstart, if_neg hend]
      exact call_cases s line hsilent hword

/-- **A line outside the definitions** that opens none is quiet if it is
proper. -/
theorem outside_quiet_iff {s : Expander} {ms : List Macro} (hs : s.Between ms)
    (hms : (ms.map Macro.name).Nodup) {before : List Block}
    (hbefore : List.Forall₂ Block.Defines before ms) {l : SourceLine}
    (hl : Text.firstWord? l.text ≠ some Name.macroStart) :
    (s.step l.origin l.text).1.report.diagnostics = [] ↔ l.Proper before := by
  have hstep : s.step l.origin l.text = s.outside l.origin l.text := by
    simp only [step, hs.definition]
  rw [hstep]
  rcases outside_cases s l.origin l.text with
    ⟨rest, hwords, -⟩ | ⟨hend, ho⟩ | ⟨-, hend, ⟨label, name, rest, hcall, hwords, ho⟩ | ⟨hcall, ho⟩⟩
  · rw [Text.firstWord?_eq_head?, hwords] at hl
    exact absurd rfl hl
  · rw [ho]
    exact iff_of_false record_not_quiet fun h => h.stray hend
  · rw [ho, callNamed_quiet_iff hs hms, ← forall_defines_iff hbefore name
      fun body => Text.words rest = [] ∧ (label.isSome = true → Unlabelled body)]
    constructor
    · intro h
      refine ⟨hend, fun b hb label' name' hcall' hname => ?_,
        fun b hb label' name' hcall' hname => ?_⟩
      · obtain ⟨rfl, rfl⟩ := hcall.unique hcall'
        rw [hwords, (h b hb hname).1]
      · obtain ⟨rfl, rfl⟩ := hcall.unique hcall'
        exact (h b hb hname).2 rfl
    · intro h b hb hname
      refine ⟨?_, fun hsome => ?_⟩
      · have halone := h.alone b hb label name hcall hname
        rw [hwords] at halone
        exact (List.cons.inj (List.append_cancel_left halone)).2
      · obtain ⟨l', rfl⟩ := Option.isSome_iff_exists.1 hsome
        exact h.label b hb l' name hcall hname
  · rw [ho]
    exact iff_of_true hs.report ⟨hend, fun b _ label name h => absurd h (hcall label name),
      fun b _ label name h => absurd h (hcall (some label) name)⟩

theorem opening_quiet_iff {s : Expander} {ms : List Macro} (hs : s.Between ms) (line : Nat)
    {t : Text} (ht : Text.firstWord? t = some Name.macroStart) :
    (s.step line t).1.report.diagnostics = [] ↔
      ∃ name, Text.words t = [Name.macroStart, name] ∧ Name.Admissible name ∧
        ∀ m ∈ ms, m.name ≠ name := by
  have hstep : s.step line t = s.outside line t := by simp only [step, hs.definition]
  rw [hstep]
  rcases outside_cases s line t with ⟨rest, hwords, ho⟩ | ⟨hend, -⟩ | ⟨hstart, -⟩
  · rw [ho, openDefinition_quiet_iff hs, hwords]
    simp
  · rw [ht] at hend
    exact absurd hend (by decide)
  · exact absurd ht hstart

/-- **A line inside a definition** is quiet unless it closes the definition and says
more. -/
theorem inside_quiet_iff {s : Expander} {ms : List Macro} {m : Macro} (hs : s.Defining ms m)
    (line : Nat) (t : Text) : (s.step line t).1.report.diagnostics = [] ↔
      (Text.firstWord? t = some Name.macroEnd → Text.words t = [Name.macroEnd]) := by
  have hstep : (s.step line t).1 = s.inside ⟨some m.name, m.line⟩ line t := by
    simp only [step, hs.definition]
  have hkeep := (keep_defining hs line t).report
  rw [hstep]
  unfold inside
  cases hword : Text.nextWord? t with
  | none => exact iff_of_true hkeep (by simp [Text.firstWord?, hword])
  | some r =>
    obtain ⟨word, rest⟩ := r
    rw [Text.firstWord?_of_nextWord? hword, Text.words_of_nextWord? hword]
    by_cases hend : word = Name.macroEnd
    · simp only [if_pos hend]
      rw [recordIf_quiet_iff hs.report, Bool.not_eq_false', Text.isBlankText_iff]
      simp [hend]
    · simp only [if_neg hend]
      exact iff_of_true hkeep (by simp [hend])

/-! ### All lines -/

theorem quiet_cons_iff {s : Expander} (hs : s.Sound) (hquiet : s.report.diagnostics = [])
    (l : SourceLine) (ls : List (Nat × Source.Content)) : Quiet s (l.asRead :: ls) ↔
      (s.step l.origin l.text).1.report.diagnostics = [] ∧ Quiet (s.step l.origin l.text).1 ls := by
  constructor
  · intro h
    obtain ⟨t, ht, hnow, hlater, -⟩ := Quiet.cons h hs
    cases ht
    exact ⟨hnow, hlater⟩
  · rintro ⟨-, hlater⟩
    have hfatal : s.report.isFatal = false := by simp [Report.isFatal, hquiet]
    simpa [Quiet, run, SourceLine.asRead, hfatal] using hlater

/-- **A block behind its first line.** The induction is on the body. -/
theorem quiet_body_iff {last : SourceLine} (hlast : Text.firstWord? last.text = some Name.macroEnd)
    (rest : List (Nat × Source.Content)) : ∀ {body : List SourceLine} {s : Expander}
    {ms : List Macro} {m : Macro}, s.Defining ms m →
    (∀ l ∈ body, Text.firstWord? l.text ≠ some Name.macroEnd) →
    ∃ s' : Expander, (Text.words last.text = [Name.macroEnd] →
        s'.Between (ms ++ [{ m with body := m.body ++ body.map SourceLine.text }])) ∧
      (Quiet s (body.map SourceLine.asRead ++ last.asRead :: rest) ↔
        Text.words last.text = [Name.macroEnd] ∧ Quiet s' rest)
  | [], s, ms, m, hs, _ => by
    have hiff := inside_quiet_iff hs last.origin last.text
    refine ⟨(s.step last.origin last.text).1, fun hwords => ?_, ?_⟩
    · obtain ⟨-, ⟨-, hbetween⟩ | ⟨hinner, -⟩⟩ := inside_step hs (hiff.2 fun _ => hwords)
      · simpa using hbetween
      · exact absurd hlast hinner
    · rw [List.map_nil, List.nil_append, quiet_cons_iff hs.sound hs.report, hiff]
      simp [hlast]
  | l :: body, s, ms, m, hs, hbody => by
    obtain ⟨hl, hbody⟩ := List.forall_mem_cons.1 hbody
    have hquiet := (inside_quiet_iff hs l.origin l.text).2 fun hend => absurd hend hl
    obtain ⟨-, ⟨hend, -⟩ | ⟨-, hdefining⟩⟩ := inside_step hs hquiet
    · exact absurd hend hl
    obtain ⟨s', hbetween, hiff⟩ := quiet_body_iff hlast rest hdefining hbody
    refine ⟨s', by simpa using hbetween, ?_⟩
    rw [List.map_cons, List.cons_append, quiet_cons_iff hs.sound hs.report, hiff]
    simp [hquiet]

/-- **A whole block.** -/
theorem quiet_block_iff {s : Expander} {ms : List Macro} (hs : s.Between ms) {before : List Block}
    (hbefore : List.Forall₂ Block.Defines before ms) {b : Block} (hb : (Part.block b).Delimited)
    (rest : List (Nat × Source.Content)) :
    ∃ s' : Expander, (∀ name, b.Proper before name →
        ∃ m, b.Defines m ∧ (∀ m' ∈ ms, m'.name ≠ m.name) ∧ s'.Between (ms ++ [m])) ∧
      (Quiet s ((Part.block b).lines.map SourceLine.asRead ++ rest) ↔
        (∃ name, b.Proper before name) ∧ Quiet s' rest) := by
  obtain ⟨hhead, hbody, hlast⟩ := hb
  have hopening := opening_quiet_iff hs b.head.origin hhead
  have hfresh : ∀ name, (∀ b' ∈ before, b'.name? ≠ some name) ↔ ∀ m ∈ ms, m.name ≠ name :=
    fun name => forall_defines_iff hbefore name fun _ => False
  have hlines : (Part.block b).lines.map SourceLine.asRead ++ rest =
      b.head.asRead :: (b.body.map SourceLine.asRead ++ b.last.asRead :: rest) := by
    simp [Part.lines]
  rw [hlines, quiet_cons_iff hs.sound hs.report]
  by_cases hquiet : (s.step b.head.origin b.head.text).1.report.diagnostics = []
  · obtain ⟨name, hwords, hadmissible, hnew⟩ := hopening.1 hquiet
    have hsecond : Text.secondWord? b.head.text = some name := by
      rw [Text.secondWord?_eq_getElem?, hwords]
      rfl
    obtain ⟨-, -, name', hname', -, hdefining⟩ | ⟨hstart, -⟩ := outside_step hs hquiet
    · obtain rfl : name = name' := Option.some.inj (hsecond.symm.trans hname')
      obtain ⟨s', hbetween, hiff⟩ := quiet_body_iff hlast rest hdefining hbody
      refine ⟨s', fun name' hproper => ?_, ?_⟩
      · exact ⟨⟨name, b.head.origin, b.body.map SourceLine.text⟩, ⟨hsecond, rfl, rfl⟩, hnew,
          hbetween hproper.last⟩
      · rw [hiff]
        constructor
        · rintro ⟨-, hend, hrest⟩
          exact ⟨⟨name, hwords, hadmissible, (hfresh name).2 hnew, hend⟩, hrest⟩
        · rintro ⟨⟨name', hproper⟩, hrest⟩
          exact ⟨hquiet, hproper.last, hrest⟩
    · exact absurd hhead hstart
  · have hnot : ∀ name, ¬ b.Proper before name := fun name hproper =>
      hquiet (hopening.2 ⟨name, hproper.head, hproper.admissible, (hfresh name).1 hproper.fresh⟩)
    refine ⟨s, fun name hproper => absurd hproper (hnot name), ?_⟩
    refine iff_of_false (fun h => hquiet h.1) ?_
    rintro ⟨⟨name, hproper⟩, -⟩
    exact hnot name hproper

theorem grammatical_line_iff {before : List Block} {l : SourceLine} {ps : List Part} :
    Grammatical before (.line l :: ps) ↔ l.Proper before ∧ Grammatical before ps := by
  constructor
  · rintro (_ | ⟨hl, hps⟩)
    exact ⟨hl, hps⟩
  · exact fun h => .line h.1 h.2

theorem grammatical_block_iff {before : List Block} {b : Block} {ps : List Part} :
    Grammatical before (.block b :: ps) ↔
      (∃ name, b.Proper before name) ∧ Grammatical (before ++ [b]) ps := by
  constructor
  · rintro (_ | _ | ⟨hb, hps⟩)
    exact ⟨⟨_, hb⟩, hps⟩
  · rintro ⟨⟨name, hb⟩, hps⟩
    exact .block hb hps

/-- **The lines of a source that is cut into parts** give nothing to report if and
only if the parts keep to the grammar. -/
theorem quiet_iff_grammatical : ∀ {ps : List Part} {s : Expander} {ms : List Macro}
    {before : List Block}, s.Between ms → (ms.map Macro.name).Nodup →
    List.Forall₂ Block.Defines before ms → (∀ p ∈ ps, p.Delimited) →
    (Quiet s ((ps.flatMap Part.lines).map SourceLine.asRead) ↔ Grammatical before ps)
  | [], s, ms, before, hs, _, _, _ => by
    refine iff_of_true ?_ (.done before)
    simp [Quiet, run, finish, hs.definition, hs.report]
  | .line l :: ps, s, ms, before, hs, hms, hbefore, hps => by
    obtain ⟨hl, hps⟩ := List.forall_mem_cons.1 hps
    rw [grammatical_line_iff, ← outside_quiet_iff hs hms hbefore hl]
    refine (quiet_cons_iff hs.sound hs.report l _).trans (and_congr_right fun hquiet => ?_)
    obtain ⟨hstart, -⟩ | ⟨-, hbetween, -⟩ := outside_step hs hquiet
    · exact absurd hstart hl
    · exact quiet_iff_grammatical hbetween hms hbefore hps
  | .block b :: ps, s, ms, before, hs, hms, hbefore, hps => by
    obtain ⟨hb, hps⟩ := List.forall_mem_cons.1 hps
    obtain ⟨s', hbetween, hiff⟩ := quiet_block_iff hs hbefore hb
      ((ps.flatMap Part.lines).map SourceLine.asRead)
    rw [List.flatMap_cons, List.map_append, hiff, grammatical_block_iff]
    refine and_congr_right ?_
    rintro ⟨name, hproper⟩
    obtain ⟨m, hm, hfresh, hs'⟩ := hbetween name hproper
    exact quiet_iff_grammatical hs' (nodup_concat hms hfresh)
      (List.rel_append hbefore (.cons hm .nil)) hps

/-- Whatever the expansion reports is at least an error. -/
theorem run_no_notes : ∀ (ls : List (Nat × Source.Content)) {s : Expander}, s.Sound →
    (∀ d ∈ s.report.diagnostics, d.fault.severity ≠ .note) →
    ∀ d ∈ (run s ls).1.report.diagnostics, d.fault.severity ≠ .note
  | [], _, _, h => h
  | (n, c) :: ls, s, hs, h => by
    have hrecord : ∀ {f : Fault}, f.severity ≠ .note →
        ∀ d ∈ (s.record f n).report.diagnostics, d.fault.severity ≠ .note :=
      fun hf => List.forall_mem_append.2 ⟨h, by simpa using hf⟩
    unfold run
    split
    · exact h
    · cases c with
      | tooLong => exact run_no_notes ls (s := s.record .lineTooLong n) hs (hrecord (by decide))
      | unreadable reason => exact hrecord (by decide)
      | text t =>
        obtain ⟨hstep, -⟩ := step_steps hs n t
        refine run_no_notes ls (hstep.sound hs) fun d hd => ?_
        rcases hstep.report.mem_diagnostics hd with hd | ⟨hf, -⟩
        · exact h d hd
        · exact hf.2.2

end Expander

theorem Expansion.ofInput_no_notes (file : Text) (input : Input) :
    ∀ d ∈ (ofInput .empty (.new file) input).report.diagnostics, d.fault.severity ≠ .note := by
  have hrun := Expander.run_no_notes (Source.lines Source.maxLength input)
    (s := { macros := .empty, report := .new file }) (fun _ _ h => by cases h)
    (by simp [Report.new])
  intro d hd
  simp only [ofInput, Expander.finish] at hd
  split at hd
  · exact hrun d hd
  · simp only [Expander.recordIf, Report.recordIf] at hd
    split at hd
    · rcases List.mem_append.1 hd with hd | hd
      · exact hrun d hd
      · rw [List.mem_singleton.1 hd]
        exact (by decide : Fault.macroUnterminated.severity ≠ .note)
    · exact hrun d hd

theorem Expansion.exists_ok_iff (file : Text) (input : Input) :
    (∃ x, ofFile file input = .ok x) ↔
      Expander.Quiet { macros := .empty, report := .new file }
        (Source.lines Source.maxLength input) := by
  have hzero : (ofInput .empty (.new file) input).report.errorCount = 0 ↔
      (ofInput .empty (.new file) input).report.diagnostics = [] := by
    rw [Report.errorCount_eq_zero_iff, List.eq_nil_iff_forall_not_mem]
    constructor
    · exact fun h d hd => ofInput_no_notes file input d hd (h d hd)
    · exact fun h d hd => absurd hd (h d)
  refine Iff.trans ?_ hzero
  unfold ofFile
  by_cases herror : 0 < (ofInput .empty (.new file) input).report.errorCount
  · simp only [herror, if_true]
    refine iff_of_false ?_ (Nat.pos_iff_ne_zero.1 herror)
    rintro ⟨x, hx⟩
    cases hx
  · simp only [herror, if_false]
    exact iff_of_true ⟨_, rfl⟩ (Nat.eq_zero_of_not_pos herror)

theorem SourceLine.asRead_injective : Function.Injective SourceLine.asRead := by
  rintro ⟨n, t⟩ ⟨n', t'⟩ h
  cases h
  rfl

namespace Source

theorem number_map_text : ∀ (n : Nat) (ts : List Text),
    number n (ts.map .text) = (numbered n ts).map SourceLine.asRead
  | _, [] => rfl
  | n, t :: ts => by
    rw [List.map_cons, number, number_map_text, numbered]
    rfl

/-- Short lines are read as they are. -/
theorem lines_of_short {limit : Nat} {bytes : List UInt8}
    (h : ∀ t ∈ texts bytes, t.length ≤ limit) :
    lines limit ⟨bytes, none⟩ = (numbered 0 (texts bytes)).map SourceLine.asRead := by
  rw [lines, contents_eq_map, ← number_map_text]
  congr 1
  exact List.map_congr_left fun t ht => if_neg (Nat.not_lt.2 (h t ht))

/-- If all lines are read then all are short. -/
theorem short_of_lines {limit : Nat} {bytes : List UInt8} {ls : List SourceLine}
    (h : lines limit ⟨bytes, none⟩ = ls.map SourceLine.asRead) :
    ∀ t ∈ texts bytes, t.length ≤ limit := by
  intro t ht
  have hcontents : contents limit ⟨bytes, none⟩ = ls.map fun l => .text l.text := by
    rw [← map_snd_number 0 (contents limit ⟨bytes, none⟩)]
    exact (congrArg (List.map Prod.snd) h).trans (List.map_map ..)
  have hmem := List.mem_map_of_mem
    (f := fun t => if limit < t.length then Content.tooLong else .text t) ht
  rw [← contents_eq_map, hcontents] at hmem
  obtain ⟨l, -, hl⟩ := List.mem_map.1 hmem
  by_contra hlong
  rw [if_pos (Nat.lt_of_not_le hlong)] at hl
  cases hl

end Source

/-- **Expansion accepts the grammar of macros and nothing else.** A source that can
be read to its end is accepted if and only if its lines have at most 80 characters
and are cut into parts that keep to the grammar. -/
theorem Expansion.ofFile_ok_iff_grammatical (file : Text) (bytes : List UInt8) :
    (∃ x, ofFile file ⟨bytes, none⟩ = .ok x) ↔
      (∀ t ∈ Source.texts bytes, t.length ≤ 80) ∧
        ∃ ps : List Part, ps.flatMap Part.lines = Source.numbered 0 (Source.texts bytes) ∧
          (∀ p ∈ ps, p.Delimited) ∧ Grammatical [] ps := by
  have hstart : Expander.Between { macros := .empty, report := .new file } [] := ⟨rfl, rfl, rfl⟩
  have hgrammar : ∀ {ps : List Part}, (∀ p ∈ ps, p.Delimited) →
      (Expander.Quiet { macros := .empty, report := .new file }
        ((ps.flatMap Part.lines).map SourceLine.asRead) ↔ Grammatical [] ps) :=
    Expander.quiet_iff_grammatical hstart List.nodup_nil .nil
  rw [exists_ok_iff]
  constructor
  · intro hquiet
    obtain ⟨ps, ms, hcut⟩ := Expander.run_cut hstart hquiet
    have hlines := hcut.lines
    have hshort := Source.short_of_lines hlines
    rw [hlines, hgrammar hcut.delimited] at hquiet
    rw [Source.lines_of_short hshort] at hlines
    refine ⟨hshort, ps, ?_, hcut.delimited, hquiet⟩
    exact (List.map_injective_iff.2 SourceLine.asRead_injective hlines).symm
  · rintro ⟨hshort, ps, hlines, hdelimited, hps⟩
    have hread : Source.lines Source.maxLength ⟨bytes, none⟩ = _ := Source.lines_of_short hshort
    rw [hread, ← hlines]
    exact (hgrammar hdelimited).2 hps

end TenBit
