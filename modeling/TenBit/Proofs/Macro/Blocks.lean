/-
# Macros are expanded word for word

The lines of a source fall into blocks, each from a line that opens a macro to
the next one that closes it, and the lines between the blocks. There is one way
to cut a source like this. If the expansion of a source has nothing to report
then each block gives one macro, whose body is the block without its first and
last line, whatever stands there; and the expanded source is the lines between
the blocks, where a call of a macro of an earlier block is replaced by its body.

Key definitions: `Block`, `Part`, `Part.Delimited`, `Block.Defines`, `Calls`,
`Labelled`, `Replaced`, `Expands`, `Expansion.Verbatim`.
Key theorems: `Part.cut_unique`, `Expander.outside_step`, `Expander.inside_step`,
`Expander.run_cut`, `Expansion.ofInput_verbatim`.
-/
import Mathlib.Data.List.Forall2
import Mathlib.Data.List.Nodup
import Mathlib.Tactic.SplitIfs
import TenBit.Proofs.Macro.Lines

namespace TenBit

namespace Text

/-- The first word of a text. -/
def firstWord? (t : Text) : Option Text := (nextWord? t).map Prod.fst

/-- The second word of a text. -/
def secondWord? (t : Text) : Option Text := (nextWord? t).bind fun r => firstWord? r.2

end Text

/-! ### Blocks and the lines between them -/

/-- A definition in a source: the line that opens it, the lines of the macro, and
the line that closes it. -/
structure Block where
  head : SourceLine
  body : List SourceLine
  last : SourceLine
deriving DecidableEq, Repr

/-- A block, or a line outside all blocks. -/
inductive Part
  | line (l : SourceLine)
  | block (b : Block)
deriving DecidableEq, Repr

namespace Part

/-- The lines of a part. -/
def lines : Part → List SourceLine
  | line l => [l]
  | block b => b.head :: (b.body ++ [b.last])

/-- The block that a part is. -/
def block? : Part → Option Block
  | line _ => none
  | block b => some b

/-- A block goes from a line that opens a macro to the next that closes one, and
none starts outside the blocks. -/
def Delimited : Part → Prop
  | line l => Text.firstWord? l.text ≠ some Name.macroStart
  | block b => Text.firstWord? b.head.text = some Name.macroStart ∧
      (∀ l ∈ b.body, Text.firstWord? l.text ≠ some Name.macroEnd) ∧
      Text.firstWord? b.last.text = some Name.macroEnd

/-- The lines before the first with a property are determined. -/
theorem first_unique {α : Type} {p : α → Prop} : ∀ {as as' bs bs' : List α} {a a' : α},
    (∀ x ∈ as, ¬ p x) → (∀ x ∈ as', ¬ p x) → p a → p a' → as ++ a :: bs = as' ++ a' :: bs' →
      as = as' ∧ a = a' ∧ bs = bs'
  | [], [], _, _, _, _, _, _, _, _, h => by
    obtain ⟨rfl, rfl⟩ := List.cons.inj h
    exact ⟨rfl, rfl, rfl⟩
  | [], x :: as', _, _, _, _, _, has', ha, _, h => by
    obtain ⟨rfl, -⟩ := List.cons.inj h
    exact absurd ha (has' _ List.mem_cons_self)
  | x :: as, [], _, _, _, _, has, _, _, ha', h => by
    obtain ⟨rfl, -⟩ := List.cons.inj h
    exact absurd ha' (has _ List.mem_cons_self)
  | x :: as, y :: as', _, _, _, _, has, has', ha, ha', h => by
    obtain ⟨rfl, htail⟩ := List.cons.inj h
    obtain ⟨rfl, hrest⟩ := first_unique (fun z hz => has z (List.mem_cons_of_mem _ hz))
      (fun z hz => has' z (List.mem_cons_of_mem _ hz)) ha ha' htail
    exact ⟨rfl, hrest⟩

/-- **There is one way to cut a source into parts.** -/
theorem cut_unique : ∀ {ps qs : List Part}, (∀ p ∈ ps, p.Delimited) → (∀ q ∈ qs, q.Delimited) →
    ps.flatMap lines = qs.flatMap lines → ps = qs
  | [], [], _, _, _ => rfl
  | [], .line _ :: _, _, _, h => by cases h
  | [], .block _ :: _, _, _, h => by cases h
  | .line _ :: _, [], _, _, h => by cases h
  | .block _ :: _, [], _, _, h => by cases h
  | .line l :: ps, .line l' :: qs, hps, hqs, h => by
    obtain ⟨rfl, htail⟩ := List.cons.inj h
    rw [cut_unique (fun p hp => hps p (List.mem_cons_of_mem _ hp))
      (fun q hq => hqs q (List.mem_cons_of_mem _ hq)) htail]
  | .line l :: ps, .block b :: qs, hps, hqs, h => by
    obtain ⟨rfl, -⟩ := List.cons.inj h
    exact absurd (hqs _ List.mem_cons_self).1 (hps _ List.mem_cons_self)
  | .block b :: ps, .line l :: qs, hps, hqs, h => by
    obtain ⟨rfl, -⟩ := List.cons.inj h
    exact absurd (hps _ List.mem_cons_self).1 (hqs _ List.mem_cons_self)
  | .block ⟨head, body, last⟩ :: ps, .block ⟨head', body', last'⟩ :: qs, hps, hqs, h => by
    obtain ⟨-, hbody, hlast⟩ := hps _ List.mem_cons_self
    obtain ⟨-, hbody', hlast'⟩ := hqs _ List.mem_cons_self
    simp only [List.flatMap_cons, lines, List.cons_append, List.append_assoc, List.nil_append] at h
    obtain ⟨rfl, htail⟩ := List.cons.inj h
    obtain ⟨rfl, rfl, hrest⟩ := first_unique
      (p := fun l : SourceLine => Text.firstWord? l.text = some Name.macroEnd)
      hbody hbody' hlast hlast' htail
    rw [cut_unique (fun p hp => hps p (List.mem_cons_of_mem _ hp))
      (fun q hq => hqs q (List.mem_cons_of_mem _ hq)) hrest]

end Part

/-! ### What a source without faults expands to -/

/-- The macro of a block: its name is the second word of the first line. -/
structure Block.Defines (b : Block) (m : Macro) : Prop where
  name : Text.secondWord? b.head.text = some m.name
  line : m.line = b.head.origin
  body : m.body = b.body.map SourceLine.text

/-- The name means nothing else to the assembler. -/
structure Name.Unreserved (t : Text) : Prop where
  opcode : ∀ o : Opcode, t ≠ o.mnemonic
  register : ∀ r : Register, t ≠ r.name
  macroStart : t ≠ Name.macroStart
  macroEnd : t ≠ Name.macroEnd
  directive : ∀ d : Directive, d.keyword.toList ≠ t ∧ d.keyword.toList ≠ '.' :: t

/-- A line that says something calls its first word, or its second if the first
is a label. -/
inductive Calls (t : Text) : (label : Option Text) → (name : Text) → Prop
  | plain {name : Text} (h : Statement.isSilent t = false) (hname : Text.firstWord? t = some name)
      (hcolon : name.getLast? ≠ some ':') : Calls t none name
  | labelled {label name : Text} (h : Statement.isSilent t = false)
      (hlabel : Text.firstWord? t = some label) (hcolon : label.getLast? = some ':')
      (hname : Text.secondWord? t = some name) : Calls t (some label) name

/-- A body with a label on the first line that says something, or behind it if
there is none. -/
inductive Labelled (label : Text) : List Text → List Text → Prop
  | onto (quiet : List Text) {rest : List Text} {t : Text} (hquiet : ∀ q ∈ quiet, Statement.isSilent q = true)
      (ht : Statement.isSilent t = false) :
      Labelled label (quiet ++ t :: rest) (quiet ++ (label ++ ' ' :: Text.trimStart t) :: rest)
  | behind {body : List Text} (hbody : ∀ t ∈ body, Statement.isSilent t = true) :
      Labelled label body (body ++ [label])

/-- What stands in the expanded source for a line outside the blocks, given the
macros of the blocks before it. -/
inductive Replaced (ms : List Macro) (l : SourceLine) : List SourceLine → Prop
  | kept (h : ∀ label name, Calls l.text label name → ∀ m ∈ ms, m.name ≠ name) : Replaced ms l [l]
  | called {m : Macro} (hm : m ∈ ms) (h : Calls l.text none m.name) :
      Replaced ms l (m.body.map (SourceLine.mk l.origin))
  | labelled {m : Macro} {label : Text} {ts : List Text} (hm : m ∈ ms)
      (h : Calls l.text (some label) m.name) (hts : Labelled label m.body ts) :
      Replaced ms l (ts.map (SourceLine.mk l.origin))

/-- The expanded source of some parts, given the macros of the blocks before
them. -/
inductive Expands : List Macro → List Part → List SourceLine → Prop
  | done (ms : List Macro) : Expands ms [] []
  | line {ms : List Macro} {l : SourceLine} {ps : List Part} {ls out : List SourceLine}
      (hl : Replaced ms l ls) (hps : Expands ms ps out) : Expands ms (.line l :: ps) (ls ++ out)
  | block {ms : List Macro} {b : Block} {m : Macro} {ps : List Part} {out : List SourceLine}
      (hb : b.Defines m) (hps : Expands (ms ++ [m]) ps out) : Expands ms (.block b :: ps) out

/-- The expansion is that of a source with the given parts. -/
structure Expansion.Verbatim (x : Expansion) (ps : List Part) : Prop where
  macros : List.Forall₂ Block.Defines (ps.filterMap Part.block?) x.macros.macros
  distinct : (x.macros.macros.map Macro.name).Nodup
  unreserved : ∀ m ∈ x.macros.macros, Name.Unreserved m.name
  lines : Expands [] ps x.lines

/-! ### Words -/

theorem Text.firstWord?_of_nextWord? {t word rest : Text} (h : nextWord? t = some (word, rest)) :
    firstWord? t = some word := by
  rw [firstWord?, h, Option.map_some]

theorem Text.secondWord?_of_nextWord? {t word rest : Text} (h : nextWord? t = some (word, rest)) :
    secondWord? t = firstWord? rest := by
  rw [secondWord?, h, Option.bind_some]

/-- The first word of a line that says nothing starts a comment. -/
theorem Statement.firstWord?_of_isSilent {t word : Text} (h : isSilent t = true)
    (hword : Text.firstWord? t = some word) : word.head? = some commentMark := by
  unfold isSilent at h
  unfold Text.firstWord? Text.nextWord? at hword
  split at h
  · rename_i hblank
    simp [hblank] at hword
  · rename_i c cs hline
    have hc : c = commentMark := by simpa using h
    subst hc
    have hmark : Text.isBlank commentMark = false := by decide
    simp only [hline, Option.map_some, Option.some.injEq] at hword
    rw [← hword, List.takeWhile_cons, hmark]
    rfl

theorem Calls.unique {t name name' : Text} {label label' : Option Text} (h : Calls t label name)
    (h' : Calls t label' name') : label = label' ∧ name = name' := by
  cases h with
  | plain hs hn hc =>
    cases h' with
    | plain hs' hn' hc' =>
      rw [hn] at hn'
      exact ⟨rfl, Option.some.inj hn'⟩
    | labelled hs' hl' hc' hn' =>
      rw [hn] at hl'
      rw [Option.some.inj hl'] at hc
      exact absurd hc' hc
  | labelled hs hl hc hn =>
    cases h' with
    | plain hs' hn' hc' =>
      rw [hl] at hn'
      rw [Option.some.inj hn'] at hc
      exact absurd hc hc'
    | labelled hs' hl' hc' hn' =>
      rw [hl] at hl'
      rw [hn] at hn'
      exact ⟨hl', Option.some.inj hn'⟩

theorem Labelled.cons {label t : Text} {body ts : List Text} (ht : Statement.isSilent t = true)
    (h : Labelled label body ts) : Labelled label (t :: body) (t :: ts) := by
  cases h with
  | @onto quiet rest u hquiet hu =>
    exact .onto (t :: quiet) (List.forall_mem_cons.2 ⟨ht, hquiet⟩) hu
  | behind hbody => exact .behind (List.forall_mem_cons.2 ⟨ht, hbody⟩)

namespace Name

theorem keyword_eq (d : Directive) : ∃ t ∈ directives, d.keyword.toList = '.' :: t := by
  cases d with
  | data vs => exact ⟨"data".toList, by decide, show ".data".toList = _ by decide⟩
  | string t => exact ⟨"string".toList, by decide, show ".string".toList = _ by decide⟩
  | matrix dimensions vs => exact ⟨"mat".toList, by decide, show ".mat".toList = _ by decide⟩
  | entry n => exact ⟨"entry".toList, by decide, show ".entry".toList = _ by decide⟩
  | external n => exact ⟨"extern".toList, by decide, show ".extern".toList = _ by decide⟩

theorem unreserved_of_isReserved {c : Char} {cs : Text} (halpha : c.isAlpha = true)
    (h : isReserved (c :: cs) = false) : Unreserved (c :: cs) := by
  simp only [isReserved, Bool.or_eq_false_iff, beq_eq_false_iff_ne, Option.isSome_eq_false_iff,
    Option.isNone_iff_eq_none] at h
  obtain ⟨⟨⟨⟨hopcode, hregister⟩, hstart⟩, hend⟩, hdirectives⟩ := h
  have hdot : ∀ t : Text, c :: cs ≠ '.' :: t := by
    intro t he
    rw [(List.cons.inj he).1] at halpha
    revert halpha
    decide
  refine ⟨fun o he => ?_, fun r he => ?_, hstart, hend, fun d => ?_⟩
  · have hmem : o ∈ Opcode.all := by cases o <;> decide
    have hnone := List.find?_eq_none.1 hopcode o hmem
    simp [he] at hnone
  · have hmem : r ∈ Register.all := List.mem_map.2 ⟨r.number, List.mem_finRange _, rfl⟩
    have hnone := List.find?_eq_none.1 hregister r hmem
    simp [he] at hnone
  · obtain ⟨t, ht, hkeyword⟩ := keyword_eq d
    rw [hkeyword]
    refine ⟨fun he => hdot t he.symm, fun he => ?_⟩
    rw [(List.cons.inj he).2] at ht
    simp [ht] at hdirectives

/-- A name that is accepted for a macro is there, is new, and means nothing. -/
theorem of_checkMacro {macros : MacroTable} {t : Text} (h : checkMacro macros t = .ok ()) :
    t ≠ [] ∧ macros.contains t = false ∧ Unreserved t := by
  cases t with
  | nil => cases h
  | cons c cs =>
    simp only [checkMacro] at h
    split_ifs at h with halpha hcharacters hlong hreserved hknown
    exact ⟨List.cons_ne_nil c cs, by simpa using hknown,
      unreserved_of_isReserved (by simpa using halpha) (by simpa using hreserved)⟩

end Name

/-! ### One line -/

namespace Expander

/-- No definition is open, there is nothing to report, and the macros are those
given. -/
structure Between (s : Expander) (ms : List Macro) : Prop where
  definition : s.definition = none
  macros : s.macros.macros = ms
  report : s.report.diagnostics = []

/-- The definition of a macro is open, there is nothing to report, and the macros
are those given and the one that is being defined, with the body read so far. -/
structure Defining (s : Expander) (ms : List Macro) (m : Macro) : Prop where
  definition : s.definition = some ⟨some m.name, m.line⟩
  macros : s.macros.macros = ms ++ [m]
  fresh : ∀ m' ∈ ms, m'.name ≠ m.name
  report : s.report.diagnostics = []

theorem recordIf_quiet {s : Expander} {b : Bool} {f : Fault} {line : Nat}
    (h : (s.recordIf b f line).report.diagnostics = []) : b = false ∧ s.recordIf b f line = s := by
  cases b with
  | false => exact ⟨rfl, rfl⟩
  | true => simp [recordIf, Report.recordIf, Report.record] at h

theorem record_not_quiet {s : Expander} {f : Fault} {line : Nat} :
    (s.record f line).report.diagnostics ≠ [] := by
  simp [record, Report.record]

theorem attach_labelled (label : Text) : ∀ {body : List Text}, (attach label body).2 = false →
    Labelled label body (attach label body).1
  | [], _ => .behind (List.forall_mem_nil _)
  | t :: body, h => by
    simp only [attach] at h ⊢
    by_cases hsilent : Statement.isSilent t = true
    · rw [if_pos hsilent] at h ⊢
      exact (attach_labelled label h).cons hsilent
    · by_cases hlabel : hasLabel t = true
      · rw [if_neg hsilent, if_pos hlabel] at h
        cases h
      · rw [if_neg hsilent, if_neg hlabel]
        exact .onto [] (List.forall_mem_nil _) (by simpa using hsilent)

theorem openDefinition_defining {s : Expander} {ms : List Macro} (hs : s.Between ms) {line : Nat}
    {t : Text} (h : (s.openDefinition line t).report.diagnostics = []) :
    ∃ name, Text.firstWord? t = some name ∧ Name.Unreserved name ∧
      (s.openDefinition line t).Defining ms ⟨name, line, []⟩ := by
  unfold openDefinition at h ⊢
  simp only at h ⊢
  cases hcheck : Name.checkMacro s.macros ((Text.nextWord? t).getD ([], [])).1 with
  | error f =>
    rw [hcheck] at h
    exact absurd h record_not_quiet
  | ok u =>
    obtain ⟨hne, hnew, hname⟩ := Name.of_checkMacro hcheck
    obtain ⟨⟨word, rest⟩, hword⟩ : ∃ r, Text.nextWord? t = some r := by
      cases hnone : Text.nextWord? t with
      | none => simp [hnone] at hne
      | some r => exact ⟨r, rfl⟩
    simp only [hword, Option.getD_some] at hnew hname hcheck h ⊢
    have hdefine : (s.recordIf (!Text.isBlankText rest) .textAfterMacroName line).macros.define word line =
        .ok ⟨s.macros.macros ++ [⟨word, line, []⟩]⟩ := by
      simp [MacroTable.define, recordIf, hnew]
    simp only [hcheck, hdefine] at h ⊢
    refine ⟨word, Text.firstWord?_of_nextWord? hword, hname, rfl, ?_, fun m hm he => ?_, h⟩
    · rw [hs.macros]
    · have hknown := MacroTable.contains_iff.2 ⟨m, hs.macros ▸ hm, he⟩
      rw [hnew] at hknown
      cases hknown

/-- The macro that a table finds is one of its macros. -/
theorem body_of_contains {s : Expander} {ms : List Macro} (hs : s.Between ms) {name : Text}
    (h : s.macros.contains name = true) :
    ∃ m ∈ ms, m.name = name ∧ s.macros.body name = .ok m.body := by
  obtain ⟨m, hm⟩ := Option.isSome_iff_exists.1 h
  refine ⟨m, ?_, by simpa using List.find?_some hm, by simp [MacroTable.body, hm]⟩
  rw [← hs.macros]
  exact List.mem_of_find?_eq_some hm

/-- A line whose call is known is replaced if there is a macro of that name. -/
theorem callNamed_replaced {s : Expander} {ms : List Macro} (hs : s.Between ms) {line : Nat}
    {t name rest : Text} {label : Option Text} (hcall : Calls t label name)
    (h : (s.callNamed line t label name rest).1.report.diagnostics = []) :
    (s.callNamed line t label name rest).1.Between ms ∧
      Replaced ms ⟨line, t⟩ (s.callNamed line t label name rest).2 := by
  unfold callNamed at h ⊢
  by_cases hcontains : s.macros.contains name = true
  · obtain ⟨m, hm, rfl, hbody⟩ := body_of_contains hs hcontains
    by_cases hblank : Text.isBlankText rest = true
    · simp only [hcontains, hblank, expand, hbody] at h ⊢
      cases label with
      | none => exact ⟨hs, .called hm hcall⟩
      | some l =>
        obtain ⟨hown, hquiet⟩ := recordIf_quiet h
        refine ⟨?_, .labelled hm hcall (attach_labelled l hown)⟩
        simp only [Bool.not_true, Bool.false_eq_true, if_false, hquiet]
        exact hs
    · simp only [hcontains, hblank] at h
      exact absurd h record_not_quiet
  · simp only [hcontains, Bool.not_false, if_true] at h ⊢
    refine ⟨hs, .kept fun label' name' hcall' m hm he => ?_⟩
    obtain ⟨-, rfl⟩ := hcall.unique hcall'
    exact hcontains (MacroTable.contains_iff.2 ⟨m, hs.macros ▸ hm, he⟩)

theorem call_replaced {s : Expander} {ms : List Macro} (hs : s.Between ms) {line : Nat}
    {t word rest : Text} (hspoken : Statement.isSilent t = false)
    (hword : Text.nextWord? t = some (word, rest))
    (h : (s.call line t word rest).1.report.diagnostics = []) :
    (s.call line t word rest).1.Between ms ∧ Replaced ms ⟨line, t⟩ (s.call line t word rest).2 := by
  have hfirst := Text.firstWord?_of_nextWord? hword
  have hsecond := Text.secondWord?_of_nextWord? hword
  unfold call at h ⊢
  by_cases hcolon : word.getLast? = some ':'
  · rw [if_pos hcolon] at h ⊢
    cases hnext : Text.nextWord? rest with
    | none =>
      -- a label alone calls nothing
      refine ⟨hs, .kept fun label name hcall => ?_⟩
      have hnone : Text.secondWord? t = none := by rw [hsecond, Text.firstWord?, hnext, Option.map_none]
      cases hcall with
      | plain _ hname hplain =>
        rw [hfirst] at hname
        exact absurd (Option.some.inj hname ▸ hcolon) hplain
      | labelled _ _ _ hname =>
        rw [hnone] at hname
        cases hname
    | some r =>
      obtain ⟨name, rest'⟩ := r
      simp only [hnext] at h ⊢
      have hname := hsecond.trans (Text.firstWord?_of_nextWord? hnext)
      exact callNamed_replaced hs (.labelled hspoken hfirst hcolon hname) h
  · rw [if_neg hcolon] at h ⊢
    exact callNamed_replaced hs (.plain hspoken hfirst hcolon) h

/-- **A line outside the definitions** opens one, or has its place in the
expanded source. -/
theorem outside_step {s : Expander} {ms : List Macro} (hs : s.Between ms) {line : Nat} {t : Text}
    (h : (s.step line t).1.report.diagnostics = []) :
    (Text.firstWord? t = some Name.macroStart ∧ (s.step line t).2 = [] ∧
      ∃ name, Text.secondWord? t = some name ∧ Name.Unreserved name ∧
        (s.step line t).1.Defining ms ⟨name, line, []⟩) ∨
    (Text.firstWord? t ≠ some Name.macroStart ∧ (s.step line t).1.Between ms ∧
      Replaced ms ⟨line, t⟩ (s.step line t).2) := by
  have hstep : s.step line t = s.outside line t := by simp only [step, hs.definition]
  rw [hstep] at h ⊢
  unfold outside at h ⊢
  by_cases hsilent : Statement.isSilent t = true
  · rw [if_pos hsilent]
    refine Or.inr ⟨fun hfirst => ?_, hs, .kept fun label name hcall => ?_⟩
    · have hmark := Statement.firstWord?_of_isSilent hsilent hfirst
      revert hmark
      decide
    · cases hcall with
      | plain hspoken => simp [hsilent] at hspoken
      | labelled hspoken => simp [hsilent] at hspoken
  · have hspoken : Statement.isSilent t = false := by simpa using hsilent
    rw [if_neg hsilent] at h ⊢
    cases hword : Text.nextWord? t with
    | none =>
      refine Or.inr ⟨by simp [Text.firstWord?, hword], hs, .kept fun label name hcall => ?_⟩
      cases hcall with
      | plain _ hname => simp [Text.firstWord?, hword] at hname
      | labelled _ hlabel => simp [Text.firstWord?, hword] at hlabel
    | some r =>
      obtain ⟨word, rest⟩ := r
      have hfirst := Text.firstWord?_of_nextWord? hword
      have hsecond := Text.secondWord?_of_nextWord? hword
      simp only [hword] at h ⊢
      by_cases hstart : word = Name.macroStart
      · rw [if_pos hstart] at h ⊢
        refine Or.inl ⟨hstart ▸ hfirst, rfl, ?_⟩
        rw [hsecond]
        exact openDefinition_defining hs h
      · rw [if_neg hstart] at h ⊢
        refine Or.inr ⟨fun he => hstart (Option.some.inj (hfirst.symm.trans he)), ?_⟩
        by_cases hend : word = Name.macroEnd
        · rw [if_pos hend] at h
          exact absurd h record_not_quiet
        · rw [if_neg hend] at h ⊢
          exact call_replaced hs hspoken hword h

/-- A line of the body is put behind those before it. -/
theorem keep_defining {s : Expander} {ms : List Macro} {m : Macro} (hs : s.Defining ms m)
    (line : Nat) (t : Text) :
    (s.keep ⟨some m.name, m.line⟩ line t).Defining ms { m with body := m.body ++ [t] } := by
  have hcontains : s.macros.contains m.name = true := by
    refine MacroTable.contains_iff.2 ⟨m, ?_, rfl⟩
    rw [hs.macros]
    exact List.mem_append_right _ List.mem_cons_self
  have hothers : ms.map (MacroTable.extend m.name t) = ms := by
    refine (List.map_congr_left fun m' hm' => ?_).trans (List.map_id ms)
    exact if_neg (hs.fresh m' hm')
  have happend : s.macros.append m.name t = .ok ⟨ms ++ [{ m with body := m.body ++ [t] }]⟩ := by
    rw [MacroTable.append, if_pos hcontains, hs.macros, List.map_append, hothers]
    simp [MacroTable.extend]
  simp only [keep, happend]
  exact ⟨hs.definition, rfl, hs.fresh, hs.report⟩

/-- **A line inside a definition** closes it or goes into the body, whatever it
says. -/
theorem inside_step {s : Expander} {ms : List Macro} {m : Macro} (hs : s.Defining ms m) {line : Nat}
    {t : Text} (h : (s.step line t).1.report.diagnostics = []) : (s.step line t).2 = [] ∧
      (Text.firstWord? t = some Name.macroEnd ∧ (s.step line t).1.Between (ms ++ [m]) ∨
        Text.firstWord? t ≠ some Name.macroEnd ∧
          (s.step line t).1.Defining ms { m with body := m.body ++ [t] }) := by
  have hstep : s.step line t = (s.inside ⟨some m.name, m.line⟩ line t, []) := by
    simp only [step, hs.definition]
  rw [hstep] at h ⊢
  refine ⟨rfl, ?_⟩
  simp only at h ⊢
  unfold inside at h ⊢
  cases hword : Text.nextWord? t with
  | none =>
    refine Or.inr ⟨by simp [Text.firstWord?, hword], ?_⟩
    exact keep_defining hs line t
  | some r =>
    obtain ⟨word, rest⟩ := r
    have hfirst := Text.firstWord?_of_nextWord? hword
    simp only [hword] at h ⊢
    by_cases hend : word = Name.macroEnd
    · rw [if_pos hend] at h ⊢
      obtain ⟨-, hquiet⟩ := recordIf_quiet (s := s) h
      refine Or.inl ⟨hend ▸ hfirst, rfl, ?_, h⟩
      rw [hquiet]
      exact hs.macros
    · rw [if_neg hend]
      exact Or.inr ⟨fun he => hend (Option.some.inj (hfirst.symm.trans he)), keep_defining hs line t⟩

/-! ### All lines -/

theorem Between.sound {s : Expander} {ms : List Macro} (h : s.Between ms) : s.Sound := by
  intro name line hd
  rw [h.definition] at hd
  cases hd

theorem Defining.sound {s : Expander} {ms : List Macro} {m : Macro} (h : s.Defining ms m) :
    s.Sound := by
  intro name line hd
  rw [h.definition] at hd
  cases hd
  refine MacroTable.contains_iff.2 ⟨m, ?_, rfl⟩
  rw [h.macros]
  exact List.mem_append_right _ List.mem_cons_self

/-- What was reported stays reported. -/
theorem prefix_run : ∀ (ls : List (Nat × Source.Content)) {s : Expander}, s.Sound →
    s.report.diagnostics <+: (run s ls).1.report.diagnostics
  | [], _, _ => List.prefix_rfl
  | (n, c) :: ls, s, hs => by
    unfold run
    split
    · exact List.prefix_rfl
    · cases c with
      | tooLong =>
        exact (List.prefix_append _ _).trans (prefix_run ls (s := s.record .lineTooLong n) hs)
      | unreadable reason => exact List.prefix_append _ _
      | text t =>
        obtain ⟨hstep, -⟩ := step_steps hs n t
        obtain ⟨fs, -, hreport⟩ := hstep.report
        refine List.IsPrefix.trans ?_ (prefix_run ls (hstep.sound hs))
        rw [hreport]
        exact List.prefix_append _ _

theorem prefix_finish (s : Expander) : s.report.diagnostics <+: s.finish.report.diagnostics := by
  unfold finish
  split
  · exact List.prefix_rfl
  · simp only [recordIf, Report.recordIf]
    split
    · exact List.prefix_append _ _
    · exact List.prefix_rfl

/-- A source about which nothing is reported in the end. -/
def Quiet (s : Expander) (ls : List (Nat × Source.Content)) : Prop :=
  (run s ls).1.finish.report.diagnostics = []

theorem Quiet.report {s : Expander} {ls : List (Nat × Source.Content)} (h : Quiet s ls)
    (hs : s.Sound) : s.report.diagnostics = [] := by
  have hprefix := (prefix_run ls hs).trans (prefix_finish _)
  rw [h] at hprefix
  exact List.prefix_nil.1 hprefix

/-- The first line of such a source is a text, and the machine goes on behind
it. -/
theorem Quiet.cons {s : Expander} {n : Nat} {c : Source.Content} {ls : List (Nat × Source.Content)}
    (h : Quiet s ((n, c) :: ls)) (hs : s.Sound) :
    ∃ t, c = .text t ∧ (s.step n t).1.report.diagnostics = [] ∧ Quiet (s.step n t).1 ls ∧
      run s ((n, c) :: ls) =
        ((run (s.step n t).1 ls).1, (s.step n t).2 ++ (run (s.step n t).1 ls).2) := by
  have hfatal : s.report.isFatal = false := by simp [Report.isFatal, h.report hs]
  cases c with
  | tooLong =>
    have hlater : Quiet (s.record .lineTooLong n) ls := by simpa [Quiet, run, hfatal] using h
    exact absurd (hlater.report hs) record_not_quiet
  | unreadable reason =>
    have hlater : Quiet (s.record .sourceUnreadable n) [] := by simpa [Quiet, run, hfatal] using h
    exact absurd (hlater.report hs) record_not_quiet
  | text t =>
    have hrun : run s ((n, .text t) :: ls) =
        ((run (s.step n t).1 ls).1, (s.step n t).2 ++ (run (s.step n t).1 ls).2) := by
      simp [run, hfatal]
    have hlater : Quiet (s.step n t).1 ls := by simpa [Quiet, hrun] using h
    exact ⟨t, rfl, hlater.report ((step_steps hs n t).1.sound hs), hlater, hrun⟩

end Expander

/-- A line as it is read. -/
def SourceLine.asRead (l : SourceLine) : Nat × Source.Content := (l.origin, .text l.text)

namespace Expander

/-- **A block to its end.** The induction is on the lines that are left; `m` has
the body read so far. -/
theorem run_defining : ∀ {ls : List (Nat × Source.Content)} {s : Expander} {ms : List Macro}
    {m : Macro}, s.Defining ms m → Quiet s ls →
    ∃ (body : List SourceLine) (last : SourceLine) (rest : List (Nat × Source.Content))
      (s' : Expander), ls = body.map SourceLine.asRead ++ last.asRead :: rest ∧
      (∀ l ∈ body, Text.firstWord? l.text ≠ some Name.macroEnd) ∧
      Text.firstWord? last.text = some Name.macroEnd ∧
      s'.Between (ms ++ [{ m with body := m.body ++ body.map SourceLine.text }]) ∧
      Quiet s' rest ∧ run s ls = run s' rest
  | [], s, ms, m, hs, h => by
    have hfatal : s.report.isFatal = false := by simp [Report.isFatal, hs.report]
    have hopen : s.finish.report.diagnostics ≠ [] := by
      simp [finish, hs.definition, recordIf, Report.recordIf, hfatal, Report.record]
    exact absurd h hopen
  | (n, c) :: ls, s, ms, m, hs, h => by
    obtain ⟨t, rfl, hnow, hlater, hrun⟩ := h.cons hs.sound
    obtain ⟨hnone, hstep⟩ := inside_step hs hnow
    rw [hnone, List.nil_append] at hrun
    rcases hstep with ⟨hend, hbetween⟩ | ⟨hinner, hdefining⟩
    · refine ⟨[], ⟨n, t⟩, ls, (s.step n t).1, rfl, by simp, hend, ?_, hlater, hrun⟩
      simpa using hbetween
    · obtain ⟨body, last, rest, s', rfl, hbody, hlast, hs', hrest, hrun'⟩ :=
        run_defining hdefining hlater
      refine ⟨⟨n, t⟩ :: body, last, rest, s', rfl, ?_, hlast, ?_, hrest, ?_⟩
      · exact List.forall_mem_cons.2 ⟨hinner, hbody⟩
      · simpa using hs'
      · rw [hrun, hrun']

/-- The lines are cut into parts, and what the machine makes of them is what the
parts expand to. -/
structure Cut (s : Expander) (ms : List Macro) (ls : List (Nat × Source.Content)) (ps : List Part)
    (ms' : List Macro) : Prop where
  lines : ls = (ps.flatMap Part.lines).map SourceLine.asRead
  delimited : ∀ p ∈ ps, p.Delimited
  macros : (run s ls).1.finish.macros.macros = ms ++ ms'
  defines : List.Forall₂ Block.Defines (ps.filterMap Part.block?) ms'
  unreserved : ∀ m ∈ ms', Name.Unreserved m.name
  distinct : (ms.map Macro.name).Nodup → ((ms ++ ms').map Macro.name).Nodup
  expands : Expands ms ps (run s ls).2

theorem nodup_concat {ms : List Macro} {m : Macro} (hms : (ms.map Macro.name).Nodup)
    (hfresh : ∀ m' ∈ ms, m'.name ≠ m.name) : ((ms ++ [m]).map Macro.name).Nodup := by
  rw [List.map_append, List.nodup_append]
  refine ⟨hms, List.nodup_singleton _, fun n hn k hk => ?_⟩
  obtain ⟨m', hm', rfl⟩ := List.mem_map.1 hn
  rw [List.mem_singleton.1 hk]
  exact hfresh m' hm'

theorem Cut.line {s : Expander} {ms ms' : List Macro} {k : Nat} {t : Text}
    {ls : List (Nat × Source.Content)} {ps : List Part}
    (hline : Text.firstWord? t ≠ some Name.macroStart)
    (hreplaced : Replaced ms ⟨k, t⟩ (s.step k t).2)
    (hrun : run s ((k, .text t) :: ls) =
      ((run (s.step k t).1 ls).1, (s.step k t).2 ++ (run (s.step k t).1 ls).2))
    (h : Cut (s.step k t).1 ms ls ps ms') : Cut s ms ((k, .text t) :: ls) (.line ⟨k, t⟩ :: ps) ms' := by
  refine ⟨?_, ?_, ?_, h.defines, h.unreserved, h.distinct, ?_⟩
  · rw [h.lines]
    rfl
  · exact List.forall_mem_cons.2 ⟨hline, h.delimited⟩
  · rw [hrun]
    exact h.macros
  · rw [hrun]
    exact .line hreplaced h.expands

theorem Cut.block {s s' : Expander} {ms ms' : List Macro} {b : Block} {m : Macro}
    {ls : List (Nat × Source.Content)} {ps : List Part} (hb : b.Defines m)
    (hdelimited : (Part.block b).Delimited) (hfree : Name.Unreserved m.name)
    (hfresh : ∀ m' ∈ ms, m'.name ≠ m.name)
    (hrun : run s ((Part.block b).lines.map SourceLine.asRead ++ ls) = run s' ls)
    (h : Cut s' (ms ++ [m]) ls ps ms') :
    Cut s ms ((Part.block b).lines.map SourceLine.asRead ++ ls) (.block b :: ps) (m :: ms') := by
  refine ⟨?_, ?_, ?_, .cons hb h.defines, ?_, fun hms => ?_, ?_⟩
  · rw [h.lines, List.flatMap_cons, List.map_append]
  · exact List.forall_mem_cons.2 ⟨hdelimited, h.delimited⟩
  · rw [hrun, h.macros, List.append_assoc]
    rfl
  · exact List.forall_mem_cons.2 ⟨hfree, h.unreserved⟩
  · simpa using h.distinct (nodup_concat hms hfresh)
  · rw [hrun]
    exact .block hb h.expands

/-- **A source about which there is nothing to report.** A line outside the
blocks is one step of the machine, a block is a run to its end; so the induction
is on the number of lines that are left. -/
theorem run_cut {ls : List (Nat × Source.Content)} {s : Expander} {ms : List Macro}
    (hs : s.Between ms) (h : Quiet s ls) : ∃ ps ms', Cut s ms ls ps ms' := by
  induction hn : ls.length using Nat.strongRecOn generalizing ls s ms with
  | ind n ih =>
    cases ls with
    | nil =>
      refine ⟨[], [], rfl, by simp, ?_, .nil, by simp, by simp, .done ms⟩
      simp [run, finish, hs.definition, hs.macros]
    | cons l ls =>
      obtain ⟨k, c⟩ := l
      obtain ⟨t, rfl, hnow, hlater, hrun⟩ := h.cons hs.sound
      rcases outside_step hs hnow with
        ⟨hstart, hnone, name, hname, hfree, hdefining⟩ | ⟨hline, hbetween, hreplaced⟩
      · obtain ⟨body, last, rest, s', rfl, hbody, hlast, hs', hrest, hrun'⟩ :=
          run_defining hdefining hlater
        obtain ⟨ps, ms', hcut⟩ := ih rest.length (by simp [← hn]; omega) hs' hrest rfl
        rw [hnone, List.nil_append, hrun'] at hrun
        have hlines : (k, .text t) :: (body.map SourceLine.asRead ++ last.asRead :: rest) =
            (Part.block ⟨⟨k, t⟩, body, last⟩).lines.map SourceLine.asRead ++ rest := by
          simp [Part.lines, SourceLine.asRead]
        rw [hlines] at hrun ⊢
        exact ⟨_, _, hcut.block (m := ⟨name, k, body.map SourceLine.text⟩) ⟨hname, rfl, rfl⟩
          ⟨hstart, hbody, hlast⟩ hfree hdefining.fresh hrun⟩
      · obtain ⟨ps, ms', hcut⟩ := ih ls.length (by simp [← hn]) hbetween hlater rfl
        exact ⟨_, ms', hcut.line hline hreplaced hrun⟩

end Expander

/-- **Macros are expanded word for word.** If there is nothing to report about a
source then it is cut into blocks and lines between them, in one way only; the
macros are those of the blocks, and the expanded source is what the parts expand
to. -/
theorem Expansion.ofInput_verbatim {file : Text} {input : Input}
    (h : (ofInput .empty (.new file) input).report.diagnostics = []) :
    ∃ ps : List Part, Source.lines Source.maxLength input =
        (ps.flatMap Part.lines).map SourceLine.asRead ∧
      (∀ p ∈ ps, p.Delimited) ∧
      (∀ qs : List Part, (∀ q ∈ qs, q.Delimited) →
        qs.flatMap Part.lines = ps.flatMap Part.lines → qs = ps) ∧
      (ofInput .empty (.new file) input).Verbatim ps := by
  have hstart : Expander.Between { macros := .empty, report := .new file } [] := ⟨rfl, rfl, rfl⟩
  obtain ⟨ps, ms, hcut⟩ := Expander.run_cut hstart h
  refine ⟨ps, hcut.lines, hcut.delimited, fun qs hqs he => Part.cut_unique hqs hcut.delimited he, ?_⟩
  have hmacros : (ofInput .empty (.new file) input).macros.macros = ms := hcut.macros
  constructor
  case macros =>
    rw [hmacros]
    exact hcut.defines
  case distinct =>
    rw [hmacros]
    exact hcut.distinct List.nodup_nil
  case unreserved =>
    rw [hmacros]
    exact hcut.unreserved
  case lines => exact hcut.expands

/-- A macro with a comment, an instruction and the first line of a definition in
its body, called with and without a label. -/
def Expansion.verbatimSample : Input where
  bytes := Utf8.encode
    "mcro m\n; note\n  inc r1\nmcro x\nmcroend\nL: m\nm\nstop\n".toList

set_option maxRecDepth 10000 in
theorem Expansion.verbatimSample_quiet :
    (ofInput .empty (.new []) verbatimSample).report.diagnostics = [] := rfl

theorem Expansion.ofInput_verbatim_sample :
    (ofInput .empty (.new []) verbatimSample).report.diagnostics = [] ∧
      ∃ ps : List Part, Source.lines Source.maxLength verbatimSample =
          (ps.flatMap Part.lines).map SourceLine.asRead ∧
        (ofInput .empty (.new []) verbatimSample).Verbatim ps := by
  obtain ⟨ps, hlines, -, -, hverbatim⟩ := ofInput_verbatim verbatimSample_quiet
  exact ⟨verbatimSample_quiet, ps, hlines, hverbatim⟩

end TenBit
