/-
# Line numbers in an expansion

Every problem that macro expansion reports, every definition it opens and every
line it keeps carries the number of the line that was being read. So all these
numbers lie between one and the number of lines in the source; only a failure to
read names the line behind the last. A macro that is being defined, or called,
is always in the table, so the two reports that would say otherwise never occur.

Key definitions: `Input.lineCount`, `Diagnostic.Located`, `Expander.Steps`,
`Expander.Within`.
Key theorems: `Source.readable_contents`, `Expander.step_steps`,
`Expander.run_within`, `Expansion.ofInput_located`.
-/
import TenBit.Macro.Expansion
import TenBit.Proofs.Report.Growth
import TenBit.Proofs.Source.Pieces
import TenBit.Proofs.Statement.Refusal

namespace TenBit

/-! ### Counting lines -/

namespace Source

/-- The lines that could be read. -/
def readable : List Content → Nat
  | [] => 0
  | .unreadable _ :: cs => readable cs
  | _ :: cs => readable cs + 1

theorem readable_text (t : Text) (cs : List Content) :
    readable (.text t :: cs) = readable cs + 1 := rfl

theorem readable_tooLong (cs : List Content) : readable (.tooLong :: cs) = readable cs + 1 := rfl

theorem readable_content (limit : Nat) (bs : List UInt8) (cs : List Content) :
    readable (content limit bs :: cs) = readable cs + 1 := by
  unfold content
  simp only
  split <;> rfl

/-- Nothing is left behind the last stop if there is nothing or the stop is
the last element. -/
theorem pieces_rest_eq_nil_iff {α : Type} [DecidableEq α] (stop : α) (xs : List α) :
    (pieces stop xs).2 = [] ↔ xs.getLast?.getD stop = stop := by
  induction xs with
  | nil => simp [pieces]
  | cons x xs ih =>
    have hcount := length_pieces stop xs
    cases xs with
    | nil =>
      by_cases h : x = stop <;> simp [pieces, h]
    | cons y ys =>
      rw [List.getLast?_cons_cons, ← ih]
      rw [pieces]
      by_cases h : x = stop
      · simp [h]
      · simp only [if_neg h]
        cases hp : (pieces stop (y :: ys)).1 with
        | cons p ps => rfl
        | nil =>
          rw [hp, List.length_nil] at hcount
          simp only [reduceCtorEq, false_iff]
          intro hrest
          rw [ih] at hrest
          have hmem := List.mem_of_getLast? (l := y :: ys) (a := stop) (by
            rw [List.getLast?_eq_some_getLast (List.cons_ne_nil y ys)] at hrest ⊢
            exact congrArg some hrest)
          exact absurd (List.count_pos_iff.2 hmem) (by omega)

end Source

/-- The number of lines of a source: one for each line feed, and one for what
comes behind the last of them unless reading failed there. -/
def Input.lineCount (input : Input) : Nat :=
  input.bytes.count 0x0A +
    if input.failure = none ∧ input.bytes.getLast?.getD 0x0A ≠ 0x0A then 1 else 0

theorem Source.readable_contents (limit : Nat) (input : Input) :
    readable (contents limit input) = input.lineCount := by
  have happend : ∀ (ps : List (List UInt8)) (cs : List Content),
      readable (ps.map (fun p => content limit (dropReturn p)) ++ cs) = ps.length + readable cs := by
    intro ps cs
    induction ps with
    | nil => simp
    | cons p ps ih =>
      rw [List.map_cons, List.cons_append, readable_content, ih, List.length_cons]
      omega
  have hrest := pieces_rest_eq_nil_iff 0x0A input.bytes
  unfold contents Input.lineCount
  rw [happend, length_pieces]
  congr 1
  cases input.failure with
  | some reason => simp [ending, readable]
  | none =>
    simp only [ending, List.isEmpty_iff, hrest, true_and]
    split
    · rename_i h
      simp [h, readable]
    · rename_i h
      rw [readable_content]
      simp [readable]

namespace Source

theorem one_le_nextNumber (n : Nat) : 1 ≤ nextNumber n := by
  unfold nextNumber lastNumber
  omega

theorem nextNumber_le (n : Nat) : nextNumber n ≤ n + 1 := Nat.min_le_left _ _

theorem nextNumber_le_last (n : Nat) : nextNumber n ≤ lastNumber := Nat.min_le_right _ _

theorem le_nextNumber {n : Nat} (h : n ≤ lastNumber) : n ≤ nextNumber n := by
  unfold nextNumber
  omega

end Source

/-! ### Where problems lie -/

namespace Diagnostic

/-- The problems lie in the first `count` lines. Only a failure to read may be
behind them, and nothing is reported behind a stray end of a macro. -/
structure Located (ds : List Diagnostic) (count : Nat) : Prop where
  agree : ∀ d ∈ ds, d.fault ≠ .passesDisagree
  pos : ∀ d ∈ ds, 1 ≤ d.line
  le : ∀ d ∈ ds, d.line ≤ count ∨ d.fault = .sourceUnreadable ∧ d.line ≤ count + 1
  last : ∀ d ∈ ds, d.fault = .strayMacroEnd → ∀ e ∈ ds, e.line ≤ d.line

theorem located_nil (count : Nat) : Located [] count := by
  constructor <;> simp

theorem Located.mono {ds : List Diagnostic} {n m : Nat} (h : Located ds n) (hnm : n ≤ m) :
    Located ds m := by
  refine ⟨h.agree, h.pos, fun d hd => ?_, h.last⟩
  rcases h.le d hd with hle | ⟨hf, hle⟩
  · exact Or.inl (Nat.le_trans hle hnm)
  · exact Or.inr ⟨hf, Nat.le_trans hle (Nat.add_le_add_right hnm 1)⟩

/-- Problems that did not stop the work, and later ones. -/
theorem Located.append {ds es : List Diagnostic} {n m : Nat} (h : Located ds n)
    (hds : ∀ d ∈ ds, d.fault.isFatal = false) (hnm : n ≤ m) (h' : Located es m)
    (hes : ∀ e ∈ es, e.fault = .strayMacroEnd → n ≤ e.line) : Located (ds ++ es) m := by
  have hm := h.mono hnm
  refine ⟨?_, ?_, ?_, fun d hd hstray e he => ?_⟩
  · exact List.forall_mem_append.2 ⟨hm.agree, h'.agree⟩
  · exact List.forall_mem_append.2 ⟨hm.pos, h'.pos⟩
  · exact List.forall_mem_append.2 ⟨hm.le, h'.le⟩
  · have hd : d ∈ es := by
      rcases List.mem_append.1 hd with hd | hd
      · exact absurd hstray (Fault.ne_of_isFatal (hds d hd) rfl)
      · exact hd
    rcases List.mem_append.1 he with he | he
    · rcases h.le e he with hle | ⟨hf, -⟩
      · exact Nat.le_trans hle (hes d hd hstray)
      · exact absurd hf (Fault.ne_of_isFatal (hds e he) rfl)
    · exact h'.last d hd hstray e he

/-- The faults a line can have that could be read. None is a mere note. -/
def Expected (f : Fault) : Prop :=
  f ≠ .passesDisagree ∧ f ≠ .sourceUnreadable ∧ f.severity ≠ .note

theorem expected_of_error {f : Fault} (h : f.severity = .error) : Expected f := by
  refine ⟨?_, ?_, ?_⟩
  · rintro rfl
    cases h
  · rintro rfl
    cases h
  · rw [h]
    decide

theorem located_all {stage : Stage} {line : Nat} (hline : 1 ≤ line) (fs : List Fault)
    (hfs : ∀ f ∈ fs, Expected f) : Located (all stage line fs) line := by
  have hmem : ∀ d ∈ all stage line fs, Expected d.fault ∧ d.line = line := by
    intro d hd
    obtain ⟨f, hf, rfl⟩ := List.mem_map.1 hd
    exact ⟨hfs f hf, rfl⟩
  refine ⟨fun d hd => (hmem d hd).1.1, fun d hd => ?_, fun d hd => ?_, fun d hd _ e he => ?_⟩
  · rw [(hmem d hd).2]
    exact hline
  · exact Or.inl (Nat.le_of_eq (hmem d hd).2)
  · exact Nat.le_of_eq ((hmem e he).2.trans (hmem d hd).2.symm)

theorem located_unreadable {stage : Stage} {line n : Nat} (hline : 1 ≤ line) (hle : line ≤ n + 1) :
    Located [⟨.sourceUnreadable, line, stage⟩] n := by
  constructor <;> simp [hline, hle]

end Diagnostic

/-! ### One line -/

namespace MacroTable

theorem contains_iff {t : MacroTable} {name : Text} :
    t.contains name = true ↔ ∃ m ∈ t.macros, m.name = name := by
  simp [contains, get?]

theorem contains_define {t t' : MacroTable} {name : Text} {line : Nat}
    (h : t.define name line = .ok t') : t'.contains name = true := by
  unfold define at h
  split at h
  · cases h
  · cases h
    exact contains_iff.2 ⟨⟨name, line, []⟩, by simp, rfl⟩

theorem contains_append {t t' : MacroTable} {name text : Text} (h : t.append name text = .ok t')
    (other : Text) : t'.contains other = t.contains other := by
  have hname : ∀ m, (extend name text m).name = m.name := by
    intro m
    unfold extend
    split <;> rfl
  unfold append at h
  split at h
  · cases h
    rw [Bool.eq_iff_iff, contains_iff, contains_iff]
    constructor
    · rintro ⟨m, hm, rfl⟩
      obtain ⟨k, hk, rfl⟩ := List.mem_map.1 hm
      exact ⟨k, hk, (hname k).symm⟩
    · rintro ⟨m, hm, rfl⟩
      exact ⟨_, List.mem_map_of_mem hm, hname m⟩
  · cases h

theorem append_of_contains {t : MacroTable} {name : Text} (h : t.contains name = true) (text : Text) :
    ∃ t', t.append name text = .ok t' :=
  ⟨_, if_pos h⟩

theorem body_of_contains {t : MacroTable} {name : Text} (h : t.contains name = true) :
    ∃ b, t.body name = .ok b := by
  obtain ⟨m, hm⟩ := Option.isSome_iff_exists.1 h
  exact ⟨m.body, by simp [body, hm]⟩

end MacroTable

theorem Name.onlyErrors_checkMacro (macros : MacroTable) (t : Text) :
    OnlyErrors (checkMacro macros t) := by
  cases t with
  | nil => exact OnlyErrors.error.2 rfl
  | cons c cs =>
    unfold checkMacro
    repeat' split
    all_goals simp [Fault.severity]

namespace Expander

open Diagnostic (Expected expected_of_error)

/-- The macro that is being defined is in the table. -/
def Sound (s : Expander) : Prop :=
  ∀ name line, s.definition = some ⟨some name, line⟩ → s.macros.contains name = true

/-- The state after a line differs from the one before by problems of that
line, and perhaps by a definition that opened or closed there. -/
structure Steps (s s' : Expander) (line : Nat) : Prop where
  report : Report.Grows Expected line s.report s'.report
  definition : ∀ d, s'.definition = some d → d.line = line ∨ s.definition = some d
  sound : s.Sound → s'.Sound

theorem Steps.refl (s : Expander) (line : Nat) : Steps s s line :=
  ⟨Report.Grows.refl _ _ _, fun _ h => Or.inr h, id⟩

theorem record_steps (s : Expander) {f : Fault} (hf : Expected f) (line : Nat) :
    Steps s (s.record f line) line :=
  ⟨Report.grows_record hf _ line, fun _ h => Or.inr h, id⟩

theorem recordIf_steps (s : Expander) (b : Bool) {f : Fault} (hf : Expected f) (line : Nat) :
    Steps s (s.recordIf b f line) line :=
  ⟨Report.grows_recordIf hf _ b line, fun _ h => Or.inr h, id⟩

theorem Steps.trans {s s' s'' : Expander} {line : Nat} (h : Steps s s' line)
    (h' : Steps s' s'' line) : Steps s s'' line := by
  refine ⟨h.report.trans h'.report, fun d hd => ?_, fun hs => h'.sound (h.sound hs)⟩
  rcases h'.definition d hd with hd | hd
  · exact Or.inl hd
  · exact h.definition d hd

/-- A definition whose opening line was refused. -/
theorem refuse_steps {s : Expander} {f : Fault} (hf : Expected f) (line : Nat) :
    Steps s { s.record f line with definition := some ⟨none, line⟩ } line := by
  refine ⟨Report.grows_record hf _ line, fun d hd => ?_, fun _ name l h => ?_⟩
  · cases hd
    exact Or.inl rfl
  · cases h

theorem openDefinition_steps (s : Expander) (line : Nat) (t : Text) :
    Steps s (s.openDefinition line t) line := by
  unfold openDefinition
  simp only
  split
  · rename_i f hf
    exact refuse_steps (expected_of_error (Name.onlyErrors_checkMacro _ _ f hf)) line
  · have hrecord := recordIf_steps s
      (!Text.isBlankText ((Text.nextWord? t).getD ([], [])).2) (f := .textAfterMacroName)
      (expected_of_error rfl) line
    refine hrecord.trans ?_
    split
    · rename_i macros hmacros
      refine ⟨Report.Grows.refl _ _ _, fun d hd => ?_, fun _ name l hd => ?_⟩
      · cases hd
        exact Or.inl rfl
      · cases hd
        exact MacroTable.contains_define hmacros
    · exact refuse_steps (expected_of_error rfl) line

theorem keep_steps {s : Expander} (hs : s.Sound) {d : Definition} (hd : s.definition = some d)
    (line : Nat) (t : Text) : Steps s (s.keep d line t) line := by
  obtain ⟨name?, start⟩ := d
  cases name? with
  | none => exact Steps.refl s line
  | some name =>
    obtain ⟨macros, hmacros⟩ := MacroTable.append_of_contains (hs name start hd) t
    simp only [keep, hmacros]
    refine ⟨Report.Grows.refl _ _ _, fun _ h => Or.inr h, fun _ name' l h => ?_⟩
    rw [MacroTable.contains_append hmacros]
    exact hs name' l h

theorem inside_steps {s : Expander} (hs : s.Sound) {d : Definition} (hd : s.definition = some d)
    (line : Nat) (t : Text) : Steps s (s.inside d line t) line := by
  unfold inside
  split
  · split
    · rename_i word rest _ _
      have hrecord := recordIf_steps s (!Text.isBlankText rest) (f := .textAfterMacroEnd)
        (expected_of_error rfl) line
      refine ⟨hrecord.report, fun d hd => ?_, fun _ name l hd => ?_⟩
      · cases hd
      · cases hd
    · exact keep_steps hs hd line t
  · exact keep_steps hs hd line t

theorem callNamed_steps (s : Expander) (line : Nat) (t : Text) (label : Option Text)
    (name rest : Text) :
    Steps s (s.callNamed line t label name rest).1 line ∧
      ∀ l ∈ (s.callNamed line t label name rest).2, l.origin = line := by
  unfold callNamed
  split
  · exact ⟨Steps.refl s line, by simp⟩
  · rename_i hcontains
    split
    · exact ⟨record_steps s (expected_of_error rfl) line, by simp⟩
    · obtain ⟨body, hbody⟩ := MacroTable.body_of_contains (by simpa using hcontains)
      unfold expand
      rw [hbody]
      cases label with
      | none => exact ⟨Steps.refl s line, by simp⟩
      | some l => exact ⟨recordIf_steps s _ (expected_of_error rfl) line, by simp⟩

theorem outside_steps (s : Expander) (line : Nat) (t : Text) :
    Steps s (s.outside line t).1 line ∧ ∀ l ∈ (s.outside line t).2, l.origin = line := by
  have hkept : Steps s s line ∧ ∀ l ∈ [SourceLine.mk line t], l.origin = line :=
    ⟨Steps.refl s line, by simp⟩
  unfold outside
  split
  · exact hkept
  · split
    · exact hkept
    · split
      · exact ⟨openDefinition_steps s line _, by simp⟩
      · split
        · exact ⟨record_steps s ⟨by decide, by decide, by decide⟩ line, by simp⟩
        · unfold call
          split
          · split
            · exact callNamed_steps s line t _ _ _
            · exact hkept
          · exact callNamed_steps s line t _ _ _

/-- **One line** adds problems of its own number and keeps lines of its own
number. -/
theorem step_steps {s : Expander} (hs : s.Sound) (line : Nat) (t : Text) :
    Steps s (s.step line t).1 line ∧ ∀ l ∈ (s.step line t).2, l.origin = line := by
  unfold step
  cases hd : s.definition with
  | none => exact outside_steps s line t
  | some d => exact ⟨inside_steps hs hd line t, by simp⟩

/-! ### All lines -/

/-- The state after `count` lines: its problems lie in them, and so does the
start of a definition that is open. -/
structure Within (s : Expander) (count : Nat) : Prop where
  sound : s.Sound
  located : Diagnostic.Located s.report.diagnostics count
  definition : ∀ d, s.definition = some d → 1 ≤ d.line ∧ d.line ≤ count

theorem Within.mono {s : Expander} {n m : Nat} (h : s.Within n) (hnm : n ≤ m) : s.Within m := by
  refine ⟨h.sound, h.located.mono hnm, fun d hd => ?_⟩
  obtain ⟨hpos, hle⟩ := h.definition d hd
  exact ⟨hpos, Nat.le_trans hle hnm⟩

/-- A line behind the others keeps the problems within the lines read. -/
theorem Steps.within {s s' : Expander} {n m : Nat} (h : Steps s s' m) (hs : s.Within n)
    (hfatal : s.report.isFatal = false) (hm : 1 ≤ m) (hnm : n ≤ m) : s'.Within m := by
  obtain ⟨fs, hfs, hreport⟩ := h.report
  refine ⟨h.sound hs.sound, ?_, fun d hd => ?_⟩
  · rw [hreport, Report.extend_diagnostics]
    refine hs.located.append (Report.isFatal_eq_false_iff.1 hfatal) hnm
      (Diagnostic.located_all hm fs hfs) fun d hd _ => ?_
    obtain ⟨f, -, rfl⟩ := List.mem_map.1 hd
    exact hnm
  · rcases h.definition d hd with rfl | hd
    · exact ⟨hm, Nat.le_refl _⟩
    · exact (hs.mono hnm).definition d hd

/-- **All lines.** The induction is on the lines that are left; `n` is the
number of the line before them. -/
theorem run_within : ∀ (cs : List Source.Content) {n : Nat} {s : Expander},
    n ≤ Source.lastNumber → s.Within n →
    (run s (Source.number n cs)).1.Within (n + Source.readable cs) ∧
      ∀ l ∈ (run s (Source.number n cs)).2, 1 ≤ l.origin ∧ l.origin ≤ n + Source.readable cs
  | [], _, _, _, h => ⟨h, by simp [run, Source.number]⟩
  | c :: cs, n, s, hn, h => by
    have hpos := Source.one_le_nextNumber n
    have hle := Source.nextNumber_le n
    have hge := Source.le_nextNumber hn
    simp only [Source.number, run]
    cases hfatal : s.report.isFatal with
    | true => exact ⟨h.mono (Nat.le_add_right _ _), by simp⟩
    | false =>
      simp only [Bool.false_eq_true, if_false]
      have hread : ∀ {s' : Expander}, Steps s s' (Source.nextNumber n) →
          s'.Within (Source.nextNumber n) :=
        fun hs => hs.within h hfatal hpos hge
      cases c with
      | tooLong =>
        obtain ⟨hw, hl⟩ := run_within cs (Source.nextNumber_le_last n)
          (hread (record_steps s (f := .lineTooLong) (expected_of_error rfl) _))
        rw [Source.readable_tooLong]
        refine ⟨hw.mono (by omega), fun l hl' => ?_⟩
        have := hl l hl'
        omega
      | unreadable reason =>
        refine ⟨⟨h.sound, ?_, ?_⟩, by simp⟩
        · refine (h.located.append (Report.isFatal_eq_false_iff.1 hfatal) (Nat.le_refl n)
            (Diagnostic.located_unreadable hpos hle) ?_).mono (Nat.le_add_right _ _)
          intro d hd hstray
          rw [List.mem_singleton.1 hd] at hstray
          cases hstray
        · exact (h.mono (Nat.le_add_right _ _)).definition
      | text t =>
        obtain ⟨hstep, hkept⟩ := step_steps h.sound (Source.nextNumber n) t
        obtain ⟨hw, hl⟩ := run_within cs (Source.nextNumber_le_last n) (hread hstep)
        rw [Source.readable_text]
        refine ⟨hw.mono (by omega), fun l hl' => ?_⟩
        rcases List.mem_append.1 hl' with hl' | hl'
        · rw [hkept l hl']
          omega
        · have := hl l hl'
          omega

theorem finish_located {s : Expander} {n : Nat} (h : s.Within n) :
    Diagnostic.Located s.finish.report.diagnostics n := by
  unfold finish
  cases hd : s.definition with
  | none => exact h.located
  | some d =>
    cases hfatal : s.report.isFatal with
    | true => exact h.located
    | false =>
      obtain ⟨hpos, hle⟩ := h.definition d hd
      refine h.located.append (Report.isFatal_eq_false_iff.1 hfatal) (Nat.le_refl n)
        ((Diagnostic.located_all hpos [.macroUnterminated] ?_).mono hle) ?_
      · simpa using expected_of_error (f := .macroUnterminated) rfl
      · intro d hd hstray
        rw [List.mem_singleton.1 hd] at hstray
        cases hstray

end Expander

/-- **The expansion of a source** reports and keeps lines of the source only. -/
theorem Expansion.ofInput_located (file : Text) (input : Input) :
    Diagnostic.Located (ofInput .empty (.new file) input).report.diagnostics input.lineCount ∧
      ∀ l ∈ (ofInput .empty (.new file) input).lines, 1 ≤ l.origin ∧ l.origin ≤ input.lineCount := by
  have hstart : Expander.Within { macros := .empty, report := .new file } 0 :=
    ⟨fun _ _ h => (by cases h), Diagnostic.located_nil 0, fun _ h => (by cases h)⟩
  obtain ⟨hw, hl⟩ := Expander.run_within (Source.contents Source.maxLength input)
    (Nat.zero_le _) hstart
  rw [Source.readable_contents, Nat.zero_add] at hw hl
  exact ⟨Expander.finish_located hw, hl⟩

end TenBit
