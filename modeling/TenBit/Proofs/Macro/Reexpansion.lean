/-
# Expanding a source again

Expansion makes no characters but the blank behind a label: whatever alphabet the
lines of a source are over, the lines of its expansion are over it too, so each of
them is one line still. And lines of which none starts with one of the two words of
a macro definition are kept as they are, for without macros there is nothing to
call.

Key definitions: `Text.Over`, `Expander.Over`, `Expander.Plain`.
Key theorems: `Expander.step_over`, `Expander.run_over`, `Expander.step_plain`,
`Expander.run_plain`, `Expansion.ofFile_written`.
-/
import TenBit.Proofs.Macro.Blocks
import TenBit.Proofs.Source.Rewriting

namespace TenBit

namespace Text

/-- All characters of the text are in the alphabet. -/
def Over (alphabet : Char → Prop) (t : Text) : Prop := ∀ c ∈ t, alphabet c

theorem Over.subset {alphabet : Char → Prop} {t u : Text} (h : Over alphabet t) (hut : u ⊆ t) :
    Over alphabet u := fun c hc => h c (hut hc)

theorem Over.append {alphabet : Char → Prop} {t u : Text} (ht : Over alphabet t)
    (hu : Over alphabet u) : Over alphabet (t ++ u) := List.forall_mem_append.2 ⟨ht, hu⟩

theorem trimStart_subset (t : Text) : trimStart t ⊆ t := (List.dropWhile_suffix _).subset

theorem subset_of_nextWord? {t word rest : Text} (h : nextWord? t = some (word, rest)) :
    word ⊆ t := by
  unfold nextWord? at h
  split at h
  · cases h
  · cases h
    exact List.Subset.trans (List.takeWhile_prefix _).subset (trimStart_subset t)

end Text

/-! ### The characters of an expansion -/

namespace Expander

open Text (Over)

variable {alphabet : Char → Prop}

/-- The bodies of all macros are over the alphabet. -/
protected def Over (alphabet : Char → Prop) (s : Expander) : Prop :=
  ∀ m ∈ s.macros.macros, ∀ t ∈ m.body, Text.Over alphabet t

theorem openDefinition_over {s : Expander} (hs : s.Over alphabet) (line : Nat) (t : Text) :
    (s.openDefinition line t).Over alphabet := by
  unfold openDefinition
  simp only
  split
  · exact hs
  · split
    · rename_i macros hmacros
      unfold MacroTable.define at hmacros
      split at hmacros
      · cases hmacros
      · cases hmacros
        refine List.forall_mem_append.2 ⟨hs, fun m hm => ?_⟩
        rw [List.mem_singleton.1 hm]
        exact List.forall_mem_nil _
    · exact hs

theorem keep_over {s : Expander} (hs : s.Over alphabet) (d : Definition) (line : Nat) {t : Text}
    (ht : Over alphabet t) : (s.keep d line t).Over alphabet := by
  unfold keep
  split
  · exact hs
  · split
    · rename_i name _ macros hmacros
      unfold MacroTable.append at hmacros
      split at hmacros
      · cases hmacros
        intro m hm
        obtain ⟨k, hk, rfl⟩ := List.mem_map.1 hm
        unfold MacroTable.extend
        split
        · exact List.forall_mem_append.2 ⟨hs k hk, List.forall_mem_singleton.2 ht⟩
        · exact hs k hk
      · cases hmacros
    · exact hs

theorem inside_over {s : Expander} (hs : s.Over alphabet) (d : Definition) (line : Nat) {t : Text}
    (ht : Over alphabet t) : (s.inside d line t).Over alphabet := by
  unfold inside
  split
  · split
    · exact hs
    · exact keep_over hs d line ht
  · exact keep_over hs d line ht

variable (hblank : alphabet ' ')
include hblank

theorem attach_over {label : Text} (hlabel : Over alphabet label) : ∀ {body : List Text},
    (∀ t ∈ body, Over alphabet t) → ∀ t ∈ (attach label body).1, Over alphabet t
  | [], _ => List.forall_mem_singleton.2 hlabel
  | u :: us, h => by
    obtain ⟨hu, hus⟩ := List.forall_mem_cons.1 h
    unfold attach
    split
    · exact List.forall_mem_cons.2 ⟨hu, attach_over hlabel hus⟩
    · split
      · exact h
      · -- the one place where a character is made
        have hrest : Over alphabet (' ' :: Text.trimStart u) :=
          List.forall_mem_cons.2 ⟨hblank, hu.subset (Text.trimStart_subset u)⟩
        exact List.forall_mem_cons.2 ⟨hlabel.append hrest, hus⟩

theorem callNamed_over {s : Expander} (hs : s.Over alphabet) (line : Nat) {t : Text}
    (ht : Over alphabet t) {label : Option Text} (hlabel : ∀ l ∈ label, Over alphabet l)
    (name rest : Text) :
    (s.callNamed line t label name rest).1.Over alphabet ∧
      ∀ l ∈ (s.callNamed line t label name rest).2, Over alphabet l.text := by
  unfold callNamed
  split
  · exact ⟨hs, List.forall_mem_singleton.2 ht⟩
  · split
    · exact ⟨hs, List.forall_mem_nil _⟩
    · unfold expand
      cases hbody : s.macros.body name with
      | error e => exact ⟨hs, List.forall_mem_nil _⟩
      | ok body =>
        have hover : ∀ t ∈ body, Over alphabet t := by
          unfold MacroTable.body at hbody
          split at hbody
          · rename_i m hm
            cases hbody
            exact hs m (List.mem_of_find?_eq_some hm)
          · cases hbody
        cases label with
        | none => exact ⟨hs, List.forall_mem_map.2 hover⟩
        | some l => exact ⟨hs, List.forall_mem_map.2 (attach_over hblank (hlabel l rfl) hover)⟩

theorem outside_over {s : Expander} (hs : s.Over alphabet) (line : Nat) {t : Text}
    (ht : Over alphabet t) :
    (s.outside line t).1.Over alphabet ∧ ∀ l ∈ (s.outside line t).2, Over alphabet l.text := by
  have hkept : s.Over alphabet ∧ ∀ l ∈ [SourceLine.mk line t], Over alphabet l.text :=
    ⟨hs, List.forall_mem_singleton.2 ht⟩
  unfold outside
  split
  · exact hkept
  · split
    · exact hkept
    · rename_i word rest hword
      split
      · exact ⟨openDefinition_over hs line _, List.forall_mem_nil _⟩
      · split
        · exact ⟨hs, List.forall_mem_nil _⟩
        · unfold call
          split
          · split
            · refine callNamed_over hblank hs line ht (fun l hl => ?_) _ _
              cases hl
              exact ht.subset (Text.subset_of_nextWord? hword)
            · exact hkept
          · exact callNamed_over hblank hs line ht (fun _ hl => by cases hl) _ _

/-- **One line** adds no characters to the macros or to the output but its own, a
blank, and those of macros. -/
theorem step_over {s : Expander} (hs : s.Over alphabet) (line : Nat) {t : Text}
    (ht : Over alphabet t) :
    (s.step line t).1.Over alphabet ∧ ∀ l ∈ (s.step line t).2, Over alphabet l.text := by
  unfold step
  split
  · exact outside_over hblank hs line ht
  · exact ⟨inside_over hs _ line ht, List.forall_mem_nil _⟩

/-- **All lines.** -/
theorem run_over : ∀ {ls : List (Nat × Source.Content)} {s : Expander}, s.Over alphabet →
    (∀ n t, (n, .text t) ∈ ls → Over alphabet t) → ∀ l ∈ (run s ls).2, Over alphabet l.text
  | [], _, _, _ => List.forall_mem_nil _
  | (n, c) :: ls, s, hs, h => by
    have hlater : ∀ n t, (n, .text t) ∈ ls → Over alphabet t :=
      fun n t ht => h n t (List.mem_cons_of_mem _ ht)
    unfold run
    split
    · exact List.forall_mem_nil _
    · cases c with
      | tooLong => exact run_over (s := s.record .lineTooLong n) hs hlater
      | unreadable reason => exact List.forall_mem_nil _
      | text t =>
        obtain ⟨hs', hnow⟩ := step_over hblank hs n (h n t List.mem_cons_self)
        exact List.forall_mem_append.2 ⟨hnow, run_over hs' hlater⟩

end Expander

/-- **Every line of an expansion is one line.** -/
theorem Expansion.not_mem_of_mem_lines {report : Report} {input : Input} {l : SourceLine}
    (h : l ∈ (ofInput .empty report input).lines) : '\n' ∉ l.text := by
  have hover : Text.Over (· ≠ '\n') l.text := by
    refine Expander.run_over (by decide) (s := { macros := .empty, report }) ?_ ?_ l h
    · exact List.forall_mem_nil _
    · rintro n t ht c hc rfl
      exact Source.not_mem_of_contents (Source.mem_of_mem_number ht) hc
  exact fun hmem => hover _ hmem rfl

/-! ### Lines that are kept -/

namespace Expander

/-- There are no macros, none is being defined, and the work goes on. -/
structure Plain (s : Expander) : Prop where
  macros : s.macros = .empty
  definition : s.definition = none
  report : s.report.isFatal = false

theorem Plain.callNamed {s : Expander} (hs : s.Plain) (line : Nat) (t : Text)
    (label : Option Text) (name rest : Text) :
    s.callNamed line t label name rest = (s, [⟨line, t⟩]) := by
  rw [Expander.callNamed, hs.macros]
  rfl

/-- **One line** is kept if it neither opens nor closes a macro. -/
theorem step_plain {s : Expander} (hs : s.Plain) (line : Nat) {t : Text}
    (hstart : Text.firstWord? t ≠ some Name.macroStart)
    (hend : Text.firstWord? t ≠ some Name.macroEnd) : s.step line t = (s, [⟨line, t⟩]) := by
  have hstep : s.step line t = s.outside line t := by
    rw [step, hs.definition]
  rw [hstep, outside]
  split
  · rfl
  · split
    · rfl
    · rename_i word rest hword
      rw [Text.firstWord?_of_nextWord? hword] at hstart hend
      -- what is left could only be a call
      rw [if_neg fun h => hstart (congrArg some h), if_neg fun h => hend (congrArg some h)]
      unfold call
      split
      · split
        · exact hs.callNamed line t _ _ _
        · rfl
      · exact hs.callNamed line t _ _ _

/-- **All lines.** The state stays what it was, so the induction is on the texts
alone. -/
theorem run_plain {s : Expander} (hs : s.Plain) : ∀ {ts : List Text} (n : Nat),
    (∀ t ∈ ts, Text.firstWord? t ≠ some Name.macroStart ∧
      Text.firstWord? t ≠ some Name.macroEnd) →
    ∃ ls, run s (Source.number n (ts.map .text)) = (s, ls) ∧ ls.map SourceLine.text = ts
  | [], _, _ => ⟨[], rfl, rfl⟩
  | t :: ts, n, h => by
    obtain ⟨⟨hstart, hend⟩, hts⟩ := List.forall_mem_cons.1 h
    obtain ⟨ls, hrun, hls⟩ := run_plain hs (Source.nextNumber n) hts
    refine ⟨⟨Source.nextNumber n, t⟩ :: ls, ?_, by rw [List.map_cons, hls]⟩
    simp only [List.map_cons, Source.number, run, hs.report, step_plain hs _ hstart hend, hrun]
    rfl

end Expander

/-- **Lines that were written are kept** if none of them opens or closes a macro,
up to a carriage return at the end of a line. -/
theorem Expansion.ofFile_written (file : Text) {ts : List Text}
    (hlines : ∀ t ∈ ts, '\n' ∉ t ∧ t.length ≤ Source.maxLength)
    (hwords : ∀ t ∈ ts, Text.firstWord? (Source.withoutReturn t) ≠ some Name.macroStart ∧
      Text.firstWord? (Source.withoutReturn t) ≠ some Name.macroEnd) :
    ∃ ls, ofFile file ⟨Utf8.encode (ts.flatMap fun t => t ++ ['\n']), none⟩ =
        .ok ⟨ls, .empty, .new file⟩ ∧
      ls.map SourceLine.text = ts.map Source.withoutReturn := by
  have hstart : Expander.Plain { macros := .empty, report := .new file } := ⟨rfl, rfl, rfl⟩
  obtain ⟨ls, hrun, hls⟩ := Expander.run_plain hstart 0 (List.forall_mem_map.2 hwords)
  refine ⟨ls, ?_, hls⟩
  rw [List.map_map] at hrun
  rw [ofFile, ofInput, Source.lines, Source.contents_encode hlines]
  exact congrArg (fun r => if 0 < r.1.finish.report.errorCount then Except.error r.1.finish.report
    else .ok (⟨r.2, r.1.finish.macros, r.1.finish.report⟩ : Expansion)) hrun

end TenBit
