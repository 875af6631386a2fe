/-
# Names are bound once

A label is bound once and is not external; an external name may be declared
more than once, which binds the same each time. The first pass finds out line by
line, from the names bound before. Here the rule is about any two bindings of a
program, and it is shown that the pass has nothing but notes exactly if every
line can be read and the rule holds. If it holds, the first binding of a name is
its only one.

Key definitions: `Binding.Compatible`, `Outline.Consistent`.
Key theorems: `Outline.clash_eq_nil_iff`, `Layout.notes_problems_iff`,
`Outline.find_bindings_iff`, `Outline.consistent_iff`.
-/
import Mathlib.Data.List.Pairwise
import TenBit.Proofs.Memory.Layout

namespace TenBit

/-- Two bindings that may stand in one program. -/
def Binding.Compatible (a b : Binding) : Prop :=
  a.name = b.name → a.kind = .external ∧ b.kind = .external

instance : Std.Symm Binding.Compatible := ⟨fun _ _ h he => (h he.symm).symm⟩

namespace Statement

theorem label?_of_binding (s : Statement) (code data : Nat) :
    s.label?.toList = ((s.binding? code data).toList.filter fun b => b.kind ≠ .external).map
      Binding.name := by
  cases s with
  | blank => rfl
  | comment => rfl
  | instruction label i => cases label <;> rfl
  | directive label d => cases d <;> cases label <;> rfl

theorem externalName?_of_binding (s : Statement) (code data : Nat) :
    s.externalName?.toList = ((s.binding? code data).toList.filter fun b => b.kind = .external).map
      Binding.name := by
  cases s with
  | blank => rfl
  | comment => rfl
  | instruction label i => cases label <;> rfl
  | directive label d => cases d <;> cases label <;> rfl

end Statement

namespace Outline

/-- Any two bindings of the program may stand in it. -/
def Consistent (ss : List Statement) : Prop := (bindings ss).Pairwise Binding.Compatible

theorem Consistent.of_append {ss ts : List Statement} (h : Consistent (ss ++ ts)) :
    Consistent ss := by
  rw [Consistent, bindings, bindingsFrom_append, List.pairwise_append] at h
  exact h.1

/-- **One more statement.** To compare it with the first binding of its name is
to compare it with all. -/
theorem clash_eq_nil_iff {ss : List Statement} (hss : Consistent ss) (s : Statement) :
    Binding.clash (fun n => Binding.find n (bindings ss))
        (s.binding? (codeBase + codeSize ss) (dataSize ss)) = [] ↔ Consistent (ss ++ [s]) := by
  rw [Consistent, bindings_append_singleton, List.pairwise_append]
  cases s.binding? (codeBase + codeSize ss) (dataSize ss) with
  | none => simpa [Binding.clash] using show List.Pairwise _ _ from hss
  | some b =>
    have hone : List.Pairwise Binding.Compatible [b] := List.pairwise_singleton _ b
    simp only [Binding.clash, Option.toList_some, List.mem_singleton, forall_eq]
    cases hfind : Binding.find b.name (bindings ss) with
    | none =>
      have hnew := Binding.find_eq_none_iff.1 hfind
      simp only [true_iff]
      exact ⟨hss, hone, fun a ha he => absurd he (hnew a ha)⟩
    | some first =>
      obtain ⟨hmem, hname⟩ := Binding.find_some hfind
      constructor
      · intro hclash
        have hexternal : first.kind = .external ∧ b.kind = .external := by
          by_contra hne
          simp [hne] at hclash
        refine ⟨hss, hone, fun a ha he => ⟨?_, hexternal.2⟩⟩
        by_cases hfirst : a = first
        · rw [hfirst]
          exact hexternal.1
        · exact (hss.forall ha hmem hfirst (he.trans hname.symm)).1
      · rintro ⟨-, -, hall⟩
        exact if_pos (hall first hmem hname)

end Outline

namespace Layout

open Outline

/-- There are only notes about a line if it can be read and what it binds is new. -/
theorem notes_faults_iff {macros : MacroTable} {before : List Statement}
    (hbefore : Consistent before) (t : Text) :
    (∀ f ∈ faults before (Statement.read macros t), f.severity = .note) ↔
      (∃ s, Statement.read macros t = .ok s) ∧
        Consistent (before ++ (Statement.read macros t).toOption.toList) := by
  cases hr : Statement.read macros t with
  | error g =>
    have herror := Statement.onlyErrors_read macros t g hr
    simp [faults, herror]
  | ok s =>
    have hclash := clash_eq_nil_iff hbefore s
    simp only [faults, Except.toOption, Option.toList_some, ← hclash, Except.ok.injEq, exists_eq',
      true_and]
    constructor
    · intro h
      rw [List.eq_nil_iff_forall_not_mem]
      intro f hf
      have hnote := h f (List.mem_append_right _ hf)
      rw [severity_of_mem_clash hf] at hnote
      cases hnote
    · intro hnil f hf
      rw [hnil, List.append_nil] at hf
      exact severity_of_mem_ignoredLabel hf

/-- **There are only notes from the first pass** if every line can be read and
names are bound consistently. The induction is on the lines, with the statements
before them. -/
theorem notes_problems_iff (macros : MacroTable) : ∀ (lines : List SourceLine)
    (before : List Statement), Consistent before →
      ((∀ d ∈ problems macros before lines, d.fault.severity = .note) ↔
        (∀ l ∈ lines, ∃ s, Statement.read macros l.text = .ok s) ∧
          Consistent (before ++ statements macros lines))
  | [], before, hbefore => by simpa [problems, statements] using hbefore
  | l :: lines, before, hbefore => by
    have hline : (∀ d ∈ Diagnostic.all .firstPass l.origin
        (faults before (Statement.read macros l.text)), d.fault.severity = .note) ↔
        ∀ f ∈ faults before (Statement.read macros l.text), f.severity = .note := by
      simp [Diagnostic.all]
    rw [problems, List.forall_mem_append, hline, notes_faults_iff hbefore, List.forall_mem_cons,
      statements_cons, ← List.append_assoc]
    constructor
    · rintro ⟨⟨hread, hnow⟩, hlater⟩
      obtain ⟨hreads, hall⟩ := (notes_problems_iff macros lines _ hnow).1 hlater
      exact ⟨⟨hread, hreads⟩, hall⟩
    · rintro ⟨⟨hread, hreads⟩, hall⟩
      have hnow := hall.of_append
      exact ⟨⟨hread, hnow⟩, (notes_problems_iff macros lines _ hnow).2 ⟨hreads, hall⟩⟩

end Layout

namespace Outline

/-! ### The bindings of a consistent program -/

/-- External bindings of one name are the same. -/
theorem eq_of_external {ss : List Statement} (hss : ∀ s ∈ ss, s.Sound) {a b : Binding}
    (ha : a ∈ bindings ss) (hb : b ∈ bindings ss) (hname : a.name = b.name)
    (hak : a.kind = .external) (hbk : b.kind = .external) : a = b := by
  obtain ⟨hae, -, -, haa⟩ := bindingsFrom_bound codeBase 0 hss a ha
  obtain ⟨hbe, -, -, hba⟩ := bindingsFrom_bound codeBase 0 hss b hb
  obtain ⟨an, ak, aa, ae⟩ := a
  obtain ⟨bn, bk, ba, be⟩ := b
  simp only at hname hak hbk hae hbe haa hba
  rw [hname, hak, hbk, hae, hbe, haa hak, hba hbk]

/-- **In a consistent program a look-up finds every binding.** -/
theorem find_bindings_iff {ss : List Statement} (hss : ∀ s ∈ ss, s.Sound) (h : Consistent ss)
    {n : Text} {b : Binding} :
    Binding.find n (bindings ss) = some b ↔ b ∈ bindings ss ∧ b.name = n := by
  refine ⟨Binding.find_some, ?_⟩
  rintro ⟨hb, rfl⟩
  cases hfind : Binding.find b.name (bindings ss) with
  | none => exact absurd rfl (Binding.find_eq_none_iff.1 hfind b hb)
  | some a =>
    obtain ⟨ha, hname⟩ := Binding.find_some hfind
    by_cases hab : a = b
    · rw [hab]
    · obtain ⟨hak, hbk⟩ := h.forall ha hb hab hname
      rw [eq_of_external hss ha hb hname hak hbk]

/-! ### The rule for labels and external names -/

/-- Names that each statement shows in its binding are those of the bindings of
the program. -/
theorem filterMap_eq_names {view : Statement → Option Text} {q : Binding → Bool}
    (h : ∀ s code data, (view s).toList =
      ((Statement.binding? code data s).toList.filter q).map Binding.name) :
    ∀ (ss : List Statement) (code data : Nat), ss.filterMap view =
      ((bindingsFrom code data ss).filter q).map Binding.name
  | [], _, _ => rfl
  | s :: ss, code, data => by
    have hcons : (s :: ss).filterMap view = (view s).toList ++ ss.filterMap view := by
      rw [List.filterMap_cons]
      cases view s <;> rfl
    rw [hcons, h s code data, filterMap_eq_names h ss (code + s.codeSize) (data + s.dataSize),
      bindingsFrom, List.filter_append, List.map_append]

theorem labels_eq (ss : List Statement) : labels ss =
    ((bindings ss).filter fun b => b.kind ≠ .external).map Binding.name :=
  filterMap_eq_names Statement.label?_of_binding ss codeBase 0

theorem externals_eq (ss : List Statement) : externals ss =
    ((bindings ss).filter fun b => b.kind = .external).map Binding.name :=
  filterMap_eq_names Statement.externalName?_of_binding ss codeBase 0

theorem mem_names_filter_iff {p : Binding → Prop} [DecidablePred p] {bs : List Binding} {n : Text} :
    n ∈ (bs.filter fun b => p b).map Binding.name ↔ ∃ b ∈ bs, b.name = n ∧ p b := by
  rw [List.mem_map]
  constructor
  · rintro ⟨b, hb, rfl⟩
    obtain ⟨hb, hp⟩ := List.mem_filter.1 hb
    exact ⟨b, hb, rfl, of_decide_eq_true hp⟩
  · rintro ⟨b, hb, rfl, hp⟩
    exact ⟨b, List.mem_filter.2 ⟨hb, decide_eq_true hp⟩, rfl⟩

theorem mem_labels_iff {ss : List Statement} {n : Text} :
    n ∈ labels ss ↔ ∃ b ∈ bindings ss, b.name = n ∧ b.kind ≠ .external := by
  rw [labels_eq, mem_names_filter_iff]

theorem mem_externals_iff {ss : List Statement} {n : Text} :
    n ∈ externals ss ↔ ∃ b ∈ bindings ss, b.name = n ∧ b.kind = .external := by
  rw [externals_eq, mem_names_filter_iff]

/-- **The rule in terms of labels**: they are distinct, and none is external. -/
theorem consistent_iff (ss : List Statement) :
    Consistent ss ↔ (labels ss).Nodup ∧ ∀ n ∈ labels ss, n ∉ externals ss := by
  constructor
  · intro h
    constructor
    · rw [labels_eq, List.Nodup, List.pairwise_map, List.pairwise_filter]
      refine List.Pairwise.imp ?_ h
      intro a b hab ha _ hname
      exact of_decide_eq_true ha (hab hname).1
    · intro n hn he
      obtain ⟨a, ha, hname, hak⟩ := mem_labels_iff.1 hn
      obtain ⟨b, hb, hname', hbk⟩ := mem_externals_iff.1 he
      have hab : a ≠ b := by
        rintro rfl
        exact hak hbk
      exact hak (h.forall ha hb hab (hname.trans hname'.symm)).1
  · rintro ⟨hnodup, hown⟩
    have hclear : ∀ {a b : Binding}, a ∈ bindings ss → b ∈ bindings ss → a.name = b.name →
        a.kind ≠ .external → b.kind ≠ .external := by
      intro a b ha hb hname hak hbk
      exact hown a.name (mem_labels_iff.2 ⟨a, ha, rfl, hak⟩)
        (mem_externals_iff.2 ⟨b, hb, hname.symm, hbk⟩)
    rw [labels_eq, List.Nodup, List.pairwise_map, List.pairwise_filter] at hnodup
    refine List.Pairwise.imp_of_mem ?_ hnodup
    intro a b ha hb hdistinct hname
    by_cases hak : a.kind = .external
    · by_cases hbk : b.kind = .external
      · exact ⟨hak, hbk⟩
      · exact absurd hak (hclear hb ha hname.symm hbk)
    · have hbk := hclear ha hb hname hak
      exact absurd hname (hdistinct (decide_eq_true hak) (decide_eq_true hbk))

end Outline
end TenBit
