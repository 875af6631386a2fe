/-
# Moving a program

Instructions that mention no name can be put in front of any program. The
program then lies as many cells further on as they take, and nothing else about
it changes: its own names move with it, external names stay at zero, and of its
words just those change that are tagged as relocatable. So the tags tell a loader
which words to adjust.

Key definitions: `Statement.Nameless`, `Word.Shifted`, `Symbol.Shifted`,
`Reference.Shifted`, `Program.Shifted`.
Key theorems: `Outline.bindingsFrom_shift`, `SymbolTable.Follows.forall₂`,
`Slot.shifted_fill`, `Program.follows_front`, `Program.shifted_of_front`.
-/
import Mathlib.Data.List.Forall2
import TenBit.Proofs.Memory.Uses
import TenBit.Proofs.Program.Acceptance
import TenBit.Proofs.Program.Symbols

namespace TenBit

/-! ### What moves -/

/-- The second word is the first in a program that lies `k` cells further on. -/
inductive Word.Shifted (k : Nat) : Word → Word → Prop
  | relocatable {a b : Address} (h : b.toNat = a.toNat + k) :
      Shifted k (.address a .relocatable) (.address b .relocatable)
  | fixed {w : Word} (h : w.tag = .absolute ∨ w.tag = .external) : Shifted k w w

/-- The second symbol is the first in a program that lies `k` cells further on. -/
structure Symbol.Shifted (k : Nat) (s s' : Symbol) : Prop where
  name : s'.name = s.name
  kind : s'.kind = s.kind
  entry : s'.entry = s.entry
  own : s.kind ≠ .external → s'.address.toNat = s.address.toNat + k
  external : s.kind = .external → s.address = .zero ∧ s'.address = .zero

/-- The second reference is the first in a program that lies `k` cells further
on. -/
structure Reference.Shifted (k : Nat) (r r' : Reference) : Prop where
  name : r'.name = r.name
  address : r'.address.toNat = r.address.toNat + k

/-- The third program is the second behind the `k` words of the first. -/
structure Program.Shifted (k : Nat) (front p q : Program) : Prop where
  size : front.image.code.length = k
  code : ∃ ws, q.image.code = front.image.code ++ ws ∧
    List.Forall₂ (Word.Shifted k) p.image.code ws
  data : q.image.data = p.image.data
  symbols : List.Forall₂ (Symbol.Shifted k) p.symbols.symbols q.symbols.symbols
  references : List.Forall₂ (Reference.Shifted k) p.image.references q.image.references

namespace Statement

/-- An instruction without a label whose operands are numbers and registers. -/
def Nameless : Statement → Prop
  | .instruction label i =>
    label = none ∧ ∀ o ∈ i.operands, o.mode = .immediate ∨ o.mode = .register
  | _ => False

variable {s : Statement}

theorem Nameless.operandNames (h : s.Nameless) : s.operandNames = [] := by
  cases s with
  | instruction label i =>
    rw [Statement.operandNames, List.filterMap_eq_nil_iff]
    intro o ho
    have hmode := h.2 o ho
    cases o with
    | immediate v => rfl
    | direct n => simp [Operand.mode] at hmode
    | matrix n r c => simp [Operand.mode] at hmode
    | register r => rfl
  | blank => exact h.elim
  | comment => exact h.elim
  | directive label d => exact h.elim

/-- Such a statement takes code only, and neither binds nor exports a name. -/
theorem Nameless.quiet (h : s.Nameless) :
    s.label? = none ∧ s.externalName? = none ∧ s.entryName? = none ∧ s.dataSize = 0 ∧
      s.dataWords = [] ∧ ∀ code data, s.binding? code data = none := by
  cases s with
  | instruction label i =>
    obtain ⟨rfl, -⟩ := h
    exact ⟨rfl, rfl, rfl, rfl, rfl, fun _ _ => rfl⟩
  | blank => exact h.elim
  | comment => exact h.elim
  | directive label d => exact h.elim

end Statement

namespace Outline

variable {ts : List Statement}

/-! ### Statements without names in front of others -/

theorem operandNames_front (h : ∀ s ∈ ts, s.Nameless) (ss : List Statement) :
    operandNames (ts ++ ss) = operandNames ss := by
  have hnil : ts.flatMap Statement.operandNames = [] :=
    List.flatMap_eq_nil_iff.2 fun s hs => (h s hs).operandNames
  rw [operandNames, List.flatMap_append, hnil]
  rfl

/-- A view of the statements that shows nothing of those in front. -/
theorem filterMap_front {view : Statement → Option Text} (h : ∀ s ∈ ts, view s = none)
    (ss : List Statement) : (ts ++ ss).filterMap view = ss.filterMap view := by
  rw [List.filterMap_append, List.filterMap_eq_nil_iff.2 h]
  rfl

theorem labels_front (h : ∀ s ∈ ts, s.Nameless) (ss : List Statement) :
    labels (ts ++ ss) = labels ss :=
  filterMap_front (fun s hs => (h s hs).quiet.1) ss

theorem externals_front (h : ∀ s ∈ ts, s.Nameless) (ss : List Statement) :
    externals (ts ++ ss) = externals ss :=
  filterMap_front (fun s hs => (h s hs).quiet.2.1) ss

theorem entries_front (h : ∀ s ∈ ts, s.Nameless) (ss : List Statement) :
    entries (ts ++ ss) = entries ss :=
  filterMap_front (fun s hs => (h s hs).quiet.2.2.1) ss

theorem dataSize_front (h : ∀ s ∈ ts, s.Nameless) (ss : List Statement) :
    dataSize (ts ++ ss) = dataSize ss := by
  have hzero : dataSize ts = 0 := by
    rw [dataSize, List.sum_eq_zero_iff_forall_eq_nat]
    intro n hn
    obtain ⟨s, hs, rfl⟩ := List.mem_map.1 hn
    exact (h s hs).quiet.2.2.2.1
  rw [dataSize_append, hzero, Nat.zero_add]

theorem dataWords_front (h : ∀ s ∈ ts, s.Nameless) (ss : List Statement) :
    dataWords (ts ++ ss) = dataWords ss := by
  have hnil : ts.flatMap Statement.dataWords = [] :=
    List.flatMap_eq_nil_iff.2 fun s hs => (h s hs).quiet.2.2.2.2.1
  rw [dataWords, List.flatMap_append, hnil]
  rfl

theorem bindingsFrom_nameless : ∀ {ts : List Statement} (code data : Nat),
    (∀ s ∈ ts, s.Nameless) → bindingsFrom code data ts = []
  | [], _, _, _ => rfl
  | s :: ts, code, data, h => by
    have hs := (h s List.mem_cons_self).quiet.2.2.2.2.2 code data
    rw [bindingsFrom, hs, bindingsFrom_nameless _ _ fun s' hs' => h s' (List.mem_cons_of_mem _ hs')]
    rfl

end Outline

/-! ### Bindings -/

namespace Binding

/-- The binding with its code `k` cells further on. Data is still counted from
the start of its own area. -/
def codeShifted (k : Nat) (b : Binding) : Binding :=
  if b.kind = .code then { b with address := b.address + k } else b

/-- The binding `k` cells further on; an external one stays. -/
def shifted (k : Nat) (b : Binding) : Binding :=
  if b.kind = .external then b else { b with address := b.address + k }

theorem codeShifted_name (k : Nat) (b : Binding) : (b.codeShifted k).name = b.name := by
  unfold codeShifted
  split <;> rfl

/-- Code that moves takes the data behind it along. -/
theorem moved_codeShifted (k n : Nat) (b : Binding) :
    (b.codeShifted k).moved (n + k) = (b.moved n).shifted k := by
  obtain ⟨name, kind, address, entry⟩ := b
  cases kind with
  | code => rfl
  | data => exact congrArg (Binding.mk name _ · entry) (Nat.add_assoc address n k).symm
  | matrix => exact congrArg (Binding.mk name _ · entry) (Nat.add_assoc address n k).symm
  | external => rfl

theorem markedBy_shifted (names : List Text) (k : Nat) (b : Binding) :
    (b.shifted k).markedBy names = (b.markedBy names).shifted k := by
  by_cases hk : b.kind = .external
  · simp [shifted, markedBy, hk]
  · by_cases hn : b.name ∈ names
    · simp [shifted, markedBy, hk, hn]
    · simp [shifted, markedBy, hk, hn]

end Binding

namespace Outline

/-- The bindings of statements whose code starts `k` cells further on. -/
theorem bindingsFrom_shift (k : Nat) : ∀ (ss : List Statement) (code data : Nat),
    bindingsFrom (code + k) data ss = (bindingsFrom code data ss).map (Binding.codeShifted k)
  | [], _, _ => rfl
  | s :: ss, code, data => by
    have hone : (s.binding? (code + k) data).toList =
        (s.binding? code data).toList.map (Binding.codeShifted k) := by
      cases s with
      | blank => rfl
      | comment => rfl
      | instruction label i => cases label <;> rfl
      | directive label d => cases d <;> cases label <;> rfl
    have hlater := bindingsFrom_shift k ss (code + s.codeSize) (data + s.dataSize)
    rw [Nat.add_right_comm] at hlater
    rw [bindingsFrom, bindingsFrom, List.map_append, hone, hlater]

/-- **The names of a program behind statements without names.** -/
theorem find_front (h : ∀ s ∈ ts, s.Nameless) (ss : List Statement) (n : Text) :
    Binding.find n (bindings (ts ++ ss)) =
      (Binding.find n (bindings ss)).map (Binding.codeShifted (codeSize ts)) := by
  have hbindings : bindings (ts ++ ss) = (bindings ss).map (Binding.codeShifted (codeSize ts)) := by
    have hdata : dataSize ts = 0 := by simpa using dataSize_front h []
    rw [bindings, bindingsFrom_append, bindingsFrom_nameless _ _ h, hdata, List.nil_append,
      bindingsFrom_shift]
    rfl
  rw [hbindings, Binding.find_map (Binding.codeShifted_name _)]

end Outline

/-! ### Symbols -/

namespace SymbolTable

/-- The second table is the first in a program that lies `k` cells further on. -/
structure Follows (k : Nat) (t t' : SymbolTable) : Prop where
  absent : ∀ {n}, t.get? n = none → t'.get? n = none
  present : ∀ {n s}, t.get? n = some s → ∃ s', t'.get? n = some s' ∧ s.Shifted k s'

/-- Equal lists of names pair the symbols off. -/
theorem forall₂_of_names {R : Symbol → Symbol → Prop} : ∀ {ss ss' : List Symbol},
    ss.map Symbol.name = ss'.map Symbol.name →
      (∀ s ∈ ss, ∀ s' ∈ ss', s.name = s'.name → R s s') → List.Forall₂ R ss ss'
  | [], [], _, _ => .nil
  | [], _ :: _, he, _ => by cases he
  | _ :: _, [], he, _ => by cases he
  | s :: ss, s' :: ss', he, hr => by
    obtain ⟨h₁, h₂⟩ := List.cons.inj he
    refine .cons (hr s List.mem_cons_self s' List.mem_cons_self h₁) (forall₂_of_names h₂ ?_)
    exact fun a ha b hb => hr a (List.mem_cons_of_mem _ ha) b (List.mem_cons_of_mem _ hb)

/-- Tables are in the order of the names, so they follow each other symbol by
symbol. -/
theorem Follows.forall₂ {k : Nat} {t t' : SymbolTable} (h : Follows k t t') :
    List.Forall₂ (Symbol.Shifted k) t.symbols t'.symbols := by
  have hsame : t.symbols.map Symbol.name = t'.symbols.map Symbol.name := by
    refine names_eq_of_get? fun n => ?_
    constructor
    · rintro ⟨s, hs⟩
      obtain ⟨s', hs', -⟩ := h.present hs
      exact ⟨s', hs'⟩
    · rintro ⟨s', hs'⟩
      cases hs : t.get? n with
      | none => simp [h.absent hs] at hs'
      | some s => exact ⟨s, rfl⟩
  refine forall₂_of_names hsame fun s hs s' hs' hname => ?_
  obtain ⟨s'', hs'', hshifted⟩ := h.present (get?_eq_some_iff.2 ⟨hs, rfl⟩)
  rw [get?_eq_some_iff.2 ⟨hs', hname.symm⟩] at hs''
  cases hs''
  exact hshifted

end SymbolTable

/-! ### Words -/

namespace Slot

/-- The slot can be moved: it holds an absolute word, or refers to a name of the
table. -/
def Movable (t : SymbolTable) : Slot → Prop
  | .word w => w.tag = .absolute
  | .reference n => ∃ s, t.get? n = some s

variable {k : Nat} {t t' : SymbolTable}

theorem map_fill_of_words {slots : List Slot} (h : ∀ slot ∈ slots, ∃ w, slot = .word w)
    (places places' : Text → Option (SymbolKind × Address)) :
    slots.map (fill places) = slots.map (fill places') := by
  refine List.map_congr_left fun slot hslot => ?_
  obtain ⟨w, rfl⟩ := h slot hslot
  rfl

theorem references_of_words {places : Text → Option (SymbolKind × Address)} :
    ∀ {slots : List Slot} {offset : Nat}, (∀ slot ∈ slots, ∃ w, slot = .word w) →
      references places offset slots = []
  | [], _, _ => rfl
  | slot :: slots, offset, h => by
    obtain ⟨w, rfl⟩ := h slot List.mem_cons_self
    have hlater : references places (offset + 1) slots = [] :=
      references_of_words fun s hs => h s (List.mem_cons_of_mem (Slot.word w) hs)
    rw [references, hlater]
    rfl

/-- **A relocatable address moves, any other word stays.** -/
theorem shifted_fill (h : t.Follows k t') {slot : Slot} (hslot : slot.Movable t) :
    Word.Shifted k (slot.fill t.place?) (slot.fill t'.place?) := by
  cases slot with
  | word w => exact .fixed (Or.inl hslot)
  | reference n =>
    obtain ⟨s, hs⟩ := hslot
    obtain ⟨s', hs', hshifted⟩ := h.present hs
    simp only [fill, SymbolTable.place?, hs, hs', Option.map_some, hshifted.kind]
    by_cases hk : s.kind = .external
    · rw [if_pos hk, if_pos hk]
      exact .fixed (Or.inr rfl)
    · rw [if_neg hk, if_neg hk]
      exact .relocatable (hshifted.own hk)

/-- The uses of external names move with the words around them. -/
theorem shifted_references (h : t.Follows k t') : ∀ (slots : List Slot) (offset : Nat),
    (∀ slot ∈ slots, slot.Movable t) → codeBase + (offset + k) + slots.length ≤ memorySize →
      List.Forall₂ (Reference.Shifted k) (references t.place? offset slots)
        (references t'.place? (offset + k) slots)
  | [], _, _, _ => .nil
  | slot :: slots, offset, hslots, hfits => by
    rw [List.length_cons] at hfits
    have hlater := shifted_references h slots (offset + 1)
      (fun s hs => hslots s (List.mem_cons_of_mem _ hs)) (by omega)
    rw [Nat.add_right_comm] at hlater
    refine List.rel_append ?_ hlater
    have hhere : Address.base.advance? offset = some ⟨codeBase + offset, by omega⟩ :=
      dif_pos (by show codeBase + offset < memorySize; omega)
    have hthere : Address.base.advance? (offset + k) = some ⟨codeBase + (offset + k), by omega⟩ :=
      dif_pos (by show codeBase + (offset + k) < memorySize; omega)
    cases slot with
    | word w => exact .nil
    | reference n =>
      obtain ⟨s, hs⟩ := hslots _ List.mem_cons_self
      obtain ⟨s', hs', hshifted⟩ := h.present hs
      simp only [reference?, SymbolTable.place?, hs, hs', Option.map_some, hshifted.kind, hhere, hthere]
      by_cases hk : s.kind = .external
      · rw [if_pos hk, if_pos hk]
        exact .cons ⟨rfl, (Nat.add_assoc _ _ _).symm⟩ .nil
      · rw [if_neg hk, if_neg hk]
        exact .nil

end Slot

namespace Program

open Outline

/-! ### The program behind the front -/

variable {x : Expansion} {front : List SourceLine}

/-- The slots of a program that results can be moved. -/
theorem Assembles.movable {p : Program} (h : Assembles x p) :
    ∀ slot ∈ slots (statements x.macros x.lines), slot.Movable p.symbols := by
  intro slot hslot
  obtain ⟨s, hs, hslot⟩ := List.mem_flatMap.1 hslot
  cases s with
  | instruction label i =>
    cases slot with
    | word w => exact (Instruction.fixed_of_mem_slots hslot).1
    | reference n =>
      have hnil : i.slots.flatMap (Slot.faults p.symbols.place?) = [] := h.encodingFaults_eq_nil _ hs
      have hn := (Statement.slotFaults_eq_nil_iff i).1 hnil n
        (Instruction.reference_mem_slots_iff.1 hslot)
      obtain ⟨place, hplace⟩ := Option.ne_none_iff_exists'.1 hn
      obtain ⟨s, hs, -⟩ := Option.map_eq_some_iff.1 hplace
      exact ⟨s, hs⟩
  | blank => cases hslot
  | comment => cases hslot
  | directive label d => cases hslot

theorem words_of_nameless {ts : List Statement} (h : ∀ s ∈ ts, s.Nameless) :
    ∀ slot ∈ slots ts, ∃ w, slot = .word w := by
  intro slot hslot
  obtain ⟨s, hs, hslot⟩ := List.mem_flatMap.1 hslot
  cases slot with
  | word w => exact ⟨w, rfl⟩
  | reference n =>
    have hnames := (h s hs).operandNames
    cases s with
    | instruction label i =>
      have hn : n ∈ (Statement.instruction label i).operandNames :=
        Instruction.reference_mem_slots_iff.1 hslot
      rw [hnames] at hn
      cases hn
    | blank => cases hslot
    | comment => cases hslot
    | directive label d => cases hslot

theorem nameless_statements {macros : MacroTable}
    (hfront : ∀ l ∈ front, ∃ s, Statement.read macros l.text = .ok s ∧ s.Nameless) :
    ∀ s ∈ statements macros front, s.Nameless := by
  intro s hs
  obtain ⟨l, hl, hread⟩ := mem_statements_iff.1 hs
  obtain ⟨s', hread', hs'⟩ := hfront l hl
  rw [hread] at hread'
  cases hread'
  exact hs'

/-- Rules that hold for a program hold with nameless instructions in front. -/
theorem acceptable_front {macros : MacroTable} {lines : List SourceLine}
    (h : Acceptable macros lines)
    (hfront : ∀ l ∈ front, ∃ s, Statement.read macros l.text = .ok s ∧ s.Nameless)
    (hfits : Fits (statements macros (front ++ lines))) : Acceptable macros (front ++ lines) := by
  have hnameless := nameless_statements hfront
  have hlabels := labels_front hnameless (statements macros lines)
  have hexternals := externals_front hnameless (statements macros lines)
  have hentries := entries_front hnameless (statements macros lines)
  have hnames := operandNames_front hnameless (statements macros lines)
  rw [← statements_append] at hlabels hexternals hentries hnames
  refine ⟨fun l hl => ?_, ?_, ?_, ?_, ?_, hfits⟩
  · rcases List.mem_append.1 hl with hl | hl
    · obtain ⟨s, hs, -⟩ := hfront l hl
      exact ⟨s, hs⟩
    · exact h.readable l hl
  · rw [hlabels]
    exact h.distinct
  · rw [hlabels, hexternals]
    exact h.own
  · rw [hnames, hlabels, hexternals]
    exact h.defined
  · rw [hentries, hlabels, hexternals]
    exact h.exported

theorem acceptable_nil (macros : MacroTable) : Acceptable macros [] := by
  constructor
  · exact List.forall_mem_nil _
  · exact List.nodup_nil
  · exact List.forall_mem_nil _
  · exact List.forall_mem_nil _
  · exact List.forall_mem_nil _
  · exact Nat.le_of_ble_eq_true rfl

/-- An external symbol lies at zero. -/
theorem Assembles.address_of_external {p : Program} (h : Assembles x p) {s : Symbol}
    (hs : s ∈ p.symbols.symbols) (hk : s.kind = .external) : s.address = .zero := by
  obtain ⟨b, hb, -, hkind, haddress, -⟩ := h.binding_of_symbol hs
  have hexternal := hkind.symm.trans hk
  have hzero := (bindingsFrom_bound codeBase 0 (sound_of_mem_statements x.macros x.lines) b
    hb).2.2.2 hexternal
  refine Address.eq_of_toNat ?_
  rw [haddress, show Address.zero.toNat = b.address from hzero.symm]
  simp [Binding.moved, hexternal, SymbolKind.isData]

theorem shifted_of_binding {k : Nat} {s s' : Symbol} (h : s'.binding = s.binding.shifted k)
    (hexternal : s.kind = .external → s.address = .zero) : s.Shifted k s' := by
  by_cases hk : s.kind = .external
  · have hsame : s'.binding = s.binding := h.trans (if_pos hk)
    have haddress : s'.address = s.address :=
      Address.eq_of_toNat (congrArg Binding.address hsame)
    refine ⟨congrArg Binding.name hsame, congrArg Binding.kind hsame, congrArg Binding.entry hsame,
      fun hne => absurd hk hne, fun _ => ⟨hexternal hk, haddress.trans (hexternal hk)⟩⟩
  · have hmoved : s'.binding = { s.binding with address := s.address.toNat + k } :=
      h.trans (if_neg hk)
    exact ⟨congrArg Binding.name hmoved, congrArg Binding.kind hmoved, congrArg Binding.entry hmoved,
      fun _ => congrArg Binding.address hmoved, fun he => absurd he hk⟩

/-- **The symbols of a program behind the front.** -/
theorem follows_front {p q : Program} (hp : Assembles x p)
    (hq : Assembles { x with lines := front ++ x.lines } q)
    (hfront : ∀ s ∈ statements x.macros front, s.Nameless) :
    p.symbols.Follows (codeSize (statements x.macros front)) q.symbols := by
  set k := codeSize (statements x.macros front) with hk
  have hbinding : ∀ n, q.symbols.binding? n = (p.symbols.binding? n).map (Binding.shifted k) := by
    intro n
    have hsize : codeBase + codeSize (statements x.macros (front ++ x.lines)) =
        codeBase + codeSize (statements x.macros x.lines) + k := by
      rw [statements_append, codeSize_append]
      omega
    rw [hq.symbols, hp.symbols]
    simp only [hsize]
    rw [statements_append, find_front hfront, entries_front hfront]
    simp only [Option.map_map]
    refine Option.map_congr fun b _ => ?_
    simp only [Function.comp_apply]
    rw [Binding.moved_codeShifted, Binding.markedBy_shifted]
  constructor
  · intro n hn
    have hb := hbinding n
    simpa [SymbolTable.binding?, hn] using hb
  · intro n s hs
    have hb := hbinding n
    rw [SymbolTable.binding?, SymbolTable.binding?, hs, Option.map_some, Option.map_some] at hb
    obtain ⟨s', hs', hbinding'⟩ := Option.map_eq_some_iff.1 hb
    refine ⟨s', hs', shifted_of_binding hbinding' fun hexternal => ?_⟩
    exact hp.address_of_external (SymbolTable.get?_eq_some_iff.1 hs).1 hexternal

/-- **Relocation is moving the relocatable words.** Nameless instructions in
front of a program that still fits give a program again, in which its symbols,
its relocatable words and its references lie as many cells further on as the
front takes, and everything else is as it was. -/
theorem shifted_of_front {p : Program} (h : ofExpansion x = .ok p)
    (hfront : ∀ l ∈ front, ∃ s, Statement.read x.macros l.text = .ok s ∧ s.Nameless)
    (hfits : codeBase + codeSize (statements x.macros front) + p.image.code.length +
      p.image.data.length ≤ memorySize) :
    ∃ f q, ofExpansion { x with lines := front } = .ok f ∧
      ofExpansion { x with lines := front ++ x.lines } = .ok q ∧
      Shifted (codeSize (statements x.macros front)) f p q := by
  have hp := assembles_of_ok h
  have hnameless := nameless_statements hfront
  have hdata := dataSize_front hnameless (statements x.macros x.lines)
  rw [hp.length_code, hp.length_data] at hfits
  have hall : Fits (statements x.macros (front ++ x.lines)) := by
    rw [Fits, statements_append, codeSize_append, hdata]
    omega
  have halone : Fits (statements x.macros (front ++ [])) := by
    rw [statements_append] at hall
    rw [List.append_nil]
    exact hall.of_append
  obtain ⟨f, hf⟩ := exists_ok_of_acceptable h
    (acceptable_front (acceptable_nil x.macros) hfront halone)
  rw [List.append_nil] at hf
  obtain ⟨q, hq⟩ := exists_ok_of_acceptable h (acceptable_front (acceptable_of_ok h) hfront hall)
  refine ⟨f, q, hf, hq, ?_⟩
  have hfa := assembles_of_ok hf
  have hqa := assembles_of_ok hq
  have hfollows := follows_front hp hqa hnameless
  have hwords := words_of_nameless hnameless
  have hslots : slots (statements x.macros (front ++ x.lines)) =
      slots (statements x.macros front) ++ slots (statements x.macros x.lines) := by
    rw [statements_append, slots, List.flatMap_append]
    rfl
  constructor
  case size => exact hfa.length_code
  case code =>
    refine ⟨(slots (statements x.macros x.lines)).map (Slot.fill q.symbols.place?), ?_, ?_⟩
    · rw [hqa.code, hfa.code, hslots, List.map_append]
      exact congrArg (· ++ _) (Slot.map_fill_of_words hwords _ _)
    · rw [hp.code, List.forall₂_map_left_iff, List.forall₂_map_right_iff, List.forall₂_same]
      exact fun slot hslot => Slot.shifted_fill hfollows (hp.movable slot hslot)
  case data => rw [hqa.data, hp.data, statements_append, dataWords_front hnameless]
  case symbols => exact hfollows.forall₂
  case references =>
    rw [hqa.references, hp.references, hslots, Slot.references_append,
      Slot.references_of_words hwords, List.nil_append, length_slots]
    refine Slot.shifted_references hfollows _ 0 hp.movable ?_
    rw [length_slots]
    omega

/-- Four words of code that mention no name. -/
def sampleFront : List SourceLine :=
  [⟨1, "cmp r1, r2".toList⟩, ⟨2, "prn #-5".toList⟩]

theorem nameless_sampleFront :
    ∀ l ∈ sampleFront, ∃ s, Statement.read sample.macros l.text = .ok s ∧ s.Nameless := by
  intro l hl
  rcases List.mem_cons.1 hl with rfl | hl
  · exact ⟨.instruction none ⟨.cmp, some ⟨"r1".toList, .register ⟨1⟩⟩, some ⟨"r2".toList, .register ⟨2⟩⟩⟩,
      rfl, rfl, by decide⟩
  · rw [List.mem_singleton.1 hl]
    exact ⟨.instruction none ⟨.prn, none, some ⟨"#-5".toList, .immediate (-5)⟩⟩, rfl, rfl, by decide⟩

theorem shifted_of_front_sample : ∃ f p q, ofExpansion sample = .ok p ∧
    ofExpansion { sample with lines := sampleFront } = .ok f ∧
    ofExpansion { sample with lines := sampleFront ++ sample.lines } = .ok q ∧ Shifted 4 f p q := by
  obtain ⟨p, hp⟩ := sample_ok
  have ha := assembles_of_ok hp
  obtain ⟨f, q, hf, hq, hshifted⟩ := shifted_of_front hp nameless_sampleFront (by
    rw [ha.length_code, ha.length_data]
    exact Nat.le_of_ble_eq_true rfl)
  exact ⟨f, p, q, hp, hf, hq, hshifted⟩

end Program
end TenBit
