/-
# Names do not matter

If the lines of a program say the same with other names, and different names
stay different, then the words of the program do not change. Its symbols, its
uses of external names and its entries are those of the first program under
their new names. The table is in the order of the names, so a renaming may turn
it over; but the entries are written in the order of their addresses, and no two
of them have the same.

Key definitions: `Statement.Renamed`, `SourceLine.Renamed`, `Outline.Renamed`,
`Program.Renamed`, `Program.Counterparts`.
Key theorems: `Outline.renamed_of_forall₂`, `Outline.acceptable_of_renamed`,
`SymbolTable.sort_rename`, `Program.Counterparts.perm`, `Program.renamed_of_lines`.
-/
import Mathlib.Data.List.Forall2
import Mathlib.Logic.Equiv.Basic
import TenBit.Proofs.Output.Entries
import TenBit.Proofs.Program.DefiningLines
import TenBit.Proofs.Program.Shift

namespace TenBit

/-! ### Other names -/

/-- The operand with another name. -/
def Operand.rename (r : Text → Text) : Operand → Operand
  | immediate v => immediate v
  | direct n => direct (r n)
  | matrix n row column => matrix (r n) row column
  | register k => register k

/-- The directive with another name. -/
def Directive.rename (r : Text → Text) : Directive → Directive
  | data vs => data vs
  | string t => string t
  | matrix dimensions vs => matrix dimensions vs
  | entry n => entry (r n)
  | external n => external (r n)

/-- The second operand is the first with another name, whatever the texts. -/
def WrittenOperand.Renamed (r : Text → Text) (o o' : Option WrittenOperand) : Prop :=
  o'.map WrittenOperand.operand = o.map fun w => w.operand.rename r

/-- The second instruction is the first with other names. -/
structure Instruction.Renamed (r : Text → Text) (i i' : Instruction) : Prop where
  opcode : i'.opcode = i.opcode
  source : WrittenOperand.Renamed r i.source i'.source
  destination : WrittenOperand.Renamed r i.destination i'.destination

/-- The second statement is the first with other names. -/
inductive Statement.Renamed (r : Text → Text) : Statement → Statement → Prop
  | blank : Renamed r .blank .blank
  | comment : Renamed r .comment .comment
  | directive (label : Option Text) (d : Directive) :
      Renamed r (.directive label d) (.directive (label.map r) (d.rename r))
  | instruction (label : Option Text) {i i' : Instruction} (h : i.Renamed r i') :
      Renamed r (.instruction label i) (.instruction (label.map r) i')

/-- Both lines can be read, and the second says what the first does with other
names. -/
def SourceLine.Renamed (r : Text → Text) (macros macros' : MacroTable) (l l' : SourceLine) : Prop :=
  ∃ s s', Statement.read macros l.text = .ok s ∧ Statement.read macros' l'.text = .ok s' ∧
    s.Renamed r s'

/-- The slot with another name. -/
def Slot.rename (r : Text → Text) : Slot → Slot
  | .word w => .word w
  | .reference n => .reference (r n)

/-- The binding of another name. -/
def Binding.rename (r : Text → Text) (b : Binding) : Binding := { b with name := r b.name }

/-- The symbol under another name. -/
def Symbol.rename (r : Text → Text) (s : Symbol) : Symbol := { s with name := r s.name }

/-- The use of another name. -/
def Reference.rename (r : Text → Text) (u : Reference) : Reference := { u with name := r u.name }

/-- The second program is the first with other names. -/
structure Program.Renamed (r : Text → Text) (p q : Program) : Prop where
  code : q.image.code = p.image.code
  data : q.image.data = p.image.data
  objectText : q.image.objectText? = p.image.objectText?
  symbols : (q.symbols.symbols.map Symbol.binding).Perm
    ((p.symbols.symbols.map Symbol.binding).map (Binding.rename r))
  references : q.image.references = p.image.references.map (Reference.rename r)
  entries : q.symbols.entries.map Symbol.binding =
    (p.symbols.entries.map Symbol.binding).map (Binding.rename r)
  entriesText : p.symbols.entriesText? =
      SymbolTable.entryLines (p.symbols.entries.map Symbol.binding) ∧
    q.symbols.entriesText? =
      SymbolTable.entryLines ((p.symbols.entries.map Symbol.binding).map (Binding.rename r))

/-! ### One statement -/

variable {r : Text → Text}

namespace Operand

@[simp] theorem mode_rename (o : Operand) : (o.rename r).mode = o.mode := by
  cases o <;> rfl

@[simp] theorem register?_rename (o : Operand) : (o.rename r).register? = o.register? := by
  cases o <;> rfl

@[simp] theorem name?_rename (o : Operand) : (o.rename r).name? = o.name?.map r := by
  cases o <;> rfl

@[simp] theorem slots_rename (lone : Register → Word) (o : Operand) :
    (o.rename r).slots lone = (o.slots lone).map (Slot.rename r) := by
  cases o <;> rfl

end Operand

theorem WrittenOperand.renamed_cases {o o' : Option WrittenOperand}
    (h : WrittenOperand.Renamed r o o') :
    o = none ∧ o' = none ∨ ∃ w w', o = some w ∧ o' = some w' ∧ w'.operand = w.operand.rename r := by
  unfold Renamed at h
  cases o with
  | none => exact Or.inl ⟨rfl, Option.map_eq_none_iff.1 h⟩
  | some w =>
    obtain ⟨w', rfl, hw⟩ := Option.map_eq_some_iff.1 h
    exact Or.inr ⟨w, w', rfl, rfl, hw⟩

namespace Instruction

variable {o o' : Option WrittenOperand}

theorem modeOf_renamed (h : WrittenOperand.Renamed r o o') : modeOf o' = modeOf o := by
  rcases WrittenOperand.renamed_cases h with ⟨rfl, rfl⟩ | ⟨w, w', rfl, rfl, hw⟩
  · rfl
  · simp [modeOf, hw]

theorem registerOf?_renamed (h : WrittenOperand.Renamed r o o') :
    registerOf? o' = registerOf? o := by
  rcases WrittenOperand.renamed_cases h with ⟨rfl, rfl⟩ | ⟨w, w', rfl, rfl, hw⟩
  · rfl
  · simp [registerOf?, hw]

theorem slotsOf_renamed (lone : Register → Word) (h : WrittenOperand.Renamed r o o') :
    slotsOf lone o' = (slotsOf lone o).map (Slot.rename r) := by
  rcases WrittenOperand.renamed_cases h with ⟨rfl, rfl⟩ | ⟨w, w', rfl, rfl, hw⟩
  · rfl
  · simp [slotsOf, hw]

theorem operandsOf_renamed (h : WrittenOperand.Renamed r o o') :
    o'.toList.map WrittenOperand.operand =
      (o.toList.map WrittenOperand.operand).map (Operand.rename r) := by
  rcases WrittenOperand.renamed_cases h with ⟨rfl, rfl⟩ | ⟨w, w', rfl, rfl, hw⟩
  · rfl
  · simp [hw]

theorem Renamed.slots {i i' : Instruction} (h : i.Renamed r i') :
    i'.slots = i.slots.map (Slot.rename r) := by
  have hfirst : i'.firstWord = i.firstWord := by
    rw [firstWord, firstWord, h.opcode, modeOf_renamed h.source, modeOf_renamed h.destination]
  have hshared : i'.sharedRegisters? = i.sharedRegisters? := by
    rw [sharedRegisters?, sharedRegisters?, registerOf?_renamed h.source,
      registerOf?_renamed h.destination]
  have hoperands : i'.operandSlots = i.operandSlots.map (Slot.rename r) := by
    rw [operandSlots, operandSlots, hshared]
    split
    · rfl
    · rw [List.map_append, slotsOf_renamed _ h.source, slotsOf_renamed _ h.destination]
  rw [Instruction.slots, Instruction.slots, List.map_cons, hfirst, hoperands]
  rfl

theorem Renamed.operandNames {i i' : Instruction} (h : i.Renamed r i') :
    i'.operands.filterMap Operand.name? = (i.operands.filterMap Operand.name?).map r := by
  have hoperands : i'.operands = i.operands.map (Operand.rename r) := by
    rw [operands, operands, List.map_append, List.map_append, List.map_append,
      operandsOf_renamed h.source, operandsOf_renamed h.destination]
  rw [hoperands, List.filterMap_map, List.map_filterMap]
  exact List.filterMap_congr fun o _ => Operand.name?_rename o

end Instruction

namespace Statement

/-- What both passes see of a statement corresponds to what they see of the same
with other names. -/
structure Corresponds (r : Text → Text) (s s' : Statement) : Prop where
  label : s'.label? = s.label?.map r
  external : s'.externalName? = s.externalName?.map r
  entry : s'.entryName? = s.entryName?.map r
  operandNames : s'.operandNames = s.operandNames.map r
  slots : s'.slots = s.slots.map (Slot.rename r)
  dataWords : s'.dataWords = s.dataWords
  binding : ∀ code data, s'.binding? code data = (s.binding? code data).map (Binding.rename r)

theorem Renamed.corresponds {s s' : Statement} (h : s.Renamed r s') : s.Corresponds r s' := by
  cases h with
  | blank => exact ⟨rfl, rfl, rfl, rfl, rfl, rfl, fun _ _ => rfl⟩
  | comment => exact ⟨rfl, rfl, rfl, rfl, rfl, rfl, fun _ _ => rfl⟩
  | instruction label h =>
    exact ⟨rfl, rfl, rfl, h.operandNames, h.slots, rfl, fun _ _ => by cases label <;> rfl⟩
  | directive label d =>
    cases d <;> cases label <;> exact ⟨rfl, rfl, rfl, rfl, rfl, rfl, fun _ _ => rfl⟩

variable {s s' : Statement}

theorem Corresponds.codeSize (h : s.Corresponds r s') : s'.codeSize = s.codeSize := by
  rw [← length_slots, ← length_slots, h.slots, List.length_map]

theorem Corresponds.dataSize (h : s.Corresponds r s') : s'.dataSize = s.dataSize := by
  rw [← length_dataWords, ← length_dataWords, h.dataWords]

end Statement

/-! ### All statements -/

namespace Outline

/-- The names that are labels or external. -/
def names (ss : List Statement) : List Text := labels ss ++ externals ss

/-- The second outline is the first with other names. -/
structure Renamed (r : Text → Text) (ss ts : List Statement) : Prop where
  slots : slots ts = (slots ss).map (Slot.rename r)
  dataWords : dataWords ts = dataWords ss
  bindings : bindings ts = (bindings ss).map (Binding.rename r)
  labels : labels ts = (labels ss).map r
  externals : externals ts = (externals ss).map r
  entries : entries ts = (entries ss).map r
  operandNames : operandNames ts = (operandNames ss).map r

variable {ss ts : List Statement}

theorem filterMap_corresponds (h : List.Forall₂ (Statement.Corresponds r) ss ts)
    {view : Statement → Option Text}
    (hview : ∀ {s s'}, Statement.Corresponds r s s' → view s' = (view s).map r) :
    ts.filterMap view = (ss.filterMap view).map r := by
  induction h with
  | nil => rfl
  | @cons s s' ss ts hs _ ih =>
    rw [List.filterMap_cons, List.filterMap_cons, hview hs]
    cases view s with
    | none => exact ih
    | some n => exact congrArg (r n :: ·) ih

theorem flatMap_corresponds {α : Type} (h : List.Forall₂ (Statement.Corresponds r) ss ts)
    {view : Statement → List α} {f : α → α}
    (hview : ∀ {s s'}, Statement.Corresponds r s s' → view s' = (view s).map f) :
    ts.flatMap view = (ss.flatMap view).map f := by
  induction h with
  | nil => rfl
  | cons hs _ ih => rw [List.flatMap_cons, List.flatMap_cons, List.map_append, hview hs, ih]

theorem bindingsFrom_corresponds (h : List.Forall₂ (Statement.Corresponds r) ss ts)
    (code data : Nat) : bindingsFrom code data ts =
      (bindingsFrom code data ss).map (Binding.rename r) := by
  induction h generalizing code data with
  | nil => rfl
  | @cons s s' ss ts hs _ ih =>
    rw [bindingsFrom, bindingsFrom, List.map_append, hs.codeSize, hs.dataSize, ih, hs.binding]
    cases s.binding? code data <;> rfl

/-- **Statements with other names** make an outline with other names. -/
theorem renamed_of_forall₂ (h : List.Forall₂ (Statement.Corresponds r) ss ts) :
    Renamed r ss ts where
  slots := flatMap_corresponds h fun hs => hs.slots
  dataWords := by
    have hwords := flatMap_corresponds (f := id) h
      fun hs => hs.dataWords.trans (List.map_id _).symm
    rwa [List.map_id] at hwords
  bindings := bindingsFrom_corresponds h codeBase 0
  labels := filterMap_corresponds h fun hs => hs.label
  externals := filterMap_corresponds h fun hs => hs.external
  entries := filterMap_corresponds h fun hs => hs.entry
  operandNames := flatMap_corresponds h fun hs => hs.operandNames

theorem Renamed.codeSize (h : Renamed r ss ts) : codeSize ts = codeSize ss := by
  rw [← length_slots, ← length_slots, h.slots, List.length_map]

theorem Renamed.dataSize (h : Renamed r ss ts) : dataSize ts = dataSize ss := by
  rw [← length_dataWords, ← length_dataWords, h.dataWords]

theorem mem_names_of_mem_bindings {b : Binding} (hb : b ∈ bindings ss) : b.name ∈ names ss := by
  by_cases hk : b.kind = .external
  · exact List.mem_append_right _ (mem_externals_iff.2 ⟨b, hb, rfl, hk⟩)
  · exact List.mem_append_left _ (mem_labels_iff.2 ⟨b, hb, rfl, hk⟩)

/-! ### The lines of a program -/

variable {macros macros' : MacroTable} {ls ls' : List SourceLine}

theorem statements_renamed (h : List.Forall₂ (SourceLine.Renamed r macros macros') ls ls') :
    List.Forall₂ (Statement.Corresponds r) (statements macros ls) (statements macros' ls') := by
  induction h with
  | nil => exact .nil
  | @cons l l' ls ls' hl _ ih =>
    obtain ⟨s, s', hs, hs', hrenamed⟩ := hl
    rw [statements_cons, statements_cons, hs, hs']
    exact .cons hrenamed.corresponds ih

theorem readable_of_renamed (h : List.Forall₂ (SourceLine.Renamed r macros macros') ls ls') :
    ∀ l ∈ ls', ∃ s, Statement.read macros' l.text = .ok s := by
  induction h with
  | nil => exact List.forall_mem_nil _
  | cons hl _ ih =>
    obtain ⟨s, s', -, hs', -⟩ := hl
    exact List.forall_mem_cons.2 ⟨⟨s', hs'⟩, ih⟩

theorem mem_names_of_boundName? {s : Statement} {n : Text} (hn : s.boundName? = some n)
    (ss : List Statement) : n ∈ names (s :: ss) := by
  rw [names, List.mem_append, labels, externals, List.mem_filterMap, List.mem_filterMap]
  rcases Option.or_eq_some_iff.1 hn with hlabel | ⟨-, hexternal⟩
  · exact Or.inl ⟨s, List.mem_cons_self, hlabel⟩
  · exact Or.inr ⟨s, List.mem_cons_self, hexternal⟩

theorem names_subset_cons (s : Statement) (ss : List Statement) : names ss ⊆ names (s :: ss) := by
  have hsublist := List.sublist_cons_self s ss
  exact ((hsublist.filterMap Statement.label?).append
    (hsublist.filterMap Statement.externalName?)).subset

/-- The line that defines a name is the one that defines its counterpart. -/
theorem definedAt?_renamed {n : Text}
    (h : List.Forall₂ (SourceLine.Renamed r macros macros') ls ls')
    (horigins : ls'.map SourceLine.origin = ls.map SourceLine.origin)
    (hn : ∀ m ∈ names (statements macros ls), r m = r n → m = n) :
    definedAt? macros' ls' (r n) = definedAt? macros ls n := by
  induction h with
  | nil => rfl
  | @cons l l' ls ls' hl _ ih =>
    obtain ⟨s, s', hs, hs', hrenamed⟩ := hl
    obtain ⟨horigin, horigins⟩ := List.cons.inj horigins
    have hbound : s'.boundName? = s.boundName?.map r := by
      have hs := hrenamed.corresponds
      rw [Statement.boundName?, Statement.boundName?, hs.label, hs.external, Option.map_or]
    rw [statements_cons, hs] at hn
    have hhere : (s'.boundName? == some (r n)) = (s.boundName? == some n) := by
      rw [hbound]
      cases hname : s.boundName? with
      | none => rfl
      | some m =>
        have hiff : r m = r n ↔ m = n :=
          ⟨hn m (mem_names_of_boundName? hname _), congrArg r⟩
        rw [Option.map_some, Bool.eq_iff_iff]
        simpa using hiff
    have hlater := ih horigins fun m hm => hn m (names_subset_cons s _ hm)
    unfold definedAt? at hlater ⊢
    rw [List.find?_cons, List.find?_cons, hs, hs']
    simp only [Except.toOption, Option.bind_some, hhere]
    split
    · exact congrArg some horigin
    · exact hlater

/-- **The rules for a program** are kept under other names that stay apart. -/
theorem acceptable_of_renamed (h : Renamed r (statements macros ls) (statements macros' ls'))
    (hr : ∀ m ∈ names (statements macros ls), ∀ n ∈ names (statements macros ls), r m = r n → m = n)
    (hread : ∀ l ∈ ls', ∃ s, Statement.read macros' l.text = .ok s) (ha : Acceptable macros ls) :
    Acceptable macros' ls' := by
  have hlabel : ∀ {n}, n ∈ labels (statements macros ls) → n ∈ names (statements macros ls) :=
    fun hn => List.mem_append_left _ hn
  have hexternal : ∀ {n}, n ∈ externals (statements macros ls) → n ∈ names (statements macros ls) :=
    fun hn => List.mem_append_right _ hn
  have hown : ∀ n ∈ labels (statements macros ls), n ∉ externals (statements macros ls) →
      r n ∉ externals (statements macros' ls') := by
    intro n hn hnot hmem
    rw [h.externals] at hmem
    obtain ⟨m, hm, he⟩ := List.mem_map.1 hmem
    exact hnot (hr m (hexternal hm) n (hlabel hn) he ▸ hm)
  constructor
  case readable => exact hread
  case distinct =>
    rw [h.labels]
    exact ha.distinct.map_on fun m hm n hn he => hr m (hlabel hm) n (hlabel hn) he
  case own =>
    intro n' hn'
    rw [h.labels] at hn'
    obtain ⟨n, hn, rfl⟩ := List.mem_map.1 hn'
    exact hown n hn (ha.own n hn)
  case defined =>
    intro n' hn'
    rw [h.operandNames] at hn'
    obtain ⟨n, hn, rfl⟩ := List.mem_map.1 hn'
    rw [h.labels, h.externals]
    exact (ha.defined n hn).imp List.mem_map_of_mem List.mem_map_of_mem
  case exported =>
    intro n' hn'
    rw [h.entries] at hn'
    obtain ⟨n, hn, rfl⟩ := List.mem_map.1 hn'
    obtain ⟨hlabels, hnot⟩ := ha.exported n hn
    refine ⟨?_, hown n hlabels hnot⟩
    rw [h.labels]
    exact List.mem_map_of_mem hlabels
  case fits =>
    rw [h.codeSize, h.dataSize]
    exact ha.fits

end Outline

namespace Binding

theorem moved_rename (offset : Nat) (b : Binding) :
    (b.rename r).moved offset = (b.moved offset).rename r := by
  unfold moved rename
  split <;> rfl

theorem markedBy_rename {ns : List Text} {b : Binding} (h : r b.name ∈ ns.map r → b.name ∈ ns) :
    (b.rename r).markedBy (ns.map r) = (b.markedBy ns).rename r := by
  have hiff : r b.name ∈ ns.map r ↔ b.name ∈ ns := ⟨h, List.mem_map_of_mem⟩
  unfold markedBy rename
  simp only [hiff]
  split <;> rfl

end Binding

theorem Symbol.eq_rename {s s' : Symbol} (h : s'.binding = s.binding.rename r)
    (hline : s'.line = s.line) : s' = s.rename r := by
  have hname : s'.name = r s.name := congrArg Binding.name h
  have haddress : s'.address = s.address := Address.eq_of_toNat (congrArg Binding.address h)
  have hkind : s'.kind = s.kind := congrArg Binding.kind h
  have hentry : s'.entry = s.entry := congrArg Binding.entry h
  calc s' = ⟨s'.name, s'.address, s'.kind, s'.entry, s'.line⟩ := rfl
    _ = ⟨r s.name, s.address, s.kind, s.entry, s.line⟩ := by
        rw [hname, haddress, hkind, hentry, hline]
    _ = s.rename r := rfl

namespace Slot

variable {places places' : Text → Option (SymbolKind × Address)}

theorem fill_rename {slot : Slot} (h : ∀ n, slot = .reference n → places' (r n) = places n) :
    (slot.rename r).fill places' = slot.fill places := by
  cases slot with
  | word w => rfl
  | reference n => simp only [rename, fill, h n rfl]

theorem reference?_rename {slot : Slot} (h : ∀ n, slot = .reference n → places' (r n) = places n)
    (address : Option Address) : (slot.rename r).reference? places' address =
      (slot.reference? places address).map (Reference.rename r) := by
  cases slot with
  | word w => rfl
  | reference n =>
    simp only [rename, reference?, h n rfl]
    cases places n with
    | none => rfl
    | some place =>
      simp only
      split
      · cases address <;> rfl
      · rfl

/-- The uses of external names stay in order, at their addresses. -/
theorem references_rename : ∀ {slots : List Slot} (offset : Nat),
    (∀ slot ∈ slots, ∀ n, slot = .reference n → places' (r n) = places n) →
      references places' offset (slots.map (rename r)) =
        (references places offset slots).map (Reference.rename r)
  | [], _, _ => rfl
  | slot :: slots, offset, h => by
    obtain ⟨hslot, hslots⟩ := List.forall_mem_cons.1 h
    rw [List.map_cons, references, references, reference?_rename hslot,
      references_rename (offset + 1) hslots, List.map_append]
    cases slot.reference? places (Address.base.advance? offset) <;> rfl

end Slot

/-- An object file tells the words and nothing else. -/
theorem Image.objectText?_eq {i j : Image} (hcode : j.code = i.code) (hdata : j.data = i.data) :
    j.objectText? = i.objectText? := by
  obtain ⟨code, data, uses⟩ := i
  obtain ⟨code', data', uses'⟩ := j
  cases hcode
  cases hdata
  rfl

/-! ### Entries -/

namespace SymbolTable

/-- **Sorting by address does not look at the names.** -/
theorem sort_rename {bs cs : List Binding} (h : cs.Perm (bs.map (Binding.rename r)))
    (hbs : bs.Pairwise fun a c => a.address ≠ c.address) :
    Order.sort bindingByAddress cs = (Order.sort bindingByAddress bs).map (Binding.rename r) := by
  have hcs : cs.Pairwise fun a c => a.address ≠ c.address := by
    refine (h.pairwise_iff fun hne => Ne.symm hne).2 ?_
    exact List.pairwise_map.2 hbs
  have hperm : (Order.sort bindingByAddress cs).Perm
      ((Order.sort bindingByAddress bs).map (Binding.rename r)) :=
    (Order.sort_perm _ cs).trans (h.trans ((Order.sort_perm _ bs).map _).symm)
  refine List.Perm.eq_of_pairwise (fun a b _ _ hab hba => ?_) (pairwise_sort hcs)
    (List.pairwise_map.2 (pairwise_sort hbs)) hperm
  exact absurd hab (Nat.lt_asymm hba)

end SymbolTable

namespace Program

open Outline

variable {x y : Expansion} {p q : Program}

/-! ### Two programs -/

theorem Assembles.name_mem_names (h : Assembles x p) {s : Symbol} (hs : s ∈ p.symbols.symbols) :
    s.name ∈ names (statements x.macros x.lines) := by
  obtain ⟨b, hb, hname, -⟩ := h.binding_of_symbol hs
  rw [hname]
  exact mem_names_of_mem_bindings hb

/-- Two programs whose lines say the same with other names, which stay apart. -/
structure Counterparts (r : Text → Text) (x y : Expansion) (p q : Program) : Prop where
  first : Assembles x p
  second : Assembles y q
  rules : Acceptable x.macros x.lines
  outline : Outline.Renamed r (statements x.macros x.lines) (statements y.macros y.lines)
  apart : ∀ m ∈ names (statements x.macros x.lines), ∀ n ∈ names (statements x.macros x.lines),
    r m = r n → m = n

namespace Counterparts

theorem finished (h : Counterparts r x y p q) {b : Binding}
    (hb : b ∈ bindings (statements x.macros x.lines)) :
    ((b.rename r).moved (codeBase + codeSize (statements y.macros y.lines))).markedBy
        (entries (statements y.macros y.lines)) =
      ((b.moved (codeBase + codeSize (statements x.macros x.lines))).markedBy
        (entries (statements x.macros x.lines))).rename r := by
  rw [h.outline.codeSize, h.outline.entries, Binding.moved_rename]
  refine Binding.markedBy_rename fun hmem => ?_
  obtain ⟨n, hn, he⟩ := List.mem_map.1 hmem
  rw [Binding.moved_name] at he ⊢
  have hlabel := (h.rules.exported n hn).1
  exact h.apart n (List.mem_append_left _ hlabel) b.name (mem_names_of_mem_bindings hb) he ▸ hn

theorem nodup_names (h : Counterparts r x y p q) :
    ((p.symbols.symbols.map Symbol.name).map r).Nodup := by
  refine p.symbols.nodup_names.map_on fun m hm n hn he => ?_
  obtain ⟨s, hs, rfl⟩ := List.mem_map.1 hm
  obtain ⟨s', hs', rfl⟩ := List.mem_map.1 hn
  exact h.apart _ (h.first.name_mem_names hs) _ (h.first.name_mem_names hs') he

/-- **The symbols are those of the first program under their new names.** -/
theorem perm (h : Counterparts r x y p q) : (q.symbols.symbols.map Symbol.binding).Perm
    ((p.symbols.symbols.map Symbol.binding).map (Binding.rename r)) := by
  have hsecond : (q.symbols.symbols.map Symbol.binding).Nodup := by
    refine List.Nodup.of_map Binding.name ?_
    rw [List.map_map]
    exact q.symbols.nodup_names
  have hfirst : ((p.symbols.symbols.map Symbol.binding).map (Binding.rename r)).Nodup := by
    refine List.Nodup.of_map Binding.name ?_
    have hnames := h.nodup_names
    rw [List.map_map] at hnames ⊢
    rwa [List.map_map]
  refine (List.perm_ext_iff_of_nodup hsecond hfirst).2 fun c => ?_
  simp only [List.mem_map]
  rw [h.second.mem_symbols_iff, h.outline.bindings]
  constructor
  · rintro ⟨b', hb', rfl⟩
    obtain ⟨b, hb, rfl⟩ := List.mem_map.1 hb'
    rw [h.finished hb]
    exact ⟨_, h.first.mem_symbols_iff.2 ⟨b, hb, rfl⟩, rfl⟩
  · rintro ⟨c, hc, rfl⟩
    obtain ⟨b, hb, rfl⟩ := h.first.mem_symbols_iff.1 hc
    exact ⟨b.rename r, List.mem_map_of_mem hb, h.finished hb⟩

/-- A symbol of the first program has a counterpart. -/
theorem exists_symbol (h : Counterparts r x y p q) {s : Symbol} (hs : s ∈ p.symbols.symbols) :
    ∃ s' ∈ q.symbols.symbols, s'.binding = s.binding.rename r :=
  List.mem_map.1 (h.perm.mem_iff.2 (List.mem_map_of_mem (List.mem_map_of_mem hs)))

theorem place?_rename (h : Counterparts r x y p q) {n : Text} {s : Symbol}
    (hs : p.symbols.get? n = some s) : q.symbols.place? (r n) = p.symbols.place? n := by
  obtain ⟨hmem, rfl⟩ := SymbolTable.get?_eq_some_iff.1 hs
  obtain ⟨s', hs', hbinding⟩ := h.exists_symbol hmem
  have hget : q.symbols.get? (r s.name) = some s' :=
    SymbolTable.get?_eq_some_iff.2 ⟨hs', congrArg Binding.name hbinding⟩
  have hkind : s'.kind = s.kind := congrArg Binding.kind hbinding
  have haddress : s'.address = s.address := Address.eq_of_toNat (congrArg Binding.address hbinding)
  rw [SymbolTable.place?, SymbolTable.place?, hget, hs, Option.map_some, Option.map_some, hkind,
    haddress]

theorem slots_agree (h : Counterparts r x y p q) :
    ∀ slot ∈ slots (statements x.macros x.lines), ∀ n, slot = .reference n →
      q.symbols.place? (r n) = p.symbols.place? n := by
  rintro slot hslot n rfl
  obtain ⟨s, hs⟩ := h.first.movable _ hslot
  exact h.place?_rename hs

theorem code_eq (h : Counterparts r x y p q) : q.image.code = p.image.code := by
  rw [h.second.code, h.first.code, h.outline.slots, List.map_map]
  exact List.map_congr_left fun slot hslot => Slot.fill_rename (h.slots_agree slot hslot)

theorem data_eq (h : Counterparts r x y p q) : q.image.data = p.image.data := by
  rw [h.second.data, h.first.data, h.outline.dataWords]

theorem references_eq (h : Counterparts r x y p q) :
    q.image.references = p.image.references.map (Reference.rename r) := by
  rw [h.second.references, h.first.references, h.outline.slots]
  exact Slot.references_rename 0 h.slots_agree

theorem entries_eq (h : Counterparts r x y p q) : q.symbols.entries.map Symbol.binding =
    (p.symbols.entries.map Symbol.binding).map (Binding.rename r) := by
  rw [SymbolTable.map_binding_entries, SymbolTable.map_binding_entries]
  refine SymbolTable.sort_rename ?_ h.first.entries_apart
  have hfilter : ((p.symbols.symbols.map Symbol.binding).map (Binding.rename r)).filter
      Binding.entry = ((p.symbols.symbols.map Symbol.binding).filter Binding.entry).map
        (Binding.rename r) := List.filter_map
  rw [← hfilter]
  exact h.perm.filter Binding.entry

theorem renamed (h : Counterparts r x y p q) : p.Renamed r q where
  code := h.code_eq
  data := h.data_eq
  objectText := Image.objectText?_eq h.code_eq h.data_eq
  symbols := h.perm
  references := h.references_eq
  entries := h.entries_eq
  entriesText := by
    rw [← h.entries_eq]
    exact ⟨SymbolTable.entriesText?_eq_entryLines _, SymbolTable.entriesText?_eq_entryLines _⟩

/-- If the lines have the same numbers then so do the symbols. -/
theorem symbols_perm (h : Counterparts r x y p q) (hlines : ∀ s ∈ p.symbols.symbols,
      q.symbols.line? (r s.name) = p.symbols.line? s.name) :
    q.symbols.symbols.Perm (p.symbols.symbols.map (Symbol.rename r)) := by
  have hsecond : q.symbols.symbols.Nodup := q.symbols.nodup_names.of_map Symbol.name
  have hfirst : (p.symbols.symbols.map (Symbol.rename r)).Nodup := by
    refine List.Nodup.of_map Symbol.name ?_
    have hnames := h.nodup_names
    rw [List.map_map] at hnames ⊢
    exact hnames
  have hsame : ∀ {s s'}, s ∈ p.symbols.symbols → s' ∈ q.symbols.symbols →
      s'.binding = s.binding.rename r → s' = s.rename r := by
    intro s s' hs hs' hbinding
    have hname : s'.name = r s.name := congrArg Binding.name hbinding
    have hline := hlines s hs
    rw [SymbolTable.line?, SymbolTable.line?, SymbolTable.get?_eq_some_iff.2 ⟨hs', hname⟩,
      SymbolTable.get?_eq_some_iff.2 ⟨hs, rfl⟩] at hline
    exact Symbol.eq_rename hbinding (Option.some.inj hline)
  refine (List.perm_ext_iff_of_nodup hsecond hfirst).2 fun s' => ?_
  rw [List.mem_map]
  constructor
  · intro hs'
    obtain ⟨c, hc, hbinding⟩ := List.mem_map.1 (h.perm.mem_iff.1 (List.mem_map_of_mem hs'))
    obtain ⟨s, hs, rfl⟩ := List.mem_map.1 hc
    exact ⟨s, hs, (hsame hs hs' hbinding.symm).symm⟩
  · rintro ⟨s, hs, rfl⟩
    obtain ⟨s', hs', hbinding⟩ := h.exists_symbol hs
    rw [← hsame hs hs' hbinding]
    exact hs'

end Counterparts

/-- **Names do not matter.** If a program results from some lines then one results
from any lines that say the same with other names which stay apart. It has the
same words and the same object file; its symbols, its uses of external names and
its entries are those of the first program under their new names. -/
theorem renamed_of_lines {r : Text → Text} {x y : Expansion} {p : Program}
    (hp : ofExpansion x = .ok p)
    (hr : ∀ m ∈ names (statements x.macros x.lines), ∀ n ∈ names (statements x.macros x.lines),
      r m = r n → m = n)
    (hlines : List.Forall₂ (SourceLine.Renamed r x.macros y.macros) x.lines y.lines)
    (hy : y.report.errorCount = 0) :
    ∃ q, ofExpansion y = .ok q ∧ p.Renamed r q ∧
      (y.lines.map SourceLine.origin = x.lines.map SourceLine.origin →
        q.symbols.symbols.Perm (p.symbols.symbols.map (Symbol.rename r))) := by
  have ha := acceptable_of_ok hp
  have houtline := renamed_of_forall₂ (statements_renamed hlines)
  obtain ⟨q, hq⟩ := exists_ok_iff_acceptable.2 ⟨Report.errorCount_eq_zero_iff.1 hy,
    acceptable_of_renamed houtline hr (readable_of_renamed hlines) ha⟩
  have h : Counterparts r x y p q :=
    ⟨assembles_of_ok hp, assembles_of_ok hq, ha, houtline, hr⟩
  refine ⟨q, hq, h.renamed, fun horigins => h.symbols_perm fun s hs => ?_⟩
  rw [line?_of_ok hq, line?_of_ok hp]
  have hname := h.first.name_mem_names hs
  exact definedAt?_renamed hlines horigins fun m hm he => hr m hm s.name hname he

/-- The sample with `Z` for `A`, and some blanks less. The first symbol of the table
becomes the last. -/
def sampleRenamed : Expansion where
  lines := [
    ⟨1, "Z: mov M[r1][r2],r3".toList⟩,
    ⟨2, ".extern X".toList⟩,
    ⟨3, "M: .mat [2][3]".toList⟩,
    ⟨4, "lea X,K".toList⟩,
    ⟨5, "add #-1,Z".toList⟩,
    ⟨6, "cmp r1,r2".toList⟩,
    ⟨7, "K: .string \"xyz\"".toList⟩,
    ⟨8, ".entry Z".toList⟩,
    ⟨9, "E: stop".toList⟩]
  macros := .empty
  report := .new []

set_option maxRecDepth 10000 in
theorem sampleRenamed_lines :
    List.Forall₂ (SourceLine.Renamed (Equiv.swap "A".toList "Z".toList) sample.macros
      sampleRenamed.macros) sample.lines sampleRenamed.lines := by
  refine .cons ⟨_, _, rfl, rfl, .instruction (some "A".toList) ⟨rfl, rfl, rfl⟩⟩ ?_
  refine .cons ⟨_, _, rfl, rfl, .directive none _⟩ ?_
  refine .cons ⟨_, _, rfl, rfl, .directive (some "M".toList) _⟩ ?_
  refine .cons ⟨_, _, rfl, rfl, .instruction none ⟨rfl, rfl, rfl⟩⟩ ?_
  refine .cons ⟨_, _, rfl, rfl, .instruction none ⟨rfl, rfl, rfl⟩⟩ ?_
  refine .cons ⟨_, _, rfl, rfl, .instruction none ⟨rfl, rfl, rfl⟩⟩ ?_
  refine .cons ⟨_, _, rfl, rfl, .directive (some "K".toList) _⟩ ?_
  refine .cons ⟨_, _, rfl, rfl, .directive none _⟩ ?_
  exact .cons ⟨_, _, rfl, rfl, .instruction (some "E".toList) ⟨rfl, rfl, rfl⟩⟩ .nil

theorem renamed_of_lines_sample : ∃ p q, ofExpansion sample = .ok p ∧
    ofExpansion sampleRenamed = .ok q ∧ p.Renamed (Equiv.swap "A".toList "Z".toList) q ∧
    q.symbols.symbols.Perm
      (p.symbols.symbols.map (Symbol.rename (Equiv.swap "A".toList "Z".toList))) := by
  obtain ⟨p, hp⟩ := sample_ok
  obtain ⟨q, hq, hrenamed, hsymbols⟩ := renamed_of_lines hp
    (fun m _ n _ he => (Equiv.swap "A".toList "Z".toList).injective he) sampleRenamed_lines rfl
  exact ⟨p, q, hp, hq, hrenamed, hsymbols (by decide)⟩

end Program
end TenBit
