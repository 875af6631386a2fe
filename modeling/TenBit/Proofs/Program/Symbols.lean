/-
# The symbols of a program

A program that results has a symbol for each label of an instruction, at the
base of memory and the words of code before it; one for each label of data,
behind all the code and the cells of data before it; one for each external name,
at zero; and no other. Each statement that can carry a label takes at least one
word, so no two symbols of the program lie at the same address.

Key definitions: `Outline.Placed`, `Outline.Apart`, `SymbolTable.Exact`.
Key theorems: `Outline.placed_iff`, `Outline.bindingsFrom_apart`,
`Program.Assembles.mem_symbols_iff`, `Program.symbols_exact`.
-/
import TenBit.Proofs.Program.Assembly
import TenBit.Proofs.Program.Names

namespace TenBit

theorem SymbolKind.code_or_isData {k : SymbolKind} (h : k ≠ .external) :
    k = .code ∨ k.isData = true := by
  cases k with
  | code => exact Or.inl rfl
  | data => exact Or.inr rfl
  | matrix => exact Or.inr rfl
  | external => exact absurd rfl h

namespace Outline

/-! ### Where a name is placed -/

/-- The program places a name at an address: code in the order of the
instructions, data behind all the code, external names at zero. -/
inductive Placed (ss : List Statement) : Text → SymbolKind → Nat → Prop
  | code {before after : List Statement} {n : Text} {i : Instruction}
      (h : ss = before ++ .instruction (some n) i :: after) :
      Placed ss n .code (codeBase + codeSize before)
  | data {before after : List Statement} {n : Text} {vs : List Cell}
      (h : ss = before ++ .directive (some n) (.data vs) :: after) :
      Placed ss n .data (codeBase + codeSize ss + dataSize before)
  | string {before after : List Statement} {n t : Text}
      (h : ss = before ++ .directive (some n) (.string t) :: after) :
      Placed ss n .data (codeBase + codeSize ss + dataSize before)
  | matrix {before after : List Statement} {n : Text} {d : Option Dimensions} {vs : List Cell}
      (h : ss = before ++ .directive (some n) (.matrix d vs) :: after) :
      Placed ss n .matrix (codeBase + codeSize ss + dataSize before)
  | external {label : Option Text} {n : Text} (h : .directive label (.external n) ∈ ss) :
      Placed ss n .external 0

/-- A binding is that of some statement, at the sizes of those before it. -/
theorem mem_bindingsFrom_iff {b : Binding} : ∀ {ss : List Statement} {code data : Nat},
    b ∈ bindingsFrom code data ss ↔ ∃ before s after, ss = before ++ s :: after ∧
      Statement.binding? (code + codeSize before) (data + dataSize before) s = some b := by
  intro ss code data
  constructor
  · intro hb
    induction ss generalizing code data with
    | nil => cases hb
    | cons s ss ih =>
      rcases List.mem_append.1 hb with hb | hb
      · exact ⟨[], s, ss, rfl, Option.mem_toList.1 hb⟩
      · obtain ⟨before, s', after, rfl, hs'⟩ := ih hb
        refine ⟨s :: before, s', after, rfl, ?_⟩
        rw [codeSize_cons, dataSize_cons, ← Nat.add_assoc, ← Nat.add_assoc]
        exact hs'
  · rintro ⟨before, s, after, rfl, hs⟩
    rw [bindingsFrom_append, bindingsFrom, hs]
    exact List.mem_append_right _ List.mem_cons_self

theorem mem_bindings_iff {b : Binding} {ss : List Statement} :
    b ∈ bindings ss ↔ ∃ before s after, ss = before ++ s :: after ∧
      Statement.binding? (codeBase + codeSize before) (dataSize before) s = some b := by
  rw [bindings, mem_bindingsFrom_iff]
  simp only [Nat.zero_add]

/-- A name is placed where its binding is, once the data area is moved. -/
theorem placed_iff {ss : List Statement} {n : Text} {k : SymbolKind} {a : Nat} :
    Placed ss n k a ↔ ∃ b ∈ bindings ss, b.name = n ∧ b.kind = k ∧
      (b.moved (codeBase + codeSize ss)).address = a := by
  have hmoved : ∀ (m : Nat), m + (codeBase + codeSize ss) = codeBase + codeSize ss + m :=
    fun m => Nat.add_comm _ _
  constructor
  · intro h
    cases h with
    | @code before after n i h =>
      exact ⟨_, mem_bindings_iff.2 ⟨before, _, after, h, rfl⟩, rfl, rfl, rfl⟩
    | @data before after n vs h =>
      exact ⟨_, mem_bindings_iff.2 ⟨before, _, after, h, rfl⟩, rfl, rfl, hmoved _⟩
    | @string before after n t h =>
      exact ⟨_, mem_bindings_iff.2 ⟨before, _, after, h, rfl⟩, rfl, rfl, hmoved _⟩
    | @matrix before after n d vs h =>
      exact ⟨_, mem_bindings_iff.2 ⟨before, _, after, h, rfl⟩, rfl, rfl, hmoved _⟩
    | @external label n h =>
      obtain ⟨before, after, rfl⟩ := List.append_of_mem h
      exact ⟨_, mem_bindings_iff.2 ⟨before, _, after, rfl, rfl⟩, rfl, rfl, rfl⟩
  · rintro ⟨b, hb, rfl, rfl, rfl⟩
    obtain ⟨before, s, after, h, hs⟩ := mem_bindings_iff.1 hb
    cases s with
    | blank => cases hs
    | comment => cases hs
    | instruction label i =>
      obtain ⟨n, rfl, rfl⟩ := Option.map_eq_some_iff.1 hs
      exact Placed.code h
    | directive label d =>
      cases d with
      | data vs =>
        obtain ⟨n, rfl, rfl⟩ := Option.map_eq_some_iff.1 hs
        show Placed ss n .data (dataSize before + (codeBase + codeSize ss))
        rw [hmoved]
        exact Placed.data h
      | string t =>
        obtain ⟨n, rfl, rfl⟩ := Option.map_eq_some_iff.1 hs
        show Placed ss n .data (dataSize before + (codeBase + codeSize ss))
        rw [hmoved]
        exact Placed.string h
      | matrix d vs =>
        obtain ⟨n, rfl, rfl⟩ := Option.map_eq_some_iff.1 hs
        show Placed ss n .matrix (dataSize before + (codeBase + codeSize ss))
        rw [hmoved]
        exact Placed.matrix h
      | entry n => cases hs
      | external n =>
        cases hs
        exact Placed.external (h ▸ List.mem_append_right _ List.mem_cons_self)

/-! ### No two names at one address -/

/-- Two bindings in the same area have different addresses. -/
def Apart (a b : Binding) : Prop :=
  (a.kind = .code → b.kind = .code → a.address ≠ b.address) ∧
    (a.kind.isData = true → b.kind.isData = true → a.address ≠ b.address)

instance : Std.Symm Apart :=
  ⟨fun _ _ h => ⟨fun hb ha he => h.1 ha hb he.symm, fun hb ha he => h.2 ha hb he.symm⟩⟩

/-- Each statement takes a cell of its own for what it binds. -/
theorem bindingsFrom_apart : ∀ {ss : List Statement} (code data : Nat), (∀ s ∈ ss, s.Sound) →
    (bindingsFrom code data ss).Pairwise Apart
  | [], _, _, _ => List.Pairwise.nil
  | s :: ss, code, data, hss => by
    have hlater : ∀ s' ∈ ss, s'.Sound := fun s' hs' => hss s' (List.mem_cons_of_mem _ hs')
    rw [bindingsFrom, List.pairwise_append]
    refine ⟨?_, bindingsFrom_apart _ _ hlater, fun a ha b hb => ?_⟩
    · cases Statement.binding? code data s with
      | none => exact List.Pairwise.nil
      | some a => exact List.pairwise_singleton _ a
    · obtain ⟨-, hacode, hadata, -⟩ :=
        Statement.binding?_bound (hss s List.mem_cons_self) (Option.mem_toList.1 ha)
      obtain ⟨-, hbcode, hbdata, -⟩ := bindingsFrom_bound _ _ hlater b hb
      constructor
      · intro hak hbk
        have h₁ := hacode hak
        have h₂ := hbcode hbk
        omega
      · intro hak hbk
        have h₁ := hadata hak
        have h₂ := hbdata hbk
        omega

theorem mem_entries_iff {ss : List Statement} {n : Text} :
    n ∈ entries ss ↔ ∃ label, Statement.directive label (.entry n) ∈ ss := by
  rw [entries, List.mem_filterMap]
  constructor
  · rintro ⟨s, hs, hn⟩
    unfold Statement.entryName? at hn
    split at hn
    · cases hn
      exact ⟨_, hs⟩
    · cases hn
  · rintro ⟨label, hs⟩
    exact ⟨_, hs, rfl⟩

end Outline

open Outline

/-- The table is that of a program with the statements `ss`. -/
structure SymbolTable.Exact (t : SymbolTable) (ss : List Statement) : Prop where
  /-- There is a symbol for each name that is placed, and no other. -/
  placed : ∀ n k a, (∃ s ∈ t.symbols, s.name = n ∧ s.kind = k ∧ s.address.toNat = a) ↔
    Placed ss n k a
  names : (t.symbols.map Symbol.name).Nodup
  entry : ∀ s ∈ t.symbols, s.entry = true ↔ ∃ label, Statement.directive label (.entry s.name) ∈ ss
  code : ∀ s ∈ t.symbols, s.kind = .code →
    codeBase ≤ s.address.toNat ∧ s.address.toNat < codeBase + codeSize ss
  data : ∀ s ∈ t.symbols, s.kind.isData = true →
    codeBase + codeSize ss ≤ s.address.toNat ∧
      s.address.toNat < codeBase + codeSize ss + dataSize ss ∧ s.address.toNat ≤ 255
  apart : ∀ s ∈ t.symbols, ∀ s' ∈ t.symbols, s ≠ s' → s.kind ≠ .external → s'.kind ≠ .external →
    s.address ≠ s'.address

namespace Program

/-! ### The symbols that result -/

theorem Assembles.consistent {x : Expansion} {p : Program} (h : Assembles x p) :
    Consistent (statements x.macros x.lines) := by
  refine ((Layout.notes_problems_iff x.macros x.lines [] List.Pairwise.nil).1
    fun d hd => h.notes d ?_).2
  rw [h.report]
  exact List.mem_append_right _ (List.mem_append_left _ hd)

/-- **The symbols are the bindings of the outline**, moved and marked. -/
theorem Assembles.mem_symbols_iff {x : Expansion} {p : Program} (h : Assembles x p) {c : Binding} :
    (∃ s ∈ p.symbols.symbols, s.binding = c) ↔
      ∃ b ∈ bindings (statements x.macros x.lines),
        (b.moved (codeBase + codeSize (statements x.macros x.lines))).markedBy
          (entries (statements x.macros x.lines)) = c := by
  have hfind : ∀ n b, Binding.find n (bindings (statements x.macros x.lines)) = some b ↔
      b ∈ bindings (statements x.macros x.lines) ∧ b.name = n :=
    fun n b => find_bindings_iff (sound_of_mem_statements x.macros x.lines) h.consistent
  constructor
  · rintro ⟨s, hs, rfl⟩
    have hb := SymbolTable.binding?_eq_some_iff.2 ⟨s, hs, rfl, rfl⟩
    rw [h.symbols, Option.map_map, Option.map_eq_some_iff] at hb
    obtain ⟨b, hb, hc⟩ := hb
    exact ⟨b, ((hfind _ b).1 hb).1, hc⟩
  · rintro ⟨b, hb, rfl⟩
    have hsymbol := h.symbols b.name
    rw [(hfind b.name b).2 ⟨hb, rfl⟩, Option.map_some, Option.map_some] at hsymbol
    obtain ⟨s, hs, -, hc⟩ := SymbolTable.binding?_eq_some_iff.1 hsymbol
    exact ⟨s, hs, hc⟩

/-- The binding behind a symbol. -/
theorem Assembles.binding_of_symbol {x : Expansion} {p : Program} (h : Assembles x p) {s : Symbol}
    (hs : s ∈ p.symbols.symbols) :
    ∃ b ∈ bindings (statements x.macros x.lines), s.name = b.name ∧ s.kind = b.kind ∧
      s.address.toNat = (b.moved (codeBase + codeSize (statements x.macros x.lines))).address ∧
      (s.entry = true ↔ b.name ∈ entries (statements x.macros x.lines) ∧ b.kind ≠ .external) := by
  obtain ⟨b, hb, hc⟩ := h.mem_symbols_iff.1 ⟨s, hs, rfl⟩
  have hplain := (bindingsFrom_bound codeBase 0 (sound_of_mem_statements x.macros x.lines) b hb).1
  refine ⟨b, hb, ?_, ?_, ?_, ?_⟩
  · simpa [Symbol.binding] using (congrArg Binding.name hc).symm
  · simpa [Symbol.binding] using (congrArg Binding.kind hc).symm
  · simpa [Symbol.binding] using (congrArg Binding.address hc).symm
  · have hentry : s.entry = s.binding.entry := rfl
    rw [hentry, ← hc, Binding.markedBy_entry_iff, Binding.moved_entry, hplain, Binding.moved_name,
      Binding.moved_kind]
    simp

/-- An entry is never external. -/
theorem Assembles.kind_of_entry {x : Expansion} {p : Program} (h : Assembles x p) {s : Symbol}
    (hs : s ∈ p.symbols.symbols) {label : Option Text}
    (hentry : .directive label (.entry s.name) ∈ statements x.macros x.lines) :
    s.kind ≠ .external := by
  intro hk
  have hget : p.symbols.get? s.name = some s := SymbolTable.get?_eq_some_iff.2 ⟨hs, rfl⟩
  have hnil := h.encodingFaults_eq_nil _ hentry
  simp [Statement.encodingFaults, Statement.entryFaults, SymbolTable.place?, hget, hk] at hnil

/-! ### The areas -/

theorem Assembles.code_bound {x : Expansion} {p : Program} (h : Assembles x p) {s : Symbol}
    (hs : s ∈ p.symbols.symbols) (hk : s.kind = .code) : codeBase ≤ s.address.toNat ∧
      s.address.toNat < codeBase + codeSize (statements x.macros x.lines) := by
  obtain ⟨b, hb, -, hkind, haddress, -⟩ := h.binding_of_symbol hs
  have hcode := hkind.symm.trans hk
  have hfixed : b.moved (codeBase + codeSize (statements x.macros x.lines)) = b := by
    simp [Binding.moved, hcode, SymbolKind.isData]
  rw [haddress, hfixed]
  exact (bindingsFrom_bound codeBase 0 (sound_of_mem_statements x.macros x.lines) b hb).2.1 hcode

theorem Assembles.data_bound {x : Expansion} {p : Program} (h : Assembles x p) {s : Symbol}
    (hs : s ∈ p.symbols.symbols) (hk : s.kind.isData = true) :
    codeBase + codeSize (statements x.macros x.lines) ≤ s.address.toNat ∧
      s.address.toNat < codeBase + codeSize (statements x.macros x.lines) +
        dataSize (statements x.macros x.lines) := by
  obtain ⟨b, hb, -, hkind, haddress, -⟩ := h.binding_of_symbol hs
  have hdata : b.kind.isData = true := by
    rw [← hkind]
    exact hk
  have hmoved : (b.moved (codeBase + codeSize (statements x.macros x.lines))).address =
      b.address + (codeBase + codeSize (statements x.macros x.lines)) := by
    simp [Binding.moved, hdata]
  have hlt := bindings_data_lt (sound_of_mem_statements x.macros x.lines) hb hdata
  rw [haddress, hmoved]
  omega

/-- Symbols of one program lie apart. Two in the same area are bound by different
statements; of two in different areas, the code ends before the data. -/
theorem Assembles.address_ne {x : Expansion} {p : Program} (h : Assembles x p) {s s' : Symbol}
    (hs : s ∈ p.symbols.symbols) (hs' : s' ∈ p.symbols.symbols) (hne : s ≠ s')
    (hk : s.kind ≠ .external) (hk' : s'.kind ≠ .external) : s.address ≠ s'.address := by
  obtain ⟨b, hb, hname, hkind, haddress, -⟩ := h.binding_of_symbol hs
  obtain ⟨b', hb', hname', hkind', haddress', -⟩ := h.binding_of_symbol hs'
  have hbb : b ≠ b' := by
    rintro rfl
    exact hne (SymbolTable.eq_of_name_eq hs hs' (hname.trans hname'.symm))
  obtain ⟨hcode, hdata⟩ :=
    (bindingsFrom_apart codeBase 0 (sound_of_mem_statements x.macros x.lines)).forall hb hb' hbb
  intro he
  have hnat : s.address.toNat = s'.address.toNat := congrArg Address.toNat he
  rcases SymbolKind.code_or_isData hk with hc | hd <;>
    rcases SymbolKind.code_or_isData hk' with hc' | hd'
  · rw [haddress, haddress'] at hnat
    rw [hkind] at hc
    rw [hkind'] at hc'
    refine hcode hc hc' ?_
    simpa [Binding.moved, hc, hc', SymbolKind.isData] using hnat
  · have h₁ := h.code_bound hs hc
    have h₂ := h.data_bound hs' hd'
    omega
  · have h₁ := h.data_bound hs hd
    have h₂ := h.code_bound hs' hc'
    omega
  · rw [haddress, haddress'] at hnat
    rw [hkind] at hd
    rw [hkind'] at hd'
    refine hdata hd hd' ?_
    simpa [Binding.moved, hd, hd'] using hnat

/-- **The symbol table is exact.** The areas have the sizes of the outline, and
the symbols are those that the statements place. -/
theorem symbols_exact {x : Expansion} {p : Program} (h : ofExpansion x = .ok p) :
    p.image.code.length = codeSize (statements x.macros x.lines) ∧
      p.image.data.length = dataSize (statements x.macros x.lines) ∧
      p.symbols.Exact (statements x.macros x.lines) := by
  have ha := assembles_of_ok h
  refine ⟨ha.length_code, ha.length_data, ?_⟩
  constructor
  case placed =>
    intro n k a
    rw [placed_iff]
    constructor
    · rintro ⟨s, hs, rfl, rfl, rfl⟩
      obtain ⟨b, hb, hname, hkind, haddress, -⟩ := ha.binding_of_symbol hs
      exact ⟨b, hb, hname.symm, hkind.symm, haddress.symm⟩
    · rintro ⟨b, hb, rfl, rfl, rfl⟩
      obtain ⟨s, hs, hc⟩ := ha.mem_symbols_iff.2 ⟨b, hb, rfl⟩
      refine ⟨s, hs, ?_, ?_, ?_⟩
      · simpa [Symbol.binding] using congrArg Binding.name hc
      · simpa [Symbol.binding] using congrArg Binding.kind hc
      · simpa [Symbol.binding] using congrArg Binding.address hc
  case names => exact p.symbols.nodup_names
  case entry =>
    intro s hs
    obtain ⟨b, -, hname, hkind, -, hentry⟩ := ha.binding_of_symbol hs
    rw [hentry, ← hname, ← hkind, mem_entries_iff]
    constructor
    · exact And.left
    · rintro ⟨label, hlabel⟩
      exact ⟨⟨label, hlabel⟩, ha.kind_of_entry hs hlabel⟩
  case code => exact fun s hs hk => ha.code_bound hs hk
  case data =>
    intro s hs hk
    obtain ⟨hlow, hhigh⟩ := ha.data_bound hs hk
    have hfits := ha.fits
    rw [Fits, show memorySize = 256 from rfl] at hfits
    exact ⟨hlow, hhigh, by omega⟩
  case apart => exact fun s hs s' hs' hne hk hk' => ha.address_ne hs hs' hne hk hk'

theorem symbols_exact_sample : ∃ p, ofExpansion sample = .ok p ∧
    p.image.code.length = codeSize (statements sample.macros sample.lines) ∧
    p.image.data.length = dataSize (statements sample.macros sample.lines) ∧
    p.symbols.Exact (statements sample.macros sample.lines) := by
  obtain ⟨p, hp⟩ := sample_ok
  exact ⟨p, hp, symbols_exact hp⟩

end Program
end TenBit
