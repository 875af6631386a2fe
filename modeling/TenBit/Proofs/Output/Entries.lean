/-
# The entries file lists the entries

A name may be declared as an entry any number of times, before or behind the
statement that carries it as a label; the entries file has one row for it. No
two statements start at the same cell, so the rows are in ascending order of
their addresses, and the address of a row is that of the cell in the object file
where the statement starts.

Key definitions: `SymbolTable.entryRow`, `EntriesFile.Locates`.
Key theorems: `SymbolTable.pairwise_sort`, `Program.Assembles.mem_entries_iff`,
`Program.Assembles.ascending_entries`, `Program.Assembles.locates`,
`Program.entries_exact`.
-/
import TenBit.Proofs.Program.Alike
import TenBit.Proofs.Program.Extents

namespace TenBit

namespace SymbolTable

/-! ### The order of the entries -/

theorem pairwise_place {b : Binding} : ∀ {bs : List Binding},
    bs.Pairwise (fun a c => a.address < c.address) → (∀ c ∈ bs, c.address ≠ b.address) →
      (Order.place bindingByAddress b bs).Pairwise fun a c => a.address < c.address
  | [], _, _ => List.pairwise_singleton _ _
  | c :: bs, hbs, hne => by
    obtain ⟨hc, hlater⟩ := List.pairwise_cons.1 hbs
    obtain ⟨hcb, hne⟩ := List.forall_mem_cons.1 hne
    have hbefore : bindingByAddress b c = true ↔ b.address < c.address := by
      simp [bindingByAddress, hcb.symm]
    simp only [Order.place]
    split
    · rename_i hbc
      refine List.pairwise_cons.2 ⟨fun d hd => ?_, hbs⟩
      rcases List.mem_cons.1 hd with rfl | hd
      · exact hbefore.1 hbc
      · exact Nat.lt_trans (hbefore.1 hbc) (hc d hd)
    · rename_i hbc
      have hle := Nat.le_of_not_lt (mt hbefore.2 hbc)
      refine List.pairwise_cons.2 ⟨fun d hd => ?_, pairwise_place hlater hne⟩
      rcases Order.mem_place.1 hd with rfl | hd
      · omega
      · exact hc d hd

/-- Bindings at different addresses are sorted by their addresses alone. -/
theorem pairwise_sort : ∀ {bs : List Binding}, bs.Pairwise (fun a c => a.address ≠ c.address) →
    (Order.sort bindingByAddress bs).Pairwise fun a c => a.address < c.address
  | [], _ => List.Pairwise.nil
  | b :: bs, h => by
    obtain ⟨hb, hbs⟩ := List.pairwise_cons.1 h
    refine pairwise_place (pairwise_sort hbs) fun c hc => ?_
    exact (hb c ((Order.sort_perm bindingByAddress bs).mem_iff.1 hc)).symm

/-! ### The rows of the file -/

variable {t : SymbolTable}

/-- The row of an entry. -/
def entryRow (s : Symbol) : Text × Text := (s.name, s.address.letters)

theorem nodup_entryNames (t : SymbolTable) : (t.entries.map Symbol.name).Nodup := by
  have hperm := (Order.sort_perm byAddress (t.symbols.filter Symbol.entry)).map Symbol.name
  have hsublist := (List.filter_sublist (p := Symbol.entry) (l := t.symbols)).map Symbol.name
  exact hperm.nodup_iff.2 (t.nodup_names.sublist hsublist)

theorem entriesText?_eq_none_iff : t.entriesText? = none ↔ t.entries = [] := by
  unfold entriesText?
  split
  · rename_i h
    exact iff_of_true rfl h
  · rename_i h
    exact iff_of_false nofun h

theorem read?_of_entriesText? {u : Text} (hu : t.entriesText? = some u)
    (h : ∀ s ∈ t.entries, Rows.Plain s.name) : Rows.read? u = some (t.entries.map entryRow) := by
  have hlines : u = (t.entries.map entryRow).flatMap Rows.line := by
    unfold entriesText? at hu
    split at hu
    · cases hu
    · rw [← Option.some.inj hu, List.flatMap_map]
      rfl
  rw [hlines]
  apply Rows.read?_flatMap_line
  intro row hrow
  obtain ⟨s, hs, rfl⟩ := List.mem_map.1 hrow
  exact ⟨h s hs, Image.plain_letters 4 _⟩

end SymbolTable

open Outline ObjectFile

/-- A row of the entries file of a program with the statements `ss` and the cells
`object` in its object file: its name is a label, and its address is that of the
first cell of the statement that carries the label. -/
structure EntriesFile.Locates (ss : List Statement) (places : Text → Option (SymbolKind × Address))
    (object : List (Text × Text)) (row : Text × Text) : Prop where
  carried : ∃ s ∈ ss, s.label? = some row.1
  first : ∀ before s after, ss = before ++ s :: after → s.label? = some row.1 →
    IsNumeral 4 (codeBase + offset ss before s) row.2 ∧
      ∃ w, (s.words places).head? = some w ∧
        object[offset ss before s]? = some (row.2, w.cell.letters)

namespace Program

variable {x : Expansion} {p : Program}

/-! ### Which names are listed -/

/-- No two entries lie at the same address. -/
theorem Assembles.entries_apart (h : Assembles x p) :
    ((p.symbols.symbols.map Symbol.binding).filter Binding.entry).Pairwise
      fun a c => a.address ≠ c.address := by
  have hown : ∀ {s}, s ∈ p.symbols.symbols → s.entry = true → s.kind ≠ .external := by
    intro s hs hentry
    obtain ⟨b, -, -, hkind, -, hiff⟩ := h.binding_of_symbol hs
    rw [hkind]
    exact (hiff.1 hentry).2
  have hnodup : p.symbols.symbols.Nodup := p.symbols.nodup_names.of_map Symbol.name
  rw [List.filter_map, List.pairwise_map]
  refine (hnodup.filter _).imp_of_mem fun {s s'} hs hs' hne he => ?_
  obtain ⟨hs, hentry⟩ := List.mem_filter.1 hs
  obtain ⟨hs', hentry'⟩ := List.mem_filter.1 hs'
  exact h.address_ne hs hs' hne (hown hs hentry) (hown hs' hentry') (Address.eq_of_toNat he)

/-- The entries are in strictly ascending order of their addresses. -/
theorem Assembles.ascending_entries (h : Assembles x p) :
    p.symbols.entries.Pairwise fun s s' => s.address.toNat < s'.address.toNat := by
  have hsorted := SymbolTable.pairwise_sort h.entries_apart
  rw [← SymbolTable.map_binding_entries, List.pairwise_map] at hsorted
  exact hsorted

/-- A name that is declared as an entry is the label of a statement. -/
theorem Assembles.symbol_of_entry (h : Assembles x p) {n : Text}
    (hn : n ∈ entries (statements x.macros x.lines)) :
    ∃ s ∈ p.symbols.symbols, s.name = n ∧ s.kind ≠ .external := by
  obtain ⟨label, hmem⟩ := mem_entries_iff.1 hn
  have hnil := h.encodingFaults_eq_nil _ hmem
  cases hget : p.symbols.get? n with
  | none => simp [Statement.encodingFaults, Statement.entryFaults, SymbolTable.place?, hget] at hnil
  | some s =>
    obtain ⟨hs, hname⟩ := SymbolTable.get?_eq_some_iff.1 hget
    subst hname
    exact ⟨s, hs, rfl, h.kind_of_entry hs hmem⟩

/-- **The listed names are those declared as entries.** -/
theorem Assembles.mem_entries_iff (h : Assembles x p) {n : Text} :
    n ∈ p.symbols.entries.map Symbol.name ↔ n ∈ entries (statements x.macros x.lines) := by
  rw [List.mem_map]
  constructor
  · rintro ⟨s, hs, rfl⟩
    obtain ⟨hs, hentry⟩ := SymbolTable.mem_entries.1 hs
    obtain ⟨b, -, hname, -, -, hiff⟩ := h.binding_of_symbol hs
    rw [hname]
    exact (hiff.1 hentry).1
  · intro hn
    obtain ⟨s, hs, hname, hkind⟩ := h.symbol_of_entry hn
    obtain ⟨b, -, hbname, hbkind, -, hiff⟩ := h.binding_of_symbol hs
    have hentry : s.entry = true := hiff.2 ⟨by rwa [← hbname, hname], by rwa [← hbkind]⟩
    exact ⟨s, SymbolTable.mem_entries.2 ⟨hs, hentry⟩, hname⟩

/-- A name that is declared as an entry can stand in a row. -/
theorem Assembles.plain_of_entry (h : Assembles x p) {s : Symbol} (hs : s ∈ p.symbols.entries) :
    Rows.Plain s.name := by
  have hdeclared := h.mem_entries_iff.1 (List.mem_map_of_mem hs)
  obtain ⟨label, hmem⟩ := Outline.mem_entries_iff.1 hdeclared
  obtain ⟨line, -, hread⟩ := mem_statements_iff.1 hmem
  exact Rows.plain_of_isAlphanum (Statement.isLabel_of_read hread rfl).isAlphanum

/-! ### Where they lie -/

theorem Assembles.carried_of_entry (h : Assembles x p) {sym : Symbol}
    (hsym : sym ∈ p.symbols.entries) :
    ∃ s ∈ statements x.macros x.lines, s.label? = some sym.name := by
  obtain ⟨hsym, hentry⟩ := SymbolTable.mem_entries.1 hsym
  obtain ⟨b, hb, hname, -, -, hiff⟩ := h.binding_of_symbol hsym
  have hkind := (hiff.1 hentry).2
  obtain ⟨before, s, after, hss, hbinding⟩ := mem_bindings_iff.1 hb
  refine ⟨s, by simp [hss], ?_⟩
  have hlabel := s.label?_of_binding (codeBase + codeSize before) (dataSize before)
  rw [hbinding] at hlabel
  have hone : s.label?.toList = [b.name] := by simpa [hkind] using hlabel
  rw [hname]
  exact Option.mem_toList.1 (hone ▸ List.mem_singleton_self _)

/-- **The row of an entry has the address where its statement starts.** -/
theorem Assembles.locates (h : Assembles x p) {sym : Symbol} (hsym : sym ∈ p.symbols.entries) :
    EntriesFile.Locates (statements x.macros x.lines) p.symbols.place?
      (p.image.cells.map Image.cellRow) (SymbolTable.entryRow sym) := by
  refine ⟨h.carried_of_entry hsym, fun before s after hss hlabel => ?_⟩
  obtain ⟨sym', hget, -, haddress⟩ := h.symbol_of_label hss hlabel
  have hsame : sym' = sym := by
    have hmem := (SymbolTable.mem_entries.1 hsym).1
    have hget' : p.symbols.get? sym.name = some sym :=
      SymbolTable.get?_eq_some_iff.2 ⟨hmem, rfl⟩
    exact Option.some.inj (hget.symm.trans hget')
  subst hsame
  obtain ⟨a, w, hcell, ha, hfirst⟩ :=
    h.first_cell hss (Statement.takesMemory_of_label? hlabel)
  have hsymbol : a = sym'.address := Address.eq_of_toNat (ha.trans haddress.symm)
  subst hsymbol
  refine ⟨⟨sym'.address.length_letters, haddress ▸ sym'.address.decode_letters⟩, w, hfirst, ?_⟩
  rw [List.getElem?_map, hcell]
  rfl

/-- **The entries file is exact.** There is none if no line declares an entry. If
there is one, it has one row for each name that is declared, however often; the
rows are in strictly ascending order of their addresses; and the address of a row
is that of the cell in the object file with the first word of the statement that
carries the name as its label. -/
theorem entries_exact (h : ofExpansion x = .ok p) :
    (p.symbols.entriesText? = none ↔ ∀ l ∈ x.lines, ∀ label n,
      Statement.read x.macros l.text ≠ .ok (.directive label (.entry n))) ∧
    ∀ t, p.symbols.entriesText? = some t → ∃ heading cells rows,
      p.image.objectText?.bind Rows.read? = some (heading :: cells) ∧
      Rows.read? t = some rows ∧
      (rows.map Prod.fst).Nodup ∧
      (∀ n, n ∈ rows.map Prod.fst ↔ ∃ l ∈ x.lines, ∃ label,
        Statement.read x.macros l.text = .ok (.directive label (.entry n))) ∧
      (rows.Pairwise fun r r' =>
        ∃ v v', IsNumeral 4 v r.2 ∧ IsNumeral 4 v' r'.2 ∧ v < v') ∧
      ∀ row ∈ rows, EntriesFile.Locates (statements x.macros x.lines) p.symbols.place? cells row := by
  have ha := assembles_of_ok h
  have hnames : ∀ n, n ∈ p.symbols.entries.map Symbol.name ↔ ∃ l ∈ x.lines, ∃ label,
      Statement.read x.macros l.text = .ok (.directive label (.entry n)) := by
    intro n
    rw [ha.mem_entries_iff, Outline.mem_entries_iff]
    simp only [mem_statements_iff]
    exact ⟨fun ⟨label, l, hl, hread⟩ => ⟨l, hl, label, hread⟩,
      fun ⟨l, hl, label, hread⟩ => ⟨label, l, hl, hread⟩⟩
  have hrows : (p.symbols.entries.map SymbolTable.entryRow).map Prod.fst =
      p.symbols.entries.map Symbol.name := by
    rw [List.map_map]
    rfl
  refine ⟨?_, fun t ht => ?_⟩
  · rw [SymbolTable.entriesText?_eq_none_iff]
    constructor
    · intro hnone l hl label n hread
      have hmem := (hnames n).2 ⟨l, hl, label, hread⟩
      rw [hnone] at hmem
      cases hmem
    · intro hnone
      by_contra hsome
      obtain ⟨s, hs⟩ := List.exists_mem_of_ne_nil _ hsome
      obtain ⟨l, hl, label, hread⟩ := (hnames s.name).1 (List.mem_map_of_mem hs)
      exact hnone l hl label s.name hread
  · have hobject : p.image.objectText?.bind Rows.read? =
        some (p.image.headingRow :: p.image.cells.map Image.cellRow) := by
      have hwritten : p.image.objectText? = some p.image.objectText :=
        if_pos (Image.sizesFit_of_fits ha.image_fits)
      rw [hwritten, Option.bind_some, Image.read?_objectText]
    refine ⟨_, _, p.symbols.entries.map SymbolTable.entryRow, hobject,
      SymbolTable.read?_of_entriesText? ht fun s hs => ha.plain_of_entry hs, ?_, ?_, ?_, ?_⟩
    · rw [hrows]
      exact p.symbols.nodup_entryNames
    · rw [hrows]
      exact hnames
    · rw [List.pairwise_map]
      refine ha.ascending_entries.imp fun {s s'} hlt => ?_
      exact ⟨_, _, ⟨s.address.length_letters, s.address.decode_letters⟩,
        ⟨s'.address.length_letters, s'.address.decode_letters⟩, hlt⟩
    · intro row hrow
      obtain ⟨s, hs, rfl⟩ := List.mem_map.1 hrow
      exact ha.locates hs

/-- Two entries, one of them declared twice; the label that comes first in the
lines has the greater address. -/
def exporting : Expansion where
  lines := [
    ⟨1, ".entry K".toList⟩,
    ⟨2, ".entry A".toList⟩,
    ⟨3, "K: .data 7".toList⟩,
    ⟨4, "A: stop".toList⟩,
    ⟨5, ".entry K".toList⟩]
  macros := .empty
  report := .new []

set_option maxRecDepth 10000 in
theorem exporting_entries : ∃ p, ofExpansion exporting = .ok p ∧
    p.symbols.entriesText? = some "A bcba\nK bcbb\n".toList := ⟨_, rfl, rfl⟩

theorem entries_exact_exporting : ∃ p, ofExpansion exporting = .ok p ∧
    ∃ heading cells, p.image.objectText?.bind Rows.read? = some (heading :: cells) ∧
      ∀ row ∈ [("A".toList, "bcba".toList), ("K".toList, "bcbb".toList)],
        EntriesFile.Locates (statements exporting.macros exporting.lines) p.symbols.place?
          cells row := by
  obtain ⟨p, hp, htext⟩ := exporting_entries
  obtain ⟨heading, cells, rows, hobject, hread, -, -, -, hlocates⟩ := (entries_exact hp).2 _ htext
  have hrows : rows = [("A".toList, "bcba".toList), ("K".toList, "bcbb".toList)] :=
    Option.some.inj (hread.symm.trans rfl)
  exact ⟨p, hp, heading, cells, hobject, hrows ▸ hlocates⟩

end Program
end TenBit
