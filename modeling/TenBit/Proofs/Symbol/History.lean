/-
# What a symbol table has been through

Whatever is done to a table, in whatever order, its symbols stay. A step adds one
symbol, sets one flag or moves symbols of the data area, and one that is refused
changes nothing, except that moving stops in the middle: the symbols are moved in
the order of their names, up to the first that would leave memory. So a symbol's
name, kind and line are those it was inserted with, only symbols of the data area
ever move, and no name of another program becomes an entry.

The laws of single steps hold of every table. That no external name is an entry is
an invariant: it holds of the empty table and each step keeps it.

Key definitions: `SymbolTable.Step`, `SymbolTable.perform`, `SymbolTable.run`,
`Symbol.Becomes`, `Symbol.Moved`, `SymbolTable.Laws`.
Key theorems: `SymbolTable.relocate_stops`, `SymbolTable.perform_cases`,
`SymbolTable.becomes_of_run`, `SymbolTable.noExternalEntry_run`,
`SymbolTable.ascending_entries`, `SymbolTable.laws_of_run`.
-/
import TenBit.Proofs.Symbol.Lookup

namespace TenBit

/-- The second symbol is what the first may have become. -/
structure Symbol.Becomes (s s' : Symbol) : Prop where
  name : s'.name = s.name
  kind : s'.kind = s.kind
  line : s'.line = s.line
  address : s.kind.isData = false → s'.address = s.address
  entry : s.entry = true → s'.entry = true

/-- The second symbol is the first, moved `offset` cells on if it is one that moves. -/
structure Symbol.Moved (offset : Nat) (moves : Symbol → Bool) (s s' : Symbol) : Prop where
  name : s'.name = s.name
  kind : s'.kind = s.kind
  line : s'.line = s.line
  entry : s'.entry = s.entry
  address : s'.address.toNat = s.address.toNat + if moves s then offset else 0

/-- The symbol lies in the data area and would leave memory. -/
def Symbol.Overflows (offset : Nat) (s : Symbol) : Prop :=
  s.kind.isData = true ∧ 255 < s.address.toNat + offset

namespace Symbol

instance (offset : Nat) (s : Symbol) : Decidable (s.Overflows offset) :=
  inferInstanceAs (Decidable (_ ∧ _))

theorem Becomes.refl (s : Symbol) : s.Becomes s := ⟨rfl, rfl, rfl, fun _ => rfl, id⟩

theorem Becomes.trans {s s' s'' : Symbol} (h : s.Becomes s') (h' : s'.Becomes s'') :
    s.Becomes s'' where
  name := h'.name.trans h.name
  kind := h'.kind.trans h.kind
  line := h'.line.trans h.line
  address hk := (h'.address (h.kind ▸ hk)).trans (h.address hk)
  entry he := h'.entry (h.entry he)

theorem Moved.congr {offset : Nat} {moves moves' : Symbol → Bool} {s s' : Symbol}
    (h : s.Moved offset moves s') (he : moves' s = moves s) : s.Moved offset moves' s' :=
  ⟨h.name, h.kind, h.line, h.entry, he ▸ h.address⟩

theorem Moved.stay {offset : Nat} {moves : Symbol → Bool} {s : Symbol} (h : moves s = false) :
    s.Moved offset moves s := by
  refine ⟨rfl, rfl, rfl, rfl, ?_⟩
  simp [h]

/-- Only symbols of the data area move. -/
theorem Moved.becomes {offset : Nat} {moves : Symbol → Bool} {s s' : Symbol}
    (h : s.Moved offset moves s') (hmoves : moves s = true → s.kind.isData = true) :
    s.Becomes s' := by
  refine ⟨h.name, h.kind, h.line, fun hk => ?_, fun he => h.entry.trans he⟩
  have hstays : moves s = false := by
    cases hm : moves s with
    | false => rfl
    | true =>
      rw [hmoves hm] at hk
      cases hk
  have haddress := h.address
  rw [hstays] at haddress
  exact Address.eq_of_toNat haddress

end Symbol

namespace SymbolTable

variable {t : SymbolTable}

/-! ### Steps -/

/-- What can be asked of a table. -/
inductive Step
  | insert (name : Text) (kind : SymbolKind) (address : Address) (line : Nat)
  | markEntry (name : Text)
  | relocate (offset : Nat)
  | lookup (name : Text)

/-- What a step is answered with. -/
inductive Answer
  | done
  | refused (e : SymbolError)
  | found (s : Option Symbol)
deriving DecidableEq

/-- One step: the table after it, and its answer. -/
def perform (t : SymbolTable) : Step → SymbolTable × Answer
  | .insert name kind address line =>
    match t.insert { name, kind, address, line } with
    | .ok t' => (t', .done)
    | .error e => (t, .refused e)
  | .markEntry name =>
    match t.markEntry name with
    | .ok t' => (t', .done)
    | .error e => (t, .refused e)
  | .relocate offset =>
    let r := t.relocate offset
    (r.1, r.2.elim .done .refused)
  | .lookup name => (t, .found (t.get? name))

/-- The table after some steps. -/
def run (t : SymbolTable) : List Step → SymbolTable
  | [] => t
  | s :: ss => run (t.perform s).1 ss

/-! ### Inserting and marking -/

theorem perform_insert_known {name : Text} (h : ∃ s ∈ t.symbols, s.name = name)
    (kind : SymbolKind) (address : Address) (line : Nat) :
    t.perform (.insert name kind address line) = (t, .refused (.duplicate name)) := by
  obtain ⟨s, hs, hname⟩ := h
  have hget : t.get? name ≠ none := by
    rw [get?_eq_some_iff.2 ⟨hs, hname⟩]
    exact nofun
  simp only [perform, insert, dif_neg hget]

theorem perform_insert_new {name : Text} (h : ∀ s ∈ t.symbols, s.name ≠ name)
    (kind : SymbolKind) (address : Address) (line : Nat) :
    (t.perform (.insert name kind address line)).2 = .done ∧
    ∀ s, s ∈ (t.perform (.insert name kind address line)).1.symbols ↔
      s = { name, kind, address, line } ∨ s ∈ t.symbols := by
  have hget : t.get? name = none := by simpa [get?, List.find?_eq_none] using h
  simp only [perform, insert, dif_pos hget, true_and]
  exact fun s => Order.mem_place

theorem perform_mark_unknown {name : Text} (h : ∀ s ∈ t.symbols, s.name ≠ name) :
    t.perform (.markEntry name) = (t, .refused (.notFound name)) := by
  have hget : t.get? name = none := by simpa [get?, List.find?_eq_none] using h
  simp only [perform, markEntry, hget]

theorem perform_mark_external {s : Symbol} (hs : s ∈ t.symbols) (hk : s.kind = .external) :
    t.perform (.markEntry s.name) = (t, .refused (.isExternal s.name)) := by
  have hget : t.get? s.name = some s := get?_eq_some_iff.2 ⟨hs, rfl⟩
  simp only [perform, markEntry, hget, if_pos hk]

/-- Marking changes one symbol. -/
theorem perform_mark_own {s : Symbol} (hs : s ∈ t.symbols) (hk : s.kind ≠ .external) :
    (t.perform (.markEntry s.name)).2 = .done ∧
    ∀ s', s' ∈ (t.perform (.markEntry s.name)).1.symbols ↔
      s' = { s with entry := true } ∨ s' ∈ t.symbols ∧ s' ≠ s := by
  have hget : t.get? s.name = some s := get?_eq_some_iff.2 ⟨hs, rfl⟩
  simp only [perform, markEntry, hget, if_neg hk, true_and, List.mem_map]
  intro s'
  constructor
  · rintro ⟨x, hx, rfl⟩
    by_cases hname : x.name = s.name
    · rw [eq_of_name_eq hx hs hname]
      exact .inl (if_pos rfl)
    · rw [marked, if_neg hname]
      exact .inr ⟨hx, fun he => hname (he ▸ rfl)⟩
  · rintro (rfl | ⟨hs', hne⟩)
    · exact ⟨s, hs, if_pos rfl⟩
    · exact ⟨s', hs', if_neg fun hname => hne (eq_of_name_eq hs' hs hname)⟩

/-! ### Moving the data area -/

theorem advance?_of_overflows {offset : Nat} {s : Symbol} (h : s.Overflows offset) :
    s.address.advance? offset = none := by
  refine dif_neg ?_
  have hlt := h.2
  unfold memorySize
  omega

theorem advance?_of_fits {offset : Nat} {s : Symbol} (h : ¬ s.Overflows offset)
    (hk : s.kind.isData = true) :
    ∃ a, s.address.advance? offset = some a ∧ a.toNat = s.address.toNat + offset := by
  have hlt : s.address.toNat + offset < memorySize := by
    have hle : ¬ 255 < s.address.toNat + offset := fun hlt => h ⟨hk, hlt⟩
    unfold memorySize
    omega
  exact ⟨_, dif_pos hlt, rfl⟩

/-- Symbols that stay in memory are moved, and then come those behind them. -/
theorem moveData_append {offset : Nat} (rest : List Symbol) : ∀ {ss : List Symbol},
    (∀ s ∈ ss, ¬ s.Overflows offset) →
    ∃ ss', moveData offset (ss ++ rest) =
        (ss' ++ (moveData offset rest).1, (moveData offset rest).2) ∧
      List.Forall₂ (Symbol.Moved offset fun s => s.kind.isData) ss ss'
  | [], _ => ⟨[], rfl, .nil⟩
  | s :: ss, h => by
    obtain ⟨hs, hss⟩ := List.forall_mem_cons.1 h
    obtain ⟨ss', hmove, hmoved⟩ := moveData_append rest hss
    rw [List.cons_append, moveData, hmove]
    cases hk : s.kind.isData with
    | false => exact ⟨s :: ss', rfl, .cons (.stay hk) hmoved⟩
    | true =>
      obtain ⟨a, ha, haddress⟩ := advance?_of_fits hs hk
      refine ⟨{ s with address := a } :: ss', by simp [ha], .cons ⟨rfl, rfl, rfl, rfl, ?_⟩ hmoved⟩
      simp [hk, haddress]

theorem relocate_done {offset : Nat} (h : ∀ s ∈ t.symbols, ¬ s.Overflows offset) :
    (t.perform (.relocate offset)).2 = .done ∧
      List.Forall₂ (Symbol.Moved offset fun s => s.kind.isData) t.symbols
        (t.perform (.relocate offset)).1.symbols := by
  obtain ⟨ss', hmove, hmoved⟩ := moveData_append [] h
  simp only [List.append_nil, moveData] at hmove
  simp only [perform, relocate, hmove]
  exact ⟨rfl, hmoved⟩

/-- **Moving stops at the first symbol that would leave memory**, in the order of the
names; those before it have moved. -/
theorem relocate_stops {offset : Nat} (h : ∃ s ∈ t.symbols, s.Overflows offset) :
    ∃ s ∈ t.symbols, s.Overflows offset ∧
      (∀ s' ∈ t.symbols, s'.Overflows offset → s' = s ∨ Text.before s.name s'.name = true) ∧
      (t.perform (.relocate offset)).2 = .refused (.outsideMemory s.name) ∧
      List.Forall₂
        (Symbol.Moved offset fun s' => s'.kind.isData && Text.before s'.name s.name)
        t.symbols (t.perform (.relocate offset)).1.symbols := by
  obtain ⟨s, hfind⟩ := Option.isSome_iff_exists.1
    (List.find?_isSome.2 (h.imp fun s hs => ⟨hs.1, decide_eq_true hs.2⟩))
  obtain ⟨hs, front, rest, hsplit, hfront⟩ := List.find?_eq_some_iff_append.1 hfind
  replace hs : s.Overflows offset := of_decide_eq_true hs
  replace hfront : ∀ s' ∈ front, ¬ s'.Overflows offset := by simpa using hfront
  -- the names tell on which side of `s` a symbol stands
  have hascending := t.ascending
  rw [hsplit, Order.Ascending, List.pairwise_map, List.pairwise_append] at hascending
  obtain ⟨-, hbehind, hacross⟩ := hascending
  have hbefore : ∀ s' ∈ front, Text.before s'.name s.name = true :=
    fun s' hs' => hacross s' hs' s List.mem_cons_self
  have hafter : ∀ s' ∈ rest, Text.before s.name s'.name = true := (List.pairwise_cons.1 hbehind).1
  have hstay : ∀ s' ∈ s :: rest, Text.before s'.name s.name = false := by
    intro s' hs'
    rcases List.mem_cons.1 hs' with rfl | hs'
    · exact Text.strict_before.irrefl _
    · cases hback : Text.before s'.name s.name with
      | false => rfl
      | true =>
        have hself := Text.strict_before.trans (hafter s' hs') hback
        rw [Text.strict_before.irrefl] at hself
        cases hself
  obtain ⟨front', hmove, hmoved⟩ := moveData_append (s :: rest) hfront
  have hstop : moveData offset (s :: rest) = (s :: rest, some (.outsideMemory s.name)) := by
    simp only [moveData, hs.1, if_true, advance?_of_overflows hs]
  rw [hstop] at hmove
  simp only [perform, relocate, hsplit, hmove]
  refine ⟨s, by simp, hs, fun s' hs' hover => ?_, rfl, ?_⟩
  · rcases List.mem_append.1 hs' with hs' | hs'
    · exact absurd hover (hfront s' hs')
    · rcases List.mem_cons.1 hs' with rfl | hs'
      · exact .inl rfl
      · exact .inr (hafter s' hs')
  · refine List.rel_append ?_ (List.forall₂_same.2 fun s' hs' => .stay ?_)
    · have hboth := (List.forall₂_and_left front front').2 ⟨hbefore, hmoved⟩
      refine hboth.imp fun s' s'' h => h.2.congr ?_
      rw [h.1, Bool.and_true]
    · rw [hstay s' hs', Bool.and_false]

/-! ### Runs -/

/-- **What a step can do to a table**: nothing, or add a symbol that is no entry, or set
the flag of a symbol of this program, or move symbols of the data area. -/
theorem perform_cases (t : SymbolTable) (step : Step) :
    (t.perform step).1 = t ∨
    (∃ s, s.entry = false ∧ ∀ x, x ∈ (t.perform step).1.symbols ↔ x = s ∨ x ∈ t.symbols) ∨
    (∃ s ∈ t.symbols, s.kind ≠ .external ∧ ∀ x, x ∈ (t.perform step).1.symbols ↔
      x = { s with entry := true } ∨ x ∈ t.symbols ∧ x ≠ s) ∨
    ∃ offset moves, (∀ s, moves s = true → s.kind.isData = true) ∧
      List.Forall₂ (Symbol.Moved offset moves) t.symbols (t.perform step).1.symbols := by
  cases step with
  | insert name kind address line =>
    by_cases hknown : ∃ s ∈ t.symbols, s.name = name
    · exact .inl (congrArg Prod.fst (perform_insert_known hknown kind address line))
    · have hnew : ∀ s ∈ t.symbols, s.name ≠ name := fun s hs he => hknown ⟨s, hs, he⟩
      exact .inr (.inl ⟨_, rfl, (perform_insert_new hnew kind address line).2⟩)
  | markEntry name =>
    by_cases hknown : ∃ s ∈ t.symbols, s.name = name
    · obtain ⟨s, hs, rfl⟩ := hknown
      by_cases hk : s.kind = .external
      · exact .inl (congrArg Prod.fst (perform_mark_external hs hk))
      · exact .inr (.inr (.inl ⟨s, hs, hk, (perform_mark_own hs hk).2⟩))
    · have hunknown : ∀ s ∈ t.symbols, s.name ≠ name := fun s hs he => hknown ⟨s, hs, he⟩
      exact .inl (congrArg Prod.fst (perform_mark_unknown hunknown))
  | relocate offset =>
    refine .inr (.inr (.inr ⟨offset, ?_⟩))
    by_cases hover : ∃ s ∈ t.symbols, s.Overflows offset
    · obtain ⟨s, -, -, -, -, hmoved⟩ := relocate_stops hover
      exact ⟨_, fun s' hs' => (Bool.and_eq_true_iff.1 hs').1, hmoved⟩
    · have hfits : ∀ s ∈ t.symbols, ¬ s.Overflows offset := fun s hs he => hover ⟨s, hs, he⟩
      exact ⟨_, fun s' hs' => hs', (relocate_done hfits).2⟩
  | lookup name => exact .inl rfl

theorem exists_of_forall₂ {α β : Type} {R : α → β → Prop} {as : List α} {bs : List β}
    (h : List.Forall₂ R as bs) {a : α} (ha : a ∈ as) : ∃ b ∈ bs, R a b := by
  induction h with
  | nil => cases ha
  | cons hab _ ih =>
    rcases List.mem_cons.1 ha with rfl | ha
    · exact ⟨_, List.mem_cons_self, hab⟩
    · obtain ⟨b, hb, hab⟩ := ih ha
      exact ⟨b, List.mem_cons_of_mem _ hb, hab⟩

/-- One step takes no symbol away. -/
theorem becomes_of_perform (step : Step) {s : Symbol} (hs : s ∈ t.symbols) :
    ∃ s' ∈ (t.perform step).1.symbols, s.Becomes s' := by
  rcases t.perform_cases step with
    hsame | ⟨x, -, hmem⟩ | ⟨x, hx, -, hmem⟩ | ⟨offset, moves, hmoves, hmoved⟩
  · rw [hsame]
    exact ⟨s, hs, .refl s⟩
  · exact ⟨s, (hmem s).2 (.inr hs), .refl s⟩
  · by_cases he : s = x
    · subst he
      exact ⟨_, (hmem _).2 (.inl rfl), rfl, rfl, rfl, fun _ => rfl, fun _ => rfl⟩
    · exact ⟨s, (hmem s).2 (.inr ⟨hs, he⟩), .refl s⟩
  · obtain ⟨s', hs', hmove⟩ := exists_of_forall₂ hmoved hs
    exact ⟨s', hs', hmove.becomes (hmoves s)⟩

/-- **No run takes a symbol away.** -/
theorem becomes_of_run : ∀ (steps : List Step) {t : SymbolTable} {s : Symbol}, s ∈ t.symbols →
    ∃ s' ∈ (t.run steps).symbols, s.Becomes s'
  | [], _, s, hs => ⟨s, hs, .refl s⟩
  | step :: steps, t, s, hs => by
    obtain ⟨s', hs', hstep⟩ := becomes_of_perform step hs
    obtain ⟨s'', hs'', hrun⟩ := becomes_of_run steps hs'
    exact ⟨s'', hs'', hstep.trans hrun⟩

/-- No name of another program is an entry. -/
def NoExternalEntry (t : SymbolTable) : Prop :=
  ∀ s ∈ t.symbols, s.kind = .external → s.entry = false

theorem noExternalEntry_perform (step : Step) (h : t.NoExternalEntry) :
    (t.perform step).1.NoExternalEntry := by
  intro s hs hk
  rcases t.perform_cases step with
    hsame | ⟨x, hx, hmem⟩ | ⟨x, -, hx, hmem⟩ | ⟨offset, moves, -, hmoved⟩
  · rw [hsame] at hs
    exact h s hs hk
  · rcases (hmem s).1 hs with rfl | hs
    · exact hx
    · exact h s hs hk
  · rcases (hmem s).1 hs with rfl | ⟨hs, -⟩
    · exact absurd hk hx
    · exact h s hs hk
  · obtain ⟨s', hs', hmove⟩ := exists_of_forall₂ hmoved.flip hs
    exact hmove.entry.trans (h s' hs' (hmove.kind ▸ hk))

/-- **No run makes a name of another program an entry.** -/
theorem noExternalEntry_run : ∀ (steps : List Step) {t : SymbolTable}, t.NoExternalEntry →
    (t.run steps).NoExternalEntry
  | [], _, h => h
  | step :: steps, _, h => noExternalEntry_run steps (noExternalEntry_perform step h)

/-! ### The order of the entries -/

/-- The place of a symbol: its address, and its name among those there. -/
def placeOf (s : Symbol) : Nat × Text := (s.address.toNat, s.name)

/-- The order of places. -/
def placeBefore (a b : Nat × Text) : Bool :=
  a.1 < b.1 || (a.1 == b.1 && Text.before a.2 b.2)

theorem placeBefore_iff {a b : Nat × Text} :
    placeBefore a b = true ↔ a.1 < b.1 ∨ a.1 = b.1 ∧ Text.before a.2 b.2 = true := by
  simp [placeBefore]

theorem strict_placeBefore : Order.Strict placeBefore where
  irrefl a := by simp [placeBefore, Text.strict_before.irrefl]
  trans {a b c} hab hbc := by
    rw [placeBefore_iff] at hab hbc ⊢
    rcases hab with hab | ⟨hab, hname⟩
    · exact .inl (by omega)
    · rcases hbc with hbc | ⟨hbc, hname'⟩
      · exact .inl (by omega)
      · exact .inr ⟨hab.trans hbc, Text.strict_before.trans hname hname'⟩
  total {a b} hne h := by
    rw [← Bool.not_eq_true, placeBefore_iff] at h
    rw [placeBefore_iff]
    by_cases haddress : a.1 = b.1
    · have hname : a.2 ≠ b.2 := fun he => hne (Prod.ext haddress he)
      refine .inr ⟨haddress.symm, Text.strict_before.total hname ?_⟩
      exact Bool.eq_false_iff.2 fun hbefore => h (.inr ⟨haddress, hbefore⟩)
    · exact .inl (by omega)

/-- **The entries are in strictly ascending order** of their addresses and names. -/
theorem ascending_entries (t : SymbolTable) : t.entries.Pairwise fun a b =>
    a.address.toNat < b.address.toNat ∨
      a.address = b.address ∧ Text.before a.name b.name = true := by
  have hnodup : ((t.symbols.filter Symbol.entry).map placeOf).Nodup := by
    refine List.Nodup.of_map Prod.snd ?_
    rw [List.map_map]
    exact t.nodup_names.sublist (List.filter_sublist.map Symbol.name)
  have hsorted := Order.ascending_sort strict_placeBefore hnodup
  rw [← Order.map_sort placeOf byAddress placeBefore fun _ _ => rfl, Order.Ascending,
    List.pairwise_map] at hsorted
  refine hsorted.imp fun {a b} h => ?_
  exact (placeBefore_iff.1 h).imp_right fun h => ⟨Address.eq_of_toNat h.1, h.2⟩

/-! ### The laws -/

/-- The laws of a table, of the steps that may come next and of the runs that may
follow. -/
structure Laws (t : SymbolTable) : Prop where
  /-- A name that is there is not inserted again. -/
  insert_known : ∀ name kind address line, (∃ s ∈ t.symbols, s.name = name) →
    t.perform (.insert name kind address line) = (t, .refused (.duplicate name))
  /-- Any other name is inserted, as no entry. -/
  insert_new : ∀ name kind address line, (∀ s ∈ t.symbols, s.name ≠ name) →
    (t.perform (.insert name kind address line)).2 = .done ∧
    ∀ s, s ∈ (t.perform (.insert name kind address line)).1.symbols ↔
      s = { name, kind, address, line, entry := false } ∨ s ∈ t.symbols
  /-- A name that is not there is not marked. -/
  mark_unknown : ∀ name, (∀ s ∈ t.symbols, s.name ≠ name) →
    t.perform (.markEntry name) = (t, .refused (.notFound name))
  /-- Nor is a name of another program. -/
  mark_external : ∀ s ∈ t.symbols, s.kind = .external →
    t.perform (.markEntry s.name) = (t, .refused (.isExternal s.name))
  /-- Any other symbol is marked, and it alone. -/
  mark_own : ∀ s ∈ t.symbols, s.kind ≠ .external →
    (t.perform (.markEntry s.name)).2 = .done ∧
    ∀ s', s' ∈ (t.perform (.markEntry s.name)).1.symbols ↔
      s' = { s with entry := true } ∨ s' ∈ t.symbols ∧ s' ≠ s
  /-- Looking a name up finds its symbol and changes nothing. -/
  lookup : ∀ name, (t.perform (.lookup name)).1 = t ∧
    ∀ s, (t.perform (.lookup name)).2 = .found (some s) ↔ s ∈ t.symbols ∧ s.name = name
  /-- If the data area fits behind `offset` cells then all of it is moved. -/
  relocate_done : ∀ offset, (∀ s ∈ t.symbols, ¬ s.Overflows offset) →
    (t.perform (.relocate offset)).2 = .done ∧
      List.Forall₂ (Symbol.Moved offset fun s => s.kind.isData) t.symbols
        (t.perform (.relocate offset)).1.symbols
  /-- Otherwise the first symbol that does not fit is named, and those before it are
  moved. -/
  relocate_stops : ∀ offset, (∃ s ∈ t.symbols, s.Overflows offset) →
    ∃ s ∈ t.symbols, s.Overflows offset ∧
      (∀ s' ∈ t.symbols, s'.Overflows offset → s' = s ∨ Text.before s.name s'.name = true) ∧
      (t.perform (.relocate offset)).2 = .refused (.outsideMemory s.name) ∧
      List.Forall₂
        (Symbol.Moved offset fun s' => s'.kind.isData && Text.before s'.name s.name)
        t.symbols (t.perform (.relocate offset)).1.symbols
  /-- Symbols stay, with their names, kinds and lines, and those outside the data area
  with their addresses. -/
  lasting : ∀ steps, ∀ s ∈ t.symbols, ∃ s' ∈ (t.run steps).symbols, s.Becomes s'
  noExternalEntry : t.NoExternalEntry
  /-- The entries are the marked symbols, -/
  entries_marked : ∀ s, s ∈ t.entries ↔ s ∈ t.symbols ∧ s.entry = true
  /-- each listed once, -/
  entries_once : t.entries.Nodup
  /-- by their addresses and then their names. -/
  entries_ascending : t.entries.Pairwise fun a b => a.address.toNat < b.address.toNat ∨
    a.address = b.address ∧ Text.before a.name b.name = true

/-- **The laws hold after every run** that starts from the empty table. -/
theorem laws_of_run (steps : List Step) : (empty.run steps).Laws where
  insert_known _ kind address line h := perform_insert_known h kind address line
  insert_new _ kind address line h := perform_insert_new h kind address line
  mark_unknown _ h := perform_mark_unknown h
  mark_external _ hs hk := perform_mark_external hs hk
  mark_own _ hs hk := perform_mark_own hs hk
  lookup name := by
    refine ⟨rfl, fun s => ?_⟩
    rw [← get?_eq_some_iff, perform, Answer.found.injEq]
  relocate_done _ h := relocate_done h
  relocate_stops _ h := relocate_stops h
  lasting more _ hs := becomes_of_run more hs
  noExternalEntry := noExternalEntry_run steps fun _ hs => absurd hs List.not_mem_nil
  entries_marked _ := mem_entries
  entries_once := by
    refine (ascending_entries _).imp fun {a b} h he => ?_
    subst he
    rcases h with h | ⟨-, h⟩
    · omega
    · rw [Text.strict_before.irrefl] at h
      cases h
  entries_ascending := ascending_entries _

/-- Moving stops at `b`: `a` has moved, and `c`, which would fit, has not. -/
example : ((empty.run [.insert ['c'] .data ⟨7, by decide⟩ 1, .insert ['b'] .matrix ⟨250, by decide⟩ 2,
    .insert ['a'] .data ⟨100, by decide⟩ 3, .relocate 6]).symbols.map fun s =>
      (s.name, s.address.toNat)) = [(['a'], 106), (['b'], 250), (['c'], 7)] := by
  decide

end SymbolTable
end TenBit
