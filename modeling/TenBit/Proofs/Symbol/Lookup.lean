/-
# Looking symbols up

What a table says about a name is all that the rest of the assembler sees of it.
Here each step on a table is described by what look-ups give after it: inserting
adds one name, marking sets the flag of one symbol, moving the data area shifts
the addresses of data symbols.

A binding is a symbol without the line that defined it, its address a plain
number; so names can be bound before it is known that they lie in memory.

Key definitions: `Binding`, `SymbolTable.binding?`, `SymbolTable.place?`.
Key theorems: `SymbolTable.get?_eq_some_iff`,
`SymbolTable.bindings_eq_of_binding?`, `SymbolTable.insert_of_new`,
`SymbolTable.markEntry_of_some`, `SymbolTable.relocate_of_fits`.
-/
import Mathlib.Data.List.Nodup
import TenBit.Symbol.Table

namespace TenBit

/-- A name with its place in memory. -/
structure Binding where
  name : Text
  kind : SymbolKind
  address : Nat
  entry : Bool := false
deriving DecidableEq, Repr

namespace Binding

/-- The binding with the data area moved `offset` cells on. -/
def moved (offset : Nat) (b : Binding) : Binding :=
  if b.kind.isData then { b with address := b.address + offset } else b

/-- The binding, marked as an entry if its name is among those given. Names of
other programs are never marked. -/
def markedBy (names : List Text) (b : Binding) : Binding :=
  if b.name ∈ names ∧ b.kind ≠ .external then { b with entry := true } else b

@[simp] theorem moved_name (offset : Nat) (b : Binding) : (b.moved offset).name = b.name := by
  unfold moved
  split <;> rfl

@[simp] theorem moved_kind (offset : Nat) (b : Binding) : (b.moved offset).kind = b.kind := by
  unfold moved
  split <;> rfl

@[simp] theorem moved_entry (offset : Nat) (b : Binding) : (b.moved offset).entry = b.entry := by
  unfold moved
  split <;> rfl

@[simp] theorem markedBy_nil (b : Binding) : b.markedBy [] = b := by
  simp [markedBy]

@[simp] theorem markedBy_name (names : List Text) (b : Binding) :
    (b.markedBy names).name = b.name := by
  unfold markedBy
  split <;> rfl

@[simp] theorem markedBy_kind (names : List Text) (b : Binding) :
    (b.markedBy names).kind = b.kind := by
  unfold markedBy
  split <;> rfl

@[simp] theorem markedBy_address (names : List Text) (b : Binding) :
    (b.markedBy names).address = b.address := by
  unfold markedBy
  split <;> rfl

theorem markedBy_entry_iff {names : List Text} {b : Binding} :
    (b.markedBy names).entry = true ↔
      b.entry = true ∨ b.name ∈ names ∧ b.kind ≠ .external := by
  unfold markedBy
  split
  · rename_i h
    simp [h]
  · rename_i h
    simp only [h, or_false]

theorem markedBy_append (ns ms : List Text) (b : Binding) :
    b.markedBy (ns ++ ms) = (b.markedBy ns).markedBy ms := by
  by_cases hk : b.kind = .external
  · simp [markedBy, hk]
  · by_cases hn : b.name ∈ ns
    · simp [markedBy, hk, hn]
    · simp [markedBy, hk, hn]

/-- The first binding of a name. -/
def find (name : Text) (bs : List Binding) : Option Binding := bs.find? fun b => b.name == name

theorem find_eq_none_iff {name : Text} {bs : List Binding} :
    find name bs = none ↔ ∀ b ∈ bs, b.name ≠ name := by
  simp [find]

theorem find_some {name : Text} {bs : List Binding} {b : Binding} (h : find name bs = some b) :
    b ∈ bs ∧ b.name = name := by
  exact ⟨List.mem_of_find?_eq_some h, by simpa using List.find?_some h⟩

/-- A later binding of a name counts only if there is none before. -/
theorem find_append (name : Text) (bs cs : List Binding) :
    find name (bs ++ cs) = (find name bs).or (find name cs) :=
  List.find?_append

theorem find_map {name : Text} {f : Binding → Binding} (hf : ∀ b, (f b).name = b.name)
    (bs : List Binding) : find name (bs.map f) = (find name bs).map f := by
  rw [find, List.find?_map, find]
  congr 2
  funext b
  simp [hf]

end Binding

/-- The binding that a symbol makes. -/
def Symbol.binding (s : Symbol) : Binding := ⟨s.name, s.kind, s.address.toNat, s.entry⟩

namespace SymbolTable

/-- The binding of a name. -/
def binding? (t : SymbolTable) (name : Text) : Option Binding := (t.get? name).map Symbol.binding

/-- What an address word needs to know of a name. -/
def place? (t : SymbolTable) (name : Text) : Option (SymbolKind × Address) :=
  (t.get? name).map fun s => (s.kind, s.address)

/-! ### Names are unique -/

theorem nodup_names (t : SymbolTable) : (t.symbols.map Symbol.name).Nodup := by
  refine t.ascending.imp fun {a b} h he => ?_
  rw [he, Text.strict_before.irrefl] at h
  cases h

theorem eq_of_name_eq {t : SymbolTable} {s s' : Symbol} (hs : s ∈ t.symbols) (hs' : s' ∈ t.symbols)
    (h : s.name = s'.name) : s = s' :=
  List.inj_on_of_nodup_map t.nodup_names hs hs' h

/-- A look-up finds the one symbol of the name. -/
theorem get?_eq_some_iff {t : SymbolTable} {name : Text} {s : Symbol} :
    t.get? name = some s ↔ s ∈ t.symbols ∧ s.name = name := by
  constructor
  · intro h
    exact ⟨List.mem_of_find?_eq_some h, by simpa using List.find?_some h⟩
  · rintro ⟨hs, rfl⟩
    cases h : t.get? s.name with
    | none => exact absurd (List.mem_map_of_mem hs) (not_mem_names_of_get? h)
    | some s' =>
      have hs' : s' ∈ t.symbols := List.mem_of_find?_eq_some h
      have hn : s'.name = s.name := by simpa using List.find?_some h
      rw [eq_of_name_eq hs' hs hn]

theorem get?_name {t : SymbolTable} {name : Text} {s : Symbol} (h : t.get? name = some s) :
    s.name = name :=
  (get?_eq_some_iff.1 h).2

theorem binding?_name {t : SymbolTable} {name : Text} {b : Binding} (h : t.binding? name = some b) :
    b.name = name := by
  obtain ⟨s, hs, rfl⟩ := Option.map_eq_some_iff.1 h
  exact get?_name hs

theorem binding?_eq_some_iff {t : SymbolTable} {name : Text} {b : Binding} :
    t.binding? name = some b ↔ ∃ s ∈ t.symbols, s.name = name ∧ s.binding = b := by
  rw [binding?, Option.map_eq_some_iff]
  constructor
  · rintro ⟨s, hs, hb⟩
    obtain ⟨hs, hname⟩ := get?_eq_some_iff.1 hs
    exact ⟨s, hs, hname, hb⟩
  · rintro ⟨s, hs, hname, hb⟩
    exact ⟨s, get?_eq_some_iff.2 ⟨hs, hname⟩, hb⟩

theorem place?_eq_none_iff {t : SymbolTable} {name : Text} :
    t.place? name = none ↔ t.binding? name = none := by
  simp [place?, binding?]

/-- The kinds that both views give are the same. -/
theorem place?_map_kind (t : SymbolTable) (name : Text) :
    (t.place? name).map Prod.fst = (t.binding? name).map Binding.kind := by
  simp [place?, binding?, Function.comp_def, Symbol.binding]

theorem mem_names_iff {t : SymbolTable} {n : Text} :
    n ∈ t.symbols.map Symbol.name ↔ ∃ s, t.get? n = some s := by
  rw [List.mem_map]
  simp only [get?_eq_some_iff]

/-- Tables are in the order of the names, so the same names are the same list. -/
theorem names_eq_of_get? {t t' : SymbolTable}
    (h : ∀ n, (∃ s, t.get? n = some s) ↔ ∃ s, t'.get? n = some s) :
    t.symbols.map Symbol.name = t'.symbols.map Symbol.name := by
  have hmem : ∀ n, n ∈ t.symbols.map Symbol.name ↔ n ∈ t'.symbols.map Symbol.name := by
    intro n
    rw [mem_names_iff, mem_names_iff, h]
  refine List.Perm.eq_of_pairwise (fun a b _ _ hab hba => ?_) t.ascending t'.ascending
    ((List.perm_ext_iff_of_nodup t.nodup_names t'.nodup_names).2 hmem)
  have hself := Text.strict_before.trans hab hba
  rw [Text.strict_before.irrefl] at hself
  cases hself

theorem mem_entries {t : SymbolTable} {s : Symbol} :
    s ∈ t.entries ↔ s ∈ t.symbols ∧ s.entry = true := by
  rw [entries, (Order.sort_perm byAddress _).mem_iff, List.mem_filter]

/-! ### Equal look-ups -/

theorem map_binding?_names (t : SymbolTable) :
    (t.symbols.map Symbol.name).map t.binding? = (t.symbols.map Symbol.binding).map some := by
  rw [List.map_map, List.map_map]
  refine List.map_congr_left fun s hs => ?_
  exact binding?_eq_some_iff.2 ⟨s, hs, rfl, rfl⟩

theorem get?_of_binding? {t t' : SymbolTable} {n : Text} (h : t'.binding? n = t.binding? n) :
    (t.get? n = none ∧ t'.get? n = none) ∨
      ∃ s s', t.get? n = some s ∧ t'.get? n = some s' ∧ s'.binding = s.binding := by
  rw [binding?, binding?] at h
  cases hs : t.get? n with
  | none =>
    rw [hs] at h
    exact .inl ⟨rfl, Option.map_eq_none_iff.1 h⟩
  | some s =>
    rw [hs] at h
    obtain ⟨s', hs', hbinding⟩ := Option.map_eq_some_iff.1 h
    exact .inr ⟨s, s', rfl, hs', hbinding⟩

/-- **Look-ups determine the symbols**, up to the lines that defined them. -/
theorem bindings_eq_of_binding? {t t' : SymbolTable} (h : ∀ n, t'.binding? n = t.binding? n) :
    t'.symbols.map Symbol.binding = t.symbols.map Symbol.binding := by
  have hnames : t'.symbols.map Symbol.name = t.symbols.map Symbol.name := by
    refine names_eq_of_get? fun n => ?_
    rcases get?_of_binding? (h n) with ⟨hs, hs'⟩ | ⟨s, s', hs, hs', -⟩
    · simp [hs, hs']
    · simp [hs, hs']
  have hsome := t'.map_binding?_names
  rw [hnames, funext h, t.map_binding?_names] at hsome
  exact (List.map_injective_iff.2 (fun _ _ => Option.some.inj) hsome).symm

theorem place?_eq_of_binding? {t t' : SymbolTable} (h : ∀ n, t'.binding? n = t.binding? n) :
    t'.place? = t.place? := by
  funext n
  rcases get?_of_binding? (h n) with ⟨hs, hs'⟩ | ⟨s, s', hs, hs', hbinding⟩
  · rw [place?, place?, hs, hs']
  · have hkind : s'.kind = s.kind := congrArg Binding.kind hbinding
    have haddress : s'.address = s.address :=
      Address.eq_of_toNat (congrArg Binding.address hbinding)
    rw [place?, place?, hs, hs', Option.map_some, Option.map_some, hkind, haddress]

/-! ### Inserting -/

/-- A new symbol is found under its name, and all others as before. -/
theorem get?_insert {t t' : SymbolTable} {s : Symbol} (h : t.insert s = .ok t') (name : Text) :
    t'.get? name = (t.get? name).or (if s.name = name then some s else none) := by
  unfold insert at h
  split at h
  · rename_i hnone
    cases h
    by_cases hn : s.name = name
    · subst hn
      rw [hnone, Option.none_or, if_pos rfl]
      exact get?_eq_some_iff.2 ⟨Order.mem_place.2 (Or.inl rfl), rfl⟩
    · rw [if_neg hn, Option.or_none]
      refine Option.ext fun s' => ?_
      rw [get?_eq_some_iff, get?_eq_some_iff]
      constructor
      · rintro ⟨hs', rfl⟩
        rcases Order.mem_place.1 hs' with rfl | hs'
        · exact absurd rfl hn
        · exact ⟨hs', rfl⟩
      · rintro ⟨hs', hn'⟩
        exact ⟨Order.mem_place.2 (Or.inr hs'), hn'⟩
  · cases h

theorem insert_of_new {t : SymbolTable} {s : Symbol} (h : t.binding? s.name = none) :
    ∃ t', t.insert s = .ok t' ∧
      ∀ name, t'.binding? name = (t.binding? name).or (Binding.find name [s.binding]) := by
  have hnone : t.get? s.name = none := by simpa [binding?] using h
  refine ⟨_, dif_pos hnone, fun name => ?_⟩
  rw [binding?, get?_insert (dif_pos hnone), binding?]
  by_cases hn : s.name = name
  · cases t.get? name <;> simp [hn, Binding.find, Symbol.binding]
  · simp [hn, Binding.find, Symbol.binding]

theorem insert_of_known {t : SymbolTable} {s : Symbol} (h : t.binding? s.name ≠ none) :
    t.insert s = .error (.duplicate s.name) := by
  have hsome : t.get? s.name ≠ none := fun he => h (by simp [binding?, he])
  exact dif_neg hsome

/-! ### Marking -/

theorem markEntry_of_none {t : SymbolTable} {name : Text} (h : t.place? name = none) :
    t.markEntry name = .error (.notFound name) := by
  have hnone : t.get? name = none := by simpa [place?] using h
  simp [markEntry, hnone]

theorem markEntry_of_external {t : SymbolTable} {name : Text} {a : Address}
    (h : t.place? name = some (.external, a)) :
    t.markEntry name = .error (.isExternal name) := by
  obtain ⟨s, hs, he⟩ := Option.map_eq_some_iff.1 h
  have hk : s.kind = .external := congrArg Prod.fst he
  simp [markEntry, hs, hk]

/-- Marking a symbol of this program sets its flag and changes nothing else. -/
theorem markEntry_of_some {t : SymbolTable} {name : Text} {k : SymbolKind} {a : Address}
    (h : t.place? name = some (k, a)) (hk : k ≠ .external) :
    ∃ t', t.markEntry name = .ok t' ∧ t'.place? = t.place? ∧
      ∀ n, t'.binding? n = (t.binding? n).map (Binding.markedBy [name]) := by
  obtain ⟨s, hs, he⟩ := Option.map_eq_some_iff.1 h
  have hsk : s.kind ≠ .external := by
    rw [show s.kind = k from congrArg Prod.fst he]
    exact hk
  let t' : SymbolTable :=
    ⟨t.symbols.map (marked name), map_marked_names name t.symbols ▸ t.ascending⟩
  have hok : t.markEntry name = .ok t' := by
    simp only [markEntry, hs, if_neg hsk]
    rfl
  have hget : ∀ n, t'.get? n = (t.get? n).map (marked name) := by
    intro n
    simp only [get?, t', List.find?_map]
    congr 2
    funext s'
    simp [marked_name]
  refine ⟨t', hok, ?_, fun n => ?_⟩
  · funext n
    simp only [place?, hget, Option.map_map]
    congr 1
    funext s'
    simp only [Function.comp_apply, marked]
    split <;> rfl
  · simp only [binding?, hget, Option.map_map]
    refine Option.map_congr fun s' hs' => ?_
    simp only [Function.comp_apply, marked, Symbol.binding, Binding.markedBy, List.mem_singleton]
    by_cases hn : s'.name = name
    · have hse : s' = s := by
        refine eq_of_name_eq (get?_eq_some_iff.1 hs').1 (get?_eq_some_iff.1 hs).1 ?_
        rw [hn, get?_name hs]
      have hk' : s'.kind ≠ .external := hse ▸ hsk
      simp [hn, hk']
    · simp [hn]

/-! ### Moving the data area -/

/-- If every data symbol stays in memory then all of them are moved. -/
theorem moveData_of_fits (offset : Nat) : ∀ ss : List Symbol,
    (∀ s ∈ ss, s.kind.isData = true → s.address.toNat + offset < memorySize) →
      (moveData offset ss).2 = none ∧
        (moveData offset ss).1.map Symbol.binding = ss.map (Binding.moved offset ∘ Symbol.binding)
  | [], _ => ⟨rfl, rfl⟩
  | s :: ss, h => by
    obtain ⟨ih₁, ih₂⟩ := moveData_of_fits offset ss fun s' hs' => h s' (List.mem_cons_of_mem _ hs')
    by_cases hk : s.kind.isData = true
    · have hlt := h s List.mem_cons_self hk
      simp [moveData, hk, Address.advance?, Address.ofNat?, hlt, ih₁, ih₂, Symbol.binding,
        Binding.moved]
    · simp [moveData, hk, ih₁, ih₂, Symbol.binding, Binding.moved]

theorem relocate_of_fits {t : SymbolTable} {offset : Nat}
    (h : ∀ n b, t.binding? n = some b → b.kind.isData = true → b.address + offset < memorySize) :
    (t.relocate offset).2 = none ∧
      ∀ n, (t.relocate offset).1.binding? n = (t.binding? n).map (Binding.moved offset) := by
  have hfits : ∀ s ∈ t.symbols, s.kind.isData = true → s.address.toNat + offset < memorySize := by
    intro s hs hk
    have hget : t.get? s.name = some s := get?_eq_some_iff.2 ⟨hs, rfl⟩
    exact h s.name s.binding (by simp [binding?, hget]) hk
  obtain ⟨h₁, h₂⟩ := moveData_of_fits offset t.symbols hfits
  have hview : ∀ (t : SymbolTable) (n : Text),
      t.binding? n = Binding.find n (t.symbols.map Symbol.binding) := by
    intro t n
    simp only [binding?, get?, Binding.find, List.find?_map]
    rfl
  refine ⟨h₁, fun n => ?_⟩
  rw [hview, hview, ← Binding.find_map (Binding.moved_name offset)]
  simp only [relocate, h₂, List.map_map]

end SymbolTable
end TenBit
