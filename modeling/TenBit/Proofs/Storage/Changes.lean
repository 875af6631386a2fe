/-
# Changes

What is done to a disk can be written down as a list of changes, each of which
puts a file at a location or leaves nothing there. Of the changes at a location
only the last one counts. So it makes no difference to make the same changes
again, and changes at different locations can be made in any order.

Key definitions: `Disk.node?`, `Disk.Change`, `Disk.apply`, `Disk.left?`,
`Disk.Plans`.
Key theorems: `Disk.eq_of_node?`, `Disk.node?_apply`, `Disk.apply_apply_self`,
`Disk.apply_comm`, `Disk.Plans.sameFolders`, `Disk.Plans.get?_apply`.
-/
import Mathlib.Data.List.Nodup
import TenBit.Proofs.Storage.Disk

namespace TenBit
namespace Disk

variable {d d' : Disk} {l : Location} {qs : List Text}

/-! ### Disks by their nodes -/

/-- The node a disk has at a location, which says nothing about the root. -/
def node? (d : Disk) (l : Location) : Option Node := (d.tree.find? fun n => n.1 == l).map Prod.snd

theorem get?_eq_node? (hl : l ≠ []) (d : Disk) : d.get? l = d.node? l := if_neg hl

theorem nodup_locations (d : Disk) : (d.tree.map Prod.fst).Nodup := by
  refine d.ascending.imp fun {a b} hab he => ?_
  rw [he, Location.strict_before.irrefl] at hab
  cases hab

theorem mem_tree_iff {n : Node} : (l, n) ∈ d.tree ↔ d.node? l = some n := by
  unfold node?
  constructor
  · intro h
    cases hfind : d.tree.find? fun m => m.1 == l with
    | none =>
      have hnone := List.find?_eq_none.1 hfind _ h
      simp at hnone
    | some m =>
      have hm : m.1 = l := by simpa using List.find?_some hfind
      have hsame : m = (l, n) :=
        List.inj_on_of_nodup_map d.nodup_locations (List.mem_of_find?_eq_some hfind) h hm
      rw [hsame]
      rfl
  · intro h
    obtain ⟨m, hfind, hn⟩ := Option.map_eq_some_iff.1 h
    have hm : m.1 = l := by simpa using List.find?_some hfind
    rw [← hm, ← hn]
    exact List.mem_of_find?_eq_some hfind

/-- **A disk is known by its nodes**, and by the folder one is in. -/
theorem eq_of_node? (hhere : d.here = d'.here) (h : ∀ l, d.node? l = d'.node? l) : d = d' := by
  refine ext hhere ?_
  have hnodup : ∀ e : Disk, e.tree.Nodup := fun e => e.nodup_locations.of_map
  have hperm : d.tree.Perm d'.tree := by
    rw [List.perm_ext_iff_of_nodup (hnodup d) (hnodup d')]
    rintro ⟨l, n⟩
    rw [mem_tree_iff, mem_tree_iff, h]
  refine hperm.eq_of_pairwise (fun a b _ _ hab hba => ?_) (List.pairwise_map.1 d.ascending)
    (List.pairwise_map.1 d'.ascending)
  -- both orders at once would put a location before itself
  have hself := Location.strict_before.trans hab hba
  rw [Location.strict_before.irrefl] at hself
  cases hself

theorem node?_assign (d : Disk) (l : Location) (n : Option Node) (l' : Location) :
    (d.assign l n).node? l' = if l' = l then n else d.node? l' := by
  cases n with
  | none =>
    simp only [assign, erase, node?, find?_others]
    split <;> rfl
  | some n =>
    simp only [assign, put, node?, find?_place l' (d.not_mem_others l), find?_others]
    split <;> rfl

/-! ### Changes one after the other -/

/-- A node for a location, or nothing there. -/
abbrev Change := Location × Option Node

/-- The disk after some changes, made in order. -/
def apply (d : Disk) : List Change → Disk
  | [] => d
  | c :: cs => (d.assign c.1 c.2).apply cs

theorem apply_append : ∀ (cs cs' : List Change) (d : Disk),
    d.apply (cs ++ cs') = (d.apply cs).apply cs'
  | [], _, _ => rfl
  | c :: cs, cs', d => apply_append cs cs' (d.assign c.1 c.2)

theorem here_apply : ∀ (cs : List Change) (d : Disk), (d.apply cs).here = d.here
  | [], _ => rfl
  | c :: cs, d => (here_apply cs _).trans (d.here_assign c.1 c.2)

/-- What some changes leave at a location, if they are about it. -/
def left? : List Change → Location → Option (Option Node)
  | [], _ => none
  | c :: cs, l => (left? cs l).or (if l = c.1 then some c.2 else none)

theorem left?_eq_none : ∀ {cs : List Change}, (∀ c ∈ cs, c.1 ≠ l) → left? cs l = none
  | [], _ => rfl
  | c :: cs, h => by
    obtain ⟨hc, hcs⟩ := List.forall_mem_cons.1 h
    rw [left?, left?_eq_none hcs, if_neg (Ne.symm hc)]
    rfl

/-- **The last change at a location counts.** -/
theorem node?_apply (l : Location) : ∀ (cs : List Change) (d : Disk),
    (d.apply cs).node? l = (left? cs l).getD (d.node? l)
  | [], _ => rfl
  | c :: cs, d => by
    rw [apply, node?_apply l cs, node?_assign, left?]
    cases left? cs l with
    | some n => rfl
    | none =>
      by_cases hl : l = c.1
      · simp [hl]
      · simp [hl]

/-- **The same changes again change nothing.** -/
theorem apply_apply_self (d : Disk) (cs : List Change) : (d.apply cs).apply cs = d.apply cs := by
  refine eq_of_node? (here_apply cs _) fun l => ?_
  rw [node?_apply, node?_apply]
  cases left? cs l <;> rfl

/-- **Changes at different locations can be made in any order.** -/
theorem apply_comm {cs cs' : List Change} (h : ∀ c ∈ cs, ∀ c' ∈ cs', c.1 ≠ c'.1) (d : Disk) :
    (d.apply cs).apply cs' = (d.apply cs').apply cs := by
  refine eq_of_node? (by simp only [here_apply]) fun l => ?_
  simp only [node?_apply]
  by_cases hl : ∃ c ∈ cs, c.1 = l
  · obtain ⟨c, hc, rfl⟩ := hl
    have hnone : left? cs' c.1 = none := left?_eq_none fun c' hc' => (h c hc c' hc').symm
    rw [hnone]
    rfl
  · have hnone : left? cs l = none := left?_eq_none fun c hc he => hl ⟨c, hc, he⟩
    rw [hnone]
    rfl

theorem get?_apply_of_ne {cs : List Change} (h : ∀ c ∈ cs, c.1 ≠ l) (d : Disk) :
    (d.apply cs).get? l = d.get? l := by
  by_cases hl : l = []
  · rw [hl]
    rfl
  · rw [get?_eq_node? hl, get?_eq_node? hl, node?_apply, left?_eq_none h]
    rfl

/-! ### Plans -/

/-- The changes put files, or remove them, where some paths lead and no folder
is. -/
def Plans (d : Disk) (qs : List Text) (cs : List Change) : Prop :=
  ∀ c ∈ cs, (∃ q ∈ qs, d.locate q = .ok c.1) ∧ d.get? c.1 ≠ some .folder ∧
    c.2 ≠ some .folder

theorem plans_nil (d : Disk) (qs : List Text) : d.Plans qs [] := nofun

theorem Plans.append {cs cs' : List Change} (h : d.Plans qs cs) (h' : d.Plans qs cs') :
    d.Plans qs (cs ++ cs') := by
  intro c hc
  rcases List.mem_append.1 hc with hc | hc
  · exact h c hc
  · exact h' c hc

theorem Plans.mono {qs' : List Text} {cs : List Change} (h : d.Plans qs cs) (hqs : qs ⊆ qs') :
    d.Plans qs' cs := by
  intro c hc
  obtain ⟨⟨q, hq, hlocate⟩, hrest⟩ := h c hc
  exact ⟨⟨q, hqs hq, hlocate⟩, hrest⟩

/-- A plan does not change the folders. -/
theorem Plans.sameFolders : ∀ {cs : List Change} {d' : Disk}, d.Plans qs cs → d.SameFolders d' →
    d.SameFolders (d'.apply cs)
  | [], _, _, hd => hd
  | c :: cs, d', h, hd => by
    obtain ⟨⟨-, hfolder, hnode⟩, hcs⟩ := List.forall_mem_cons.1 h
    have hfolder' : d'.get? c.1 ≠ some .folder := fun he => hfolder ((hd.get? c.1).1 he)
    have hstep : d'.SameFolders (d'.assign c.1 c.2) := sameFolders_assign hfolder' hnode
    rw [apply]
    exact Plans.sameFolders hcs (hd.trans hstep)

/-- **A plan leaves everything alone to which none of its paths leads.** -/
theorem Plans.get?_apply {cs : List Change} (h : d.Plans qs cs)
    (hl : ∀ q ∈ qs, d.locate q = .ok l → d.get? l = some .folder) (d' : Disk) :
    (d'.apply cs).get? l = d'.get? l := by
  refine get?_apply_of_ne (fun c hc he => ?_) d'
  obtain ⟨⟨q, hq, hlocate⟩, hfolder, -⟩ := h c hc
  rw [he] at hlocate hfolder
  exact hfolder (hl q hq hlocate)

end Disk
end TenBit
