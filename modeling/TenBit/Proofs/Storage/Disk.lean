/-
# What a disk shows

A disk is known by what is at each location. Here its steps are described in
these terms. A step that writes or removes a file changes one location, and
never one of a folder; where a path leads depends on folders only, so all paths
still lead where they led.

Key definitions: `Disk.assign`, `Disk.SameFolders`, `Disk.Steps`, `Disk.HasFile`,
`Disk.HasFolder`, `Disk.clear`, `Disk.settle`, `Disk.settleAll`, `Disk.Edits`.
Key theorems: `Disk.get?_assign`, `Disk.walk_cons_eq_ok_iff`,
`Disk.SameFolders.locate`, `Disk.settle_eq_ok`, `Disk.clear_eq_error`,
`Disk.edits_settle`.
-/
import TenBit.Storage.Disk

namespace TenBit
namespace Disk

/-! ### Nodes -/

theorem find?_place {l : Location} {n : Node} (l' : Location) :
    ∀ {ns : List (Location × Node)}, l ∉ ns.map Prod.fst →
      (Order.place byLocation (l, n) ns).find? (fun m => m.1 == l') =
        if l' = l then some (l, n) else ns.find? fun m => m.1 == l'
  | [], _ => by
    by_cases h : l' = l
    · simp [Order.place, h]
    · simp [Order.place, h, Ne.symm h]
  | m :: ns, hl => by
    obtain ⟨hm, hns⟩ : l ≠ m.1 ∧ l ∉ ns.map Prod.fst := by simpa [not_or] using hl
    simp only [Order.place]
    split
    · by_cases h : l' = l
      · simp [h]
      · simp [h, Ne.symm h]
    · rw [List.find?_cons, List.find?_cons, find?_place l' hns]
      by_cases h : m.1 = l'
      · have hne : l' ≠ l := fun h' => hm (h'.symm.trans h.symm)
        simp [h, hne]
      · have hm' : (m.1 == l') = false := by simpa using h
        rw [hm']

theorem find?_others (d : Disk) (l l' : Location) :
    (d.others l).find? (fun m => m.1 == l') =
      if l' = l then none else d.tree.find? fun m => m.1 == l' := by
  rw [others, List.find?_filter]
  split
  · rename_i h
    simp [h]
  · rename_i h
    congr 1
    funext m
    by_cases hm : m.1 = l'
    · simp [hm, h]
    · simp [hm]

theorem get?_put {l : Location} (hl : l ≠ []) (d : Disk) (n : Node) (l' : Location) :
    (d.put l n).get? l' = if l' = l then some n else d.get? l' := by
  simp only [get?, put, find?_place l' (d.not_mem_others l), find?_others]
  by_cases h : l' = l
  · simp [h, hl]
  · simp [h]

theorem get?_erase {l : Location} (hl : l ≠ []) (d : Disk) (l' : Location) :
    (d.erase l).get? l' = if l' = l then none else d.get? l' := by
  simp only [get?, erase, find?_others]
  by_cases h : l' = l
  · simp [h, hl]
  · simp [h]

theorem erase_of_get?_eq_none {d : Disk} {l : Location} (h : d.get? l = none) : d.erase l = d := by
  refine ext rfl ?_
  simp only [get?] at h
  split at h
  · cases h
  · simp only [Option.map_eq_none_iff, List.find?_eq_none] at h
    simpa [erase, others, List.filter_eq_self] using h

/-- The disk with a node at a location, or with nothing there. -/
def assign (d : Disk) (l : Location) : Option Node → Disk
  | some n => d.put l n
  | none => d.erase l

theorem here_assign (d : Disk) (l : Location) (n : Option Node) : (d.assign l n).here = d.here := by
  cases n <;> rfl

theorem get?_assign {l : Location} (hl : l ≠ []) (d : Disk) (n : Option Node) (l' : Location) :
    (d.assign l n).get? l' = if l' = l then n else d.get? l' := by
  cases n with
  | none => exact d.get?_erase hl l'
  | some n => exact d.get?_put hl n l'

theorem ne_nil_of_get? {d : Disk} {l : Location} (h : d.get? l ≠ some .folder) : l ≠ [] := by
  rintro rfl
  exact h rfl

/-! ### Folders -/

/-- Two disks have the same folders, and one is in the same of them. -/
structure SameFolders (d d' : Disk) : Prop where
  here : d'.here = d.here
  get? : ∀ l, d'.get? l = some .folder ↔ d.get? l = some .folder

theorem SameFolders.refl (d : Disk) : d.SameFolders d := ⟨rfl, fun _ => .rfl⟩

theorem SameFolders.trans {d d' d'' : Disk} (h : d.SameFolders d') (h' : d'.SameFolders d'') :
    d.SameFolders d'' :=
  ⟨h'.here.trans h.here, fun l => (h'.get? l).trans (h.get? l)⟩

theorem SameFolders.symm {d d' : Disk} (h : d.SameFolders d') : d'.SameFolders d :=
  ⟨h.here.symm, fun l => (h.get? l).symm⟩

/-- Files can come and go without a change to the folders. -/
theorem sameFolders_assign {d : Disk} {l : Location} {n : Option Node}
    (hl : d.get? l ≠ some .folder) (hn : n ≠ some .folder) : d.SameFolders (d.assign l n) := by
  refine ⟨d.here_assign l n, fun l' => ?_⟩
  rw [get?_assign (ne_nil_of_get? hl)]
  split
  · rename_i h
    subst h
    simp [hl, hn]
  · rfl

theorem walk_append (d : Disk) : ∀ (l : Location) (xs ys : List Text),
    d.walk l (xs ++ ys) = (d.walk l xs).bind fun l' => d.walk l' ys
  | l, [], ys => rfl
  | l, x :: xs, ys => by
    simp only [List.cons_append, walk]
    split
    · rfl
    · rfl
    · split
      · exact walk_append d l xs ys
      · split
        · exact walk_append d _ xs ys
        · split
          · exact walk_append d _ xs ys
          · rfl

/-- A part of a path leads from one place to another. -/
inductive Steps (d : Disk) : Location → Text → Location → Prop
  | stay {l : Location} {x : Text} (hl : d.get? l = some .folder) (hx : isStay x = true) :
      Steps d l x l
  | up {l : Location} (hl : d.get? l = some .folder) : Steps d l ['.', '.'] l.dropLast
  | down {l : Location} {x : Text} (hl : d.get? l = some .folder) (hstay : isStay x = false)
      (hdots : x ≠ ['.', '.']) (hfits : Path.nameFits x = true) : Steps d l x (l ++ [x])

theorem steps_of_walk {d : Disk} {l l' : Location} {x : Text} (h : d.walk l [x] = .ok l') :
    d.Steps l x l' := by
  simp only [walk] at h
  split at h
  · cases h
  · cases h
  · rename_i hl
    split at h
    · rename_i hx
      cases h
      exact .stay hl hx
    · rename_i hstay
      split at h
      · rename_i hdots
        subst hdots
        cases h
        exact .up hl
      · rename_i hdots
        split at h
        · rename_i hfits
          cases h
          exact .down hl (by simpa using hstay) hdots hfits
        · cases h

theorem Steps.walk {d : Disk} {l l' : Location} {x : Text} (h : d.Steps l x l') :
    d.walk l [x] = .ok l' := by
  cases h with
  | stay hl hx => simp [Disk.walk, hl, hx]
  | up hl => simp [Disk.walk, hl, isStay]
  | down hl hstay hdots hfits => simp [Disk.walk, hl, hstay, hdots, hfits]

theorem walk_append_eq_ok_iff {d : Disk} {l l' : Location} {xs ys : List Text} :
    d.walk l (xs ++ ys) = .ok l' ↔ ∃ a, d.walk l xs = .ok a ∧ d.walk a ys = .ok l' := by
  rw [walk_append]
  cases d.walk l xs <;> simp [Except.bind]

theorem walk_cons_eq_ok_iff {d : Disk} {l l' : Location} {x : Text} {xs : List Text} :
    d.walk l (x :: xs) = .ok l' ↔ ∃ a, d.Steps l x a ∧ d.walk a xs = .ok l' := by
  rw [← List.singleton_append, walk_append_eq_ok_iff]
  exact exists_congr fun a => and_congr_left fun _ => ⟨steps_of_walk, Steps.walk⟩

/-- Where a part leads depends on folders only. -/
theorem SameFolders.steps {d d' : Disk} (h : d.SameFolders d') {l l' : Location} {x : Text}
    (hx : d.Steps l x l') : d'.Steps l x l' := by
  cases hx with
  | stay hl hx => exact .stay ((h.get? _).2 hl) hx
  | up hl => exact .up ((h.get? _).2 hl)
  | down hl hstay hdots hfits => exact .down ((h.get? _).2 hl) hstay hdots hfits

/-- Where a walk ends depends on folders only. -/
theorem SameFolders.walk {d d' : Disk} (h : d.SameFolders d') {xs : List Text} :
    ∀ {l l' : Location}, d.walk l xs = .ok l' → d'.walk l xs = .ok l' := by
  induction xs with
  | nil => exact fun hw => hw
  | cons x xs ih =>
    intro l l' hw
    obtain ⟨a, hx, ha⟩ := walk_cons_eq_ok_iff.1 hw
    exact walk_cons_eq_ok_iff.2 ⟨a, h.steps hx, ih ha⟩

/-! ### Paths -/

theorem locate_eq_walk (d : Disk) {p : Text} (hnul : '\x00' ∉ p) (hfits : Path.fits p = true)
    (hnil : p ≠ []) : d.locate p = d.walk [] (d.start p ++ Path.parts p) := by
  rw [locate, if_neg hnul, if_neg (by simp [hfits]), if_neg hnil]

theorem locate_eq_ok_iff {d : Disk} {p : Text} {l : Location} :
    d.locate p = .ok l ↔
      '\x00' ∉ p ∧ Path.fits p = true ∧ p ≠ [] ∧ d.walk [] (d.start p ++ Path.parts p) = .ok l := by
  constructor
  · intro h
    have hp : '\x00' ∉ p ∧ Path.fits p = true ∧ p ≠ [] := by
      unfold locate at h
      split at h
      · cases h
      · rename_i hnul
        split at h
        · cases h
        · rename_i hfits
          split at h
          · cases h
          · rename_i hnil
            exact ⟨hnul, by simpa using hfits, hnil⟩
    rw [locate_eq_walk d hp.1 hp.2.1 hp.2.2] at h
    exact ⟨hp.1, hp.2.1, hp.2.2, h⟩
  · rintro ⟨hnul, hfits, hnil, hw⟩
    rw [locate_eq_walk d hnul hfits hnil, hw]

theorem SameFolders.start {d d' : Disk} (h : d.SameFolders d') (p : Text) :
    d'.start p = d.start p := by
  rw [Disk.start, Disk.start, h.here]

theorem SameFolders.locate {d d' : Disk} (h : d.SameFolders d') {p : Text} {l : Location}
    (hp : d.locate p = .ok l) : d'.locate p = .ok l := by
  obtain ⟨hnul, hfits, hnil, hw⟩ := locate_eq_ok_iff.1 hp
  refine locate_eq_ok_iff.2 ⟨hnul, hfits, hnil, ?_⟩
  rw [h.start]
  exact h.walk hw

theorem find_eq_ok_iff {d : Disk} {p : Text} {n : Node} :
    d.find p = .ok n ↔ ∃ l, d.locate p = .ok l ∧ d.get? l = some n := by
  unfold find
  cases d.locate p with
  | error o => simp
  | ok l => cases hl : d.get? l <;> simp [hl]

theorem SameFolders.find {d d' : Disk} (h : d.SameFolders d') {p : Text}
    (hp : d.find p = .ok .folder) : d'.find p = .ok .folder := by
  obtain ⟨l, hp, hl⟩ := find_eq_ok_iff.1 hp
  exact find_eq_ok_iff.2 ⟨l, h.locate hp, (h.get? l).2 hl⟩

/-- There is a plain file at a path. -/
def HasFile (d : Disk) (p : Text) : Prop := ∃ b, d.find p = .ok (.file b)

/-- There is a folder at a path. -/
def HasFolder (d : Disk) (p : Text) : Prop := d.find p = .ok .folder

instance (d : Disk) (p : Text) (n : Node) : Decidable (d.find p = .ok n) :=
  decidable_of_iff ((d.find p).toOption = some n) (by
    cases d.find p <;> simp [Except.toOption])

instance (d : Disk) (p : Text) : Decidable (d.HasFolder p) :=
  inferInstanceAs (Decidable (d.find p = .ok .folder))

theorem HasFile.not_hasFolder {d : Disk} {p : Text} (h : d.HasFile p) : ¬ d.HasFolder p := by
  intro hfolder
  obtain ⟨b, hb⟩ := h
  rw [hfolder] at hb
  cases hb

theorem HasFile.locate {d : Disk} {p : Text} (h : d.HasFile p) : ∃ l, d.locate p = .ok l := by
  obtain ⟨b, hb⟩ := h
  obtain ⟨l, hl, -⟩ := find_eq_ok_iff.1 hb
  exact ⟨l, hl⟩

theorem SameFolders.hereSize {d d' : Disk} (h : d.SameFolders d') : d'.hereSize = d.hereSize := by
  rw [Disk.hereSize, Disk.hereSize, h.here]

theorem SameFolders.checkFolder {d d' : Disk} (h : d.SameFolders d') {p : Text}
    (hp : d.checkFolder p = .ok ()) : d'.checkFolder p = .ok () := by
  unfold Disk.checkFolder at hp ⊢
  rw [h.hereSize]
  simp only at hp ⊢
  split at hp
  · cases hp
  · rename_i hlong
    rw [if_neg hlong]
    cases hl : d.locate (Path.waiting p 0) with
    | error o =>
      rw [hl] at hp
      cases hp
    | ok r =>
      rw [h.locate hl]
      rfl

/-! ### Steps -/

/-- The disk without the file at a path, whether or not there was one. -/
def clear (d : Disk) (p : Text) : Except Obstacle Disk :=
  match d.remove p with
  | .error .missing => .ok d
  | r => r

/-- The disk with a text at a path, or with no file there. -/
def settle (d : Disk) (p : Text) : Option Text → Except Obstacle Disk
  | some t => d.replace p (Utf8.encode t)
  | none => d.clear p

/-- The disk after such steps one by one. -/
def settleAll : Disk → List (Text × Option Text) → Except Obstacle Disk
  | d, [] => .ok d
  | d, (p, t) :: files => (d.settle p t).bind fun d' => d'.settleAll files

/-- The file that holds a text. -/
def textFile (t : Text) : Node := .file (Utf8.encode t)

theorem settleAll_cons_eq_ok_iff {d d' : Disk} {p : Text} {t : Option Text}
    {files : List (Text × Option Text)} :
    d.settleAll ((p, t) :: files) = .ok d' ↔
      ∃ e, d.settle p t = .ok e ∧ e.settleAll files = .ok d' := by
  rw [settleAll]
  cases d.settle p t <;> simp [Except.bind]

theorem remove_eq_ok {d d' : Disk} {p : Text} (h : d.remove p = .ok d') :
    ∃ l, d.locate p = .ok l ∧ d.get? l ≠ some .folder ∧ d' = d.erase l := by
  unfold remove at h
  split at h
  · cases h
  · rename_i l hp
    split at h
    · cases h
    · cases h
    · rename_i hl
      cases h
      exact ⟨l, hp, by simp [hl], rfl⟩

theorem replace_eq_ok {d d' : Disk} {p : Text} {b : List UInt8} (h : d.replace p b = .ok d') :
    ∃ l, d.locate p = .ok l ∧ d.get? l ≠ some .folder ∧ d' = d.put l (.file b) := by
  unfold replace at h
  split at h
  · cases h
  · rename_i l hp
    split at h
    · cases h
    · split at h
      · cases h
      · rename_i hl
        cases h
        exact ⟨l, hp, hl, rfl⟩

/-- Clearing a path leaves no file there. -/
theorem clear_eq_ok {d d' : Disk} {p : Text} (h : d.clear p = .ok d') :
    (d' = d ∧ ∀ b, d.find p ≠ .ok (.file b)) ∨
      ∃ l, d.locate p = .ok l ∧ d.get? l ≠ some .folder ∧ d' = d.erase l := by
  unfold clear at h
  split at h
  · rename_i hr
    cases h
    refine .inl ⟨rfl, fun b hb => ?_⟩
    obtain ⟨l, hp, hl⟩ := find_eq_ok_iff.1 hb
    simp [remove, hp, hl] at hr
  · exact .inr (remove_eq_ok h)

/-- A path cannot be cleared if there is a folder, or if nothing can be there. -/
theorem clear_eq_error {d : Disk} {p : Text} {o : Obstacle} (h : d.clear p = .error o) :
    d.find p = .ok .folder ∨ d.locate p = .error o ∧ o ≠ .missing := by
  unfold clear at h
  split at h
  · cases h
  · rename_i hmissing
    have ho : o ≠ .missing := by
      rintro rfl
      exact hmissing h
    unfold remove at h
    split at h
    · rename_i hp
      cases h
      exact .inr ⟨hp, ho⟩
    · rename_i l hp
      split at h
      · cases h
        exact absurd rfl ho
      · rename_i hl
        exact .inl (find_eq_ok_iff.2 ⟨l, hp, hl⟩)
      · cases h

/-- A step changes nothing, or puts what was asked for where the path leads. -/
theorem settle_eq_ok {d d' : Disk} {p : Text} {t : Option Text} (h : d.settle p t = .ok d') :
    d' = d ∨ ∃ l, d.locate p = .ok l ∧ d.get? l ≠ some .folder ∧
      d' = d.assign l (t.map textFile) := by
  cases t with
  | none =>
    rcases clear_eq_ok h with ⟨rfl, -⟩ | h
    · exact .inl rfl
    · exact .inr h
  | some t => exact .inr (replace_eq_ok h)

/-- A disk with some files and their texts. -/
def ofTexts (files : List (String × String)) : Disk :=
  files.foldl (fun d f => d.write f.1.toList (Utf8.encode f.2.toList)) .empty

/-! ### Edits -/

/-- Files were written or removed at some paths, and nothing else. -/
structure Edits (qs : List Text) (d d' : Disk) : Prop where
  folders : d.SameFolders d'
  frame : ∀ l, d'.get? l ≠ d.get? l → ∃ q ∈ qs, d.locate q = .ok l

theorem Edits.refl (qs : List Text) (d : Disk) : Edits qs d d :=
  ⟨.refl d, fun _ h => absurd rfl h⟩

theorem Edits.trans {qs : List Text} {d d' d'' : Disk} (h : Edits qs d d') (h' : Edits qs d' d'') :
    Edits qs d d'' := by
  refine ⟨h.folders.trans h'.folders, fun l hl => ?_⟩
  by_cases hl' : d'.get? l = d.get? l
  · obtain ⟨q, hq, hp⟩ := h'.frame l (hl' ▸ hl)
    exact ⟨q, hq, h.folders.symm.locate hp⟩
  · exact h.frame l hl'

/-- A step edits the path it is about. -/
theorem edits_settle {qs : List Text} {d d' : Disk} {p : Text} {t : Option Text} (hp : p ∈ qs)
    (h : d.settle p t = .ok d') : Edits qs d d' := by
  rcases settle_eq_ok h with rfl | ⟨l, hl, hfolder, rfl⟩
  · exact .refl _ _
  · have ht : t.map textFile ≠ some .folder := by cases t <;> simp [textFile]
    refine ⟨sameFolders_assign hfolder ht, fun l' hl' => ?_⟩
    rw [get?_assign (ne_nil_of_get? hfolder)] at hl'
    split at hl'
    · rename_i he
      exact ⟨p, hp, he ▸ hl⟩
    · exact absurd rfl hl'

end Disk
end TenBit
