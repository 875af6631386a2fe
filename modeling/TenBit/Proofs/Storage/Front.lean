/-
# Names behind one front

A path leads to a file if its front leads to a folder and the name behind it is
found there. Any other name behind the same front is then looked up in the same
folder, and only its length can be in the way. So the files of a source lie
beside it, and what can be done at one of their paths is known from the folder
alone.

A walk from the root meets folders only: whatever lies above the place where it
ends is a folder. So two dots behind a front lead to a folder.

Key definitions: `Disk.Rooted`, `Disk.base`, `Disk.Opens`, `Disk.assignAll`.
Key theorems: `Disk.Rooted.walk`, `Disk.exists_opens_of_find`,
`Disk.Opens.locate_name`, `Disk.Opens.find_dots`, `Disk.Opens.settleAll_eq_ok_iff`,
`Disk.Opens.checkFolder_name`, `Disk.locate_of_longer`.
-/
import TenBit.Proofs.Storage.Disk
import TenBit.Proofs.Storage.Path
import TenBit.Proofs.Text.Utf8

namespace TenBit
namespace Disk

variable {d d' : Disk} {f x : Text} {l : Location}

/-! ### Walks meet folders -/

/-- Everything above a location is a folder. -/
def Rooted (d : Disk) (l : Location) : Prop :=
  ∀ a b, l = a ++ b → b ≠ [] → d.get? a = some .folder

theorem rooted_nil (d : Disk) : d.Rooted [] := by
  intro a b h hb
  exact absurd (List.append_eq_nil_iff.1 h.symm).2 hb

theorem Rooted.dropLast (h : d.Rooted l) : d.Rooted l.dropLast := by
  intro a b hab hb
  by_cases hl : l = []
  · subst hl
    exact d.rooted_nil a b hab hb
  · refine h a (b ++ [l.getLast hl]) ?_ (by simp)
    rw [← List.append_assoc, ← hab, List.dropLast_concat_getLast]

theorem Rooted.folder_dropLast (h : d.Rooted l) : d.get? l.dropLast = some .folder := by
  by_cases hl : l = []
  · rw [hl]
    rfl
  · exact h l.dropLast [l.getLast hl] (List.dropLast_concat_getLast hl).symm (by simp)

theorem Rooted.append (h : d.Rooted l) (hl : d.get? l = some .folder) (x : Text) :
    d.Rooted (l ++ [x]) := by
  intro a b hab hb
  obtain ⟨c, y, rfl⟩ : ∃ c y, b = c ++ [y] := ⟨_, _, (List.dropLast_concat_getLast hb).symm⟩
  rw [← List.append_assoc] at hab
  obtain ⟨rfl, -⟩ := List.append_inj' hab rfl
  by_cases hc : c = []
  · simpa [hc] using hl
  · exact h a c rfl hc

/-- A part leads to where everything above is a folder, if it starts there. -/
theorem Steps.rooted {l' : Location} (h : d.Steps l x l') (hl : d.Rooted l) : d.Rooted l' := by
  cases h with
  | stay _ _ => exact hl
  | up _ => exact hl.dropLast
  | down hfolder _ _ _ => exact hl.append hfolder x

/-- What lies above the end of a walk is a folder, if that holds at its start. -/
theorem Rooted.walk {xs : List Text} : ∀ {a : Location}, d.Rooted a → d.walk a xs = .ok l →
    d.Rooted l := by
  induction xs with
  | nil =>
    intro a ha h
    cases h
    exact ha
  | cons x xs ih =>
    intro a ha h
    obtain ⟨b, hx, hb⟩ := walk_cons_eq_ok_iff.1 h
    exact ih (hx.rooted ha) hb

/-! ### Fronts -/

/-- Where the names behind a front are looked up. -/
def base (d : Disk) (f : Text) : Except Obstacle Location := d.walk [] (d.start f ++ Path.way f)

/-- A front leads to a folder of the disk. -/
structure Opens (d : Disk) (f : Text) (l : Location) : Prop where
  front : Path.Front f
  noNul : '\x00' ∉ f
  base : d.base f = .ok l
  folder : d.get? l = some .folder

theorem Opens.rooted (h : d.Opens f l) : d.Rooted l := d.rooted_nil.walk h.base

/-- A front leads to the same folder as long as there are the same folders. -/
theorem Opens.congr (h : d.Opens f l) (hd : d.SameFolders d') : d'.Opens f l :=
  ⟨h.front, h.noNul, by rw [Disk.base, hd.start]; exact hd.walk h.base, (hd.get? l).2 h.folder⟩

/-- A name is looked up where its front leads. -/
theorem walk_append_name (hf : Path.Front f) (hx : '/' ∉ x) :
    d.walk [] (d.start (f ++ x) ++ Path.parts (f ++ x)) =
      (d.base f).bind fun l => d.walk l [x] := by
  rw [Path.parts_append_name hf hx, ← List.append_assoc, walk_append, start,
    Path.isFull_append_name hx]
  rfl

theorem isStay_name (hx : Path.IsName x) : isStay x = false := by
  simp [isStay, hx.ne_nil, hx.ne_dot]

theorem endsInFolder_append (hf : Path.Front f) (hx : '/' ∉ x) :
    endsInFolder (f ++ x) = (isStay x || x == ['.', '.']) := by
  simp [endsInFolder, Path.parts_append_name hf hx]

theorem walk_name (hx : Path.IsName x) (hl : d.get? l = some .folder) :
    d.walk l [x] = if Path.nameFits x then .ok (l ++ [x]) else .error .tooLong := by
  simp [walk, hl, isStay_name hx, hx.ne_dots]

/-- A name that was found is in a folder. -/
theorem Steps.folder_of_name {l' : Location} (hx : Path.IsName x) (h : d.Steps l x l') :
    d.get? l = some .folder ∧ Path.nameFits x = true := by
  cases h with
  | stay _ hstay => simp [isStay_name hx] at hstay
  | up _ => exact absurd rfl hx.ne_dots
  | down hl _ _ hfits => exact ⟨hl, hfits⟩

/-- Where a walk to a name behind a front has come before the name. -/
theorem exists_base_of_walk (hf : Path.Front f) (hx : '/' ∉ x)
    (h : d.walk [] (d.start (f ++ x) ++ Path.parts (f ++ x)) = .ok l) :
    ∃ a, d.base f = .ok a ∧ d.Steps a x l := by
  rw [walk_append_name hf hx] at h
  cases hbase : d.base f with
  | error o =>
    rw [hbase] at h
    cases h
  | ok a =>
    rw [hbase] at h
    exact ⟨a, rfl, steps_of_walk h⟩

/-- **A file lies in the folder its front leads to**, under the name behind
it. -/
theorem exists_opens_of_find {p : Text} {b : List UInt8} (h : d.find p = .ok (.file b)) :
    ∃ f x l, p = f ++ x ∧ d.Opens f l ∧ Path.IsName x ∧ '\x00' ∉ x ∧
      Path.fits p = true ∧ Path.nameFits x = true ∧ d.get? (l ++ [x]) = some (.file b) := by
  obtain ⟨c, hp, hc⟩ := find_eq_ok_iff.1 h
  obtain ⟨hnul, hfits, -, hw⟩ := locate_eq_ok_iff.1 hp
  obtain ⟨f, x, rfl, hf, hx⟩ := Path.exists_front p
  obtain ⟨hnulf, hnulx⟩ : '\x00' ∉ f ∧ '\x00' ∉ x := by simpa [not_or] using hnul
  obtain ⟨l, hbase, hstep⟩ := exists_base_of_walk hf hx hw
  -- only a name leads to a file: every other part stays at a folder or goes up to one
  cases hstep with
  | stay hl _ =>
    rw [hl] at hc
    cases hc
  | up hl =>
    have hopens : d.Opens f l := ⟨hf, hnulf, hbase, hl⟩
    rw [hopens.rooted.folder_dropLast] at hc
    cases hc
  | down hl hstay hdots hfitsx =>
    obtain ⟨hnil, hdot⟩ : x ≠ [] ∧ x ≠ ['.'] := by simpa [isStay] using hstay
    exact ⟨f, x, l, rfl, ⟨hf, hnulf, hbase, hl⟩, ⟨hx, hnil, hdot, hdots⟩, hnulx, hfits, hfitsx, hc⟩

/-- Where a name behind a front leads. -/
theorem Opens.locate_name (h : d.Opens f l) (hx : Path.IsName x) (hnul : '\x00' ∉ x) :
    d.locate (f ++ x) =
      if Path.fits (f ++ x) ∧ Path.nameFits x then .ok (l ++ [x]) else .error .tooLong := by
  have hnul' : '\x00' ∉ f ++ x := by simp [h.noNul, hnul]
  by_cases hfits : Path.fits (f ++ x) = true
  · rw [d.locate_eq_walk hnul' hfits (by simp [hx.ne_nil]), walk_append_name h.front hx.noSlash,
      h.base]
    show d.walk l [x] = _
    rw [walk_name hx h.folder]
    simp [hfits]
  · rw [locate, if_neg hnul', if_pos (by simpa using hfits), if_neg fun h => hfits h.1]

/-- Two dots behind a front lead to a folder. -/
theorem Opens.find_dots (h : d.Opens f l) (hfits : Path.fits (f ++ ['.', '.']) = true) :
    d.find (f ++ ['.', '.']) = .ok .folder := by
  refine find_eq_ok_iff.2 ⟨l.dropLast, ?_, h.rooted.folder_dropLast⟩
  refine locate_eq_ok_iff.2 ⟨by simp [h.noNul], hfits, by simp, ?_⟩
  rw [walk_append_name h.front (by decide), h.base]
  exact (Steps.up h.folder).walk

/-- No file can be put at two dots. -/
theorem replace_dots_ne_ok (hf : Path.Front f) (b : List UInt8) (d' : Disk) :
    d.replace (f ++ ['.', '.']) b ≠ .ok d' := by
  unfold replace
  have hend : endsInFolder (f ++ ['.', '.']) = true := by
    rw [endsInFolder_append hf (by decide)]
    rfl
  split
  · nofun
  · simp [hend]

/-- What a step at a name behind a front comes to. -/
theorem Opens.settle_eq_ok_iff (h : d.Opens f l) (hx : Path.IsName x) (hnul : '\x00' ∉ x)
    {t : Option Text} :
    d.settle (f ++ x) t = .ok d' ↔
      (Path.fits (f ++ x) = true ∧ Path.nameFits x = true) ∧ d.get? (l ++ [x]) ≠ some .folder ∧
        d' = d.assign (l ++ [x]) (t.map textFile) := by
  have hend : endsInFolder (f ++ x) = false := by
    rw [endsInFolder_append h.front hx.noSlash, isStay_name hx]
    simpa using hx.ne_dots
  by_cases hfits : Path.fits (f ++ x) = true ∧ Path.nameFits x = true
  · have hp : d.locate (f ++ x) = .ok (l ++ [x]) := by
      rw [h.locate_name hx hnul, if_pos hfits]
    cases t with
    | some t =>
      cases hl : d.get? (l ++ [x]) with
      | none => simp [settle, replace, hp, hend, hl, hfits, assign, textFile, eq_comm]
      | some n =>
        cases n <;> simp [settle, replace, hp, hend, hl, hfits, assign, textFile, eq_comm]
    | none =>
      cases hl : d.get? (l ++ [x]) with
      | none =>
        simp [settle, clear, remove, hp, hl, hfits, assign, erase_of_get?_eq_none hl, eq_comm]
      | some n => cases n <;> simp [settle, clear, remove, hp, hl, hfits, assign, eq_comm]
  · have hp : d.locate (f ++ x) = .error .tooLong := by
      rw [h.locate_name hx hnul, if_neg hfits]
    cases t <;> simp [settle, clear, remove, replace, hp, hfits]

/-! ### Several names -/

/-- The disk with some files in a folder, each with its text; one without a
text is gone. -/
def assignAll (l : Location) : Disk → List (Text × Option Text) → Disk
  | d, [] => d
  | d, (x, t) :: files => (d.assign (l ++ [x]) (t.map textFile)).assignAll l files

theorem get?_assignAll_of_ne {a : Location} : ∀ {files : List (Text × Option Text)} {d : Disk},
    (∀ file ∈ files, a ≠ l ++ [file.1]) → (d.assignAll l files).get? a = d.get? a
  | [], _, _ => rfl
  | (x, t) :: files, d, h => by
    obtain ⟨hx, hfiles⟩ := List.forall_mem_cons.1 h
    rw [assignAll, get?_assignAll_of_ne hfiles, get?_assign (by simp), if_neg hx]

theorem get?_assignAll_of_mem {t : Option Text} : ∀ {files : List (Text × Option Text)} {d : Disk},
    (files.map Prod.fst).Nodup → (x, t) ∈ files →
      (d.assignAll l files).get? (l ++ [x]) = t.map textFile
  | (y, u) :: files, d, hnodup, h => by
    obtain ⟨hy, hrest⟩ := List.nodup_cons.1 hnodup
    rcases List.mem_cons.1 h with h | h
    · cases h
      rw [assignAll, get?_assignAll_of_ne, get?_assign (by simp), if_pos rfl]
      intro file hfile he
      have : x = file.1 := by simpa using he
      exact hy (List.mem_map.2 ⟨file, hfile, this.symm⟩)
    · rw [assignAll]
      exact get?_assignAll_of_mem hrest h

/-- Steps at several names behind a front succeed exactly if each name can be
followed and is not that of a folder. -/
theorem Opens.settleAll_eq_ok_iff {files : List (Text × Option Text)} (h : d.Opens f l)
    (hnames : ∀ file ∈ files, Path.IsName file.1 ∧ '\x00' ∉ file.1) :
    d.settleAll (files.map fun file => (f ++ file.1, file.2)) = .ok d' ↔
      (∀ file ∈ files, (Path.fits (f ++ file.1) = true ∧ Path.nameFits file.1 = true) ∧
        d.get? (l ++ [file.1]) ≠ some .folder) ∧ d' = d.assignAll l files := by
  induction files generalizing d with
  | nil =>
    rw [List.map_nil, settleAll, assignAll]
    exact ⟨fun h => ⟨by simp, (Except.ok.inj h).symm⟩, fun h => congrArg Except.ok h.2.symm⟩
  | cons file files ih =>
    obtain ⟨x, t⟩ := file
    obtain ⟨⟨hx, hnul⟩, hnames⟩ := List.forall_mem_cons.1 hnames
    rw [List.map_cons, settleAll_cons_eq_ok_iff, List.forall_mem_cons, assignAll]
    simp only [h.settle_eq_ok_iff hx hnul]
    -- the steps behind the first see the same folders
    have hrest : d.get? (l ++ [x]) ≠ some .folder →
        d.SameFolders (d.assign (l ++ [x]) (t.map textFile)) := fun hfolder =>
      sameFolders_assign hfolder (by cases t <;> simp [textFile])
    constructor
    · rintro ⟨e, ⟨hfits, hfolder, rfl⟩, he⟩
      obtain ⟨hfiles, rfl⟩ := (ih (h.congr (hrest hfolder)) hnames).1 he
      refine ⟨⟨⟨hfits, hfolder⟩, fun file hfile => ⟨(hfiles file hfile).1, fun hf => ?_⟩⟩, rfl⟩
      exact (hfiles file hfile).2 (((hrest hfolder).get? _).2 hf)
    · rintro ⟨⟨⟨hfits, hfolder⟩, hfiles⟩, rfl⟩
      refine ⟨_, ⟨hfits, hfolder, rfl⟩, (ih (h.congr (hrest hfolder)) hnames).2
        ⟨fun file hfile => ⟨(hfiles file hfile).1, fun hf => ?_⟩, rfl⟩⟩
      exact (hfiles file hfile).2 (((hrest hfolder).get? _).1 hf)

/-! ### Waiting files -/

/-- What does not count at the end of a path makes no difference to a walk. -/
theorem walk_dropEnd {a : Location} {t : Text} (h : d.walk a (Path.parts t.reverse) = .ok l) :
    d.walk a (Path.parts (Path.dropEnd t).reverse) = .ok l := by
  -- a part that stays leaves a walk where it was before it
  have hstay : ∀ (part : Text) (xs : List Text), isStay part = true →
      d.walk a (xs ++ [part]) = .ok l → d.walk a xs = .ok l := by
    intro part xs hpart hw
    obtain ⟨b, hxs, hb⟩ := walk_append_eq_ok_iff.1 hw
    cases steps_of_walk hb with
    | stay _ _ => exact hxs
    | up _ => cases hpart
    | down _ hmoves _ _ =>
      rw [hpart] at hmoves
      cases hmoves
  fun_induction Path.dropEnd t with
  | case1 t ih =>
    rw [List.reverse_cons, Path.parts_append_slash] at h
    exact ih (hstay [] _ rfl h)
  | case2 t ih =>
    rw [List.reverse_cons, List.reverse_cons, List.append_assoc, List.singleton_append,
      Path.parts_append_slash] at h
    exact ih (hstay ['.'] _ rfl h)
  | case3 t => exact h

/-- What does not count at the end of a front makes no difference to where it
leads. -/
theorem base_dropEnd {g : Text} (h : d.base (g ++ ['/']) = .ok l) :
    ∃ a, d.walk [] (d.start (g ++ ['/'])) = .ok a ∧
      d.walk a (Path.parts (Path.dropEnd g.reverse).reverse) = .ok l := by
  rw [base, Path.way_append_slash] at h
  obtain ⟨a, ha, hl⟩ := walk_append_eq_ok_iff.1 h
  exact ⟨a, ha, walk_dropEnd (by rwa [List.reverse_reverse])⟩

/-- The folder of a path leads where its front does. -/
theorem Opens.folder_name (h : d.Opens f l) (hx : Path.IsName x) :
    d.Opens (Path.folder (f ++ x) ++ ['/']) l := by
  rcases Path.folder_cases h.front hx with ⟨rfl, hfolder⟩ | ⟨hf, hend, hfolder⟩ | ⟨hend, hfolder⟩
  · rw [hfolder]
    refine ⟨.inr ⟨_, rfl⟩, by decide, ?_, h.folder⟩
    have hbase : d.walk [] (d.here ++ []) = .ok l := h.base
    rw [List.append_nil] at hbase
    exact walk_append_eq_ok_iff.2 ⟨l, hbase, (Steps.stay h.folder rfl).walk⟩
  · obtain ⟨g, rfl⟩ := h.front.resolve_left hf
    have hnil : Path.dropEnd g.reverse = [] := by simpa [Path.dropEnd] using hend
    obtain ⟨a, ha, hl⟩ := base_dropEnd h.base
    rw [start, if_pos (Path.isFull_of_dropEnd_eq_nil hf hend)] at ha
    cases ha
    rw [hnil] at hl
    cases hl
    rw [hfolder]
    exact ⟨.inr ⟨_, rfl⟩, by decide, rfl, rfl⟩
  · have hf : f ≠ [] := by
      rintro rfl
      exact hend rfl
    obtain ⟨g, rfl⟩ := h.front.resolve_left hf
    have hsame : Path.dropEnd (g ++ ['/']).reverse = Path.dropEnd g.reverse := by
      simp [Path.dropEnd]
    rw [hsame] at hend hfolder
    obtain ⟨a, ha, hl⟩ := base_dropEnd h.base
    rw [hfolder]
    refine ⟨.inr ⟨_, rfl⟩, fun hmem => ?_, ?_, h.folder⟩
    · have hmem : '\x00' ∈ Path.dropEnd g.reverse := by simpa using hmem
      exact h.noNul (by simpa using (Path.dropEnd_suffix g.reverse).subset hmem)
    · rw [Disk.base, Path.way_append_slash, start, Path.isFull_dropEnd hend]
      exact walk_append_eq_ok_iff.2 ⟨a, ha, hl⟩

/-- A file can wait beside a name unless its path is too long. -/
theorem Opens.checkFolder_name (h : d.Opens f l) (hx : Path.IsName x) :
    d.checkFolder (Path.folder (f ++ x)) =
      if Path.fullSize d.hereSize (Path.waiting (Path.folder (f ++ x)) 0) ≤ Path.longest then .ok ()
      else .error .tooLong := by
  have hfolder := h.folder_name hx
  generalize hg : Path.folder (f ++ x) = g at hfolder ⊢
  -- the name under which a file waits
  have hwaiting : Path.waiting g 0 = (g ++ ['/']) ++ ".000000000".toList := by
    rw [Path.waiting, List.append_assoc]
    rfl
  have hname : Path.IsName ".000000000".toList := by
    constructor <;> decide
  by_cases hlong : Path.fullSize d.hereSize (Path.waiting g 0) ≤ Path.longest
  · have hfits : Path.fits (Path.waiting g 0) = true := by
      simp only [Path.fits, decide_eq_true_eq]
      unfold Path.fullSize at hlong
      split at hlong <;> omega
    have hlocate := hfolder.locate_name hname (by decide)
    rw [← hwaiting, if_pos ⟨hfits, by decide⟩] at hlocate
    rw [checkFolder, if_neg (by omega), hlocate, if_pos hlong]
    rfl
  · rw [checkFolder, if_pos (by omega), if_neg hlong]

/-- A path that is not shorter than another one is not easier to follow. -/
theorem locate_of_longer {y : Text} (hf : Path.Front f) (hx : Path.IsName x)
    (hy : Path.IsName y) (hnul : '\x00' ∈ x → '\x00' ∈ y) (hsize : Utf8.size x ≤ Utf8.size y)
    (h : d.locate (f ++ y) = .ok l) : ∃ l', d.locate (f ++ x) = .ok l' := by
  obtain ⟨hnuly, hfits, -, hw⟩ := locate_eq_ok_iff.1 h
  obtain ⟨a, hbase, hstep⟩ := exists_base_of_walk hf hy.noSlash hw
  obtain ⟨ha, hname⟩ := hstep.folder_of_name hy
  have hnuly : '\x00' ∉ f ∧ '\x00' ∉ y := by simpa [not_or] using hnuly
  have hopens : d.Opens f a := ⟨hf, hnuly.1, hbase, ha⟩
  refine ⟨_, (hopens.locate_name hx fun h => hnuly.2 (hnul h)).trans (if_pos ⟨?_, ?_⟩)⟩
  · simp only [Path.fits, Utf8.size_append, decide_eq_true_eq] at hfits ⊢
    omega
  · simp only [Path.nameFits, decide_eq_true_eq] at hname ⊢
    omega

end Disk
end TenBit
