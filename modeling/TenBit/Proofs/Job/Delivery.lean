/-
# What a job delivers

A job on a source that can be read succeeds exactly if the source is a program,
no folder is in the way of its files, and none of the paths involved is too
long. Then its files hold the texts of the program, and those that it does not
need are gone. Whether it succeeds or not, the job touches nothing but its own
files, and the expanded source only if it is asked for and there is one.

The limit on lengths cannot be left out: the files of a source can have longer
names than the source itself.

Key definitions: `Path.InLimits`, `Disk.Holds`, `OutputPaths.ofStem`,
`OutputPaths.behind`, `Job.targets`, `Job.Delivered`.
Key theorems: `OutputPaths.exists_opens_ofSource`,
`Job.perform_build_behind_eq_ok_iff`, `Job.exists_perform_build_iff`,
`Job.delivered_of_perform_build`, `Job.assembleFile_delivers`.
-/
import TenBit.Proofs.Job.Build
import TenBit.Proofs.Storage.Front

namespace TenBit

/-- A path, the name in it, and the path of a file that waits beside it are
short enough, where the path of the folder one is in has `hereSize` bytes. -/
def Path.InLimits (hereSize : Nat) (p : Text) : Prop :=
  fits p = true ∧ nameFits (cut p).2 = true ∧ fullSize hereSize (waiting (folder p) 0) ≤ longest

/-- There is a text at a path, or nothing. -/
def Disk.Holds (d : Disk) (p : Text) (t : Option Text) : Prop :=
  d.find p =
    match t with
    | some t => .ok (textFile t)
    | none => .error .missing

/-! ### The files of a source -/

namespace OutputPaths

/-- The names of the files with a stem. -/
def ofStem (s : Text) : OutputPaths where
  expanded := s ++ '.' :: "am".toList
  object := s ++ '.' :: "ob".toList
  entries := s ++ '.' :: "ent".toList
  externals := s ++ '.' :: "ext".toList

/-- The paths of some names behind a front. -/
def behind (f : Text) (names : OutputPaths) : OutputPaths where
  expanded := f ++ names.expanded
  object := f ++ names.object
  entries := f ++ names.entries
  externals := f ++ names.externals

/-- Two dots in the place of each name. -/
def dots : OutputPaths := ⟨['.', '.'], ['.', '.'], ['.', '.'], ['.', '.']⟩

/-- The files of a source have its stem, behind its front. If its name starts
with two dots and its extension follows them, all its files are the folder those
two dots lead to. -/
theorem ofSource_cases {f x : Text} (hf : Path.Front f) (hx : Path.IsName x) :
    ((∃ e, x = ['.', '.'] ++ e) ∧ ofSource (f ++ x) = dots.behind f) ∨
      ∃ s, s ≠ [] ∧ s ⊆ x ∧ ofSource (f ++ x) = (ofStem s).behind f := by
  simp only [ofSource, Path.withExtension_append_name hf hx]
  rcases Path.splitName_cases x with hn | ⟨s, e, hs, hxs, hn⟩
  · exact .inr ⟨x, hx.ne_nil, List.Subset.refl _, by simp [hn, behind, ofStem]⟩
  · by_cases hdot : s = ['.']
    · exact .inl ⟨⟨e, by simp [hxs, hdot]⟩, by simp [hn, hdot, behind, dots]⟩
    · exact .inr ⟨s, hs, by simp [hxs], by simp [hn, hdot, behind, ofStem]⟩

/-- The paths of all files of a source. -/
def toList (paths : OutputPaths) : List Text :=
  [paths.expanded, paths.object, paths.entries, paths.externals]

theorem nodup_ofStem (s : Text) : (ofStem s).toList.Nodup := by
  simp [toList, ofStem]

theorem isName_of_mem_ofStem {s x : Text} (hs : s ≠ []) (hslash : '/' ∉ s) (hnul : '\x00' ∉ s)
    (hx : x ∈ (ofStem s).toList) : Path.IsName x ∧ '\x00' ∉ x := by
  have hname : ∀ e, e ≠ [] ∧ '/' ∉ e ∧ '\x00' ∉ e →
      Path.IsName (s ++ '.' :: e) ∧ '\x00' ∉ s ++ '.' :: e := fun e he =>
    ⟨Path.isName_append_extension hslash hs he.2.1 he.1, by simp [hnul, he.2.2]⟩
  simp only [toList, ofStem, List.mem_cons, List.not_mem_nil, or_false] at hx
  rcases hx with rfl | rfl | rfl | rfl <;> exact hname _ (by decide)

/-- The files of a source that is a file lie in the folder the source is in, or
all of them are the folder above it. -/
theorem exists_opens_ofSource {d : Disk} {p : Text} {b : List UInt8}
    (hp : d.find p = .ok (.file b)) :
    ∃ f l, d.Opens f l ∧
      ((Path.fits (f ++ ['.', '.']) = true ∧ ofSource p = dots.behind f) ∨
        ∃ s, (∀ x ∈ (ofStem s).toList, Path.IsName x ∧ '\x00' ∉ x) ∧
          ofSource p = (ofStem s).behind f) := by
  obtain ⟨f, x, l, rfl, hopens, hx, hnul, hfits, -, -⟩ := Disk.exists_opens_of_find hp
  refine ⟨f, l, hopens, ?_⟩
  rcases ofSource_cases hopens.front hx with ⟨⟨e, rfl⟩, hpaths⟩ | ⟨s, hs, hsx, hpaths⟩
  · refine .inl ⟨?_, hpaths⟩
    simp only [Path.fits, decide_eq_true_eq, Utf8.size_append] at hfits ⊢
    omega
  · exact .inr ⟨s, fun y hy => isName_of_mem_ofStem hs (fun h => hx.noSlash (hsx h))
      (fun h => hnul (hsx h)) hy, hpaths⟩

end OutputPaths

namespace Job

variable {w w' : World} {f s : Text} {l : Location}

/-- The paths of the files of a source. That of the expanded source is one of
them if it is asked for. -/
def targets (options : Options) (paths : OutputPaths) : List Text :=
  (if options.expanded then [paths.expanded] else []) ++
    [paths.object, paths.entries, paths.externals]

theorem map_fst_files (options : Options) (paths : OutputPaths) (t : Program) :
    (files options paths t).map Prod.fst = targets options paths := by
  cases h : options.expanded <;> simp [files, targets, outputs, h]

theorem files_behind (options : Options) (names : OutputPaths) (t : Program) :
    files options (names.behind f) t =
      (files options names t).map fun file => (f ++ file.1, file.2) := by
  cases h : options.expanded <;> simp [files, outputs, OutputPaths.behind, h]

theorem targets_sublist (options : Options) (paths : OutputPaths) :
    (targets options paths).Sublist paths.toList := by
  cases h : options.expanded <;> simp [targets, OutputPaths.toList, h]

theorem targets_behind (options : Options) (names : OutputPaths) :
    targets options (names.behind f) = (targets options names).map fun x => f ++ x := by
  cases h : options.expanded <;> simp [targets, OutputPaths.behind, h]

/-! ### Files behind one front -/

section Behind

variable (hopens : w.disk.Opens f l)
include hopens

theorem canStage_name_iff {x : Text} (hx : Path.IsName x) :
    w.CanStage (f ++ x) ↔
      Path.fullSize w.disk.hereSize (Path.waiting (Path.folder (f ++ x)) 0) ≤ Path.longest := by
  rw [World.CanStage, hopens.checkFolder_name hx]
  split <;> simp_all

/-- What the files of a source can be put in place at: no folder, and nothing
too long. -/
theorem target_iff {x : Text} (hx : Path.IsName x) (hnul : '\x00' ∉ x) :
    (¬ w.disk.HasFolder (f ++ x) ∧ Path.InLimits w.disk.hereSize (f ++ x)) ↔
      ((Path.fits (f ++ x) = true ∧ Path.nameFits x = true) ∧
        w.disk.get? (l ++ [x]) ≠ some .folder) ∧ w.CanStage (f ++ x) := by
  rw [canStage_name_iff hopens hx, Path.InLimits, Path.cut_append_name hopens.front hx,
    Disk.HasFolder, Disk.find_eq_ok_iff, hopens.locate_name hx hnul]
  by_cases hfits : Path.fits (f ++ x) = true ∧ Path.nameFits x = true
  · simp [hfits]
  · simp only [hfits, if_false, false_and, iff_false]
    exact fun h => hfits ⟨h.2.1, h.2.2.1⟩

/-- A file can wait beside one name behind a front if it can beside another. -/
theorem canStage_congr {x y : Text} (hx : Path.IsName x) (hy : Path.IsName y)
    (h : w.CanStage (f ++ x)) : w.CanStage (f ++ y) := by
  rw [canStage_name_iff hopens hx, Path.folder_append_name hopens.front hx hy] at h
  rwa [canStage_name_iff hopens hy]

/-- **The files of a source are put in place exactly if it is a program and
nothing is in their way.** -/
theorem perform_build_behind_eq_ok_iff {names : OutputPaths}
    (hnames : ∀ x ∈ names.toList, Path.IsName x ∧ '\x00' ∉ x) {options : Options} {file : Text}
    {input : Input} {t : Program} :
    perform (build options (names.behind f) file input) w = (.ok t, w') ↔
      Program.assemble file input = .ok t ∧
        (∀ q ∈ targets options (names.behind f),
          ¬ w.disk.HasFolder q ∧ Path.InLimits w.disk.hereSize q) ∧
        w' = { w with disk := w.disk.assignAll l (files options names t) } := by
  have hfile : ∀ g ∈ files options names t, Path.IsName g.1 ∧ '\x00' ∉ g.1 := by
    intro g hg
    refine hnames _ ((targets_sublist options names).subset ?_)
    rw [← map_fst_files options names t]
    exact List.mem_map_of_mem hg
  have hobject : (names.object, some t.image.objectText) ∈ files options names t := by
    simp [files, outputs]
  rw [perform_build_eq_ok_iff, files_behind, targets_behind, ← map_fst_files options names t]
  simp only [List.forall_mem_map, hopens.settleAll_eq_ok_iff hfile]
  constructor
  · rintro ⟨ht, hstage, d, ⟨hd, rfl⟩, rfl⟩
    refine ⟨ht, fun g hg => ?_, rfl⟩
    rw [target_iff hopens (hfile g hg).1 (hfile g hg).2]
    exact ⟨hd g hg, canStage_congr hopens (hfile _ hobject).1 (hfile g hg).1 (hstage _ hobject rfl)⟩
  · rintro ⟨ht, htargets, rfl⟩
    have hall : ∀ g ∈ files options names t, _ := fun g hg =>
      (target_iff hopens (hfile g hg).1 (hfile g hg).2).1 (htargets g hg)
    exact ⟨ht, fun g hg _ => (hall g hg).2, _, ⟨fun g hg => (hall g hg).1, rfl⟩, rfl⟩

omit hopens in
/-- What there is at a name behind a front. -/
theorem holds_name {d : Disk} (hd : d.Opens f l) {x : Text} (hx : Path.IsName x)
    (hnul : '\x00' ∉ x) (hfits : Path.fits (f ++ x) = true ∧ Path.nameFits x = true)
    {t : Option Text} (ht : d.get? (l ++ [x]) = t.map Disk.textFile) : d.Holds (f ++ x) t := by
  unfold Disk.Holds Disk.find
  rw [hd.locate_name hx hnul, if_pos hfits]
  cases t <;> simp [ht]

/-- Where nothing was written or removed, all is as before. -/
theorem find_name_eq_of_edits {qs : List Text} (hedits : w.Edits qs w') {x : Text}
    (hx : Path.IsName x) (hnul : '\x00' ∉ x)
    (hqs : ∀ q ∈ qs, ∃ y, Path.IsName y ∧ '\x00' ∉ y ∧ y ≠ x ∧ q = f ++ y) :
    w'.disk.find (f ++ x) = w.disk.find (f ++ x) := by
  have hget : w'.disk.get? (l ++ [x]) = w.disk.get? (l ++ [x]) := by
    by_cases hsame : w'.disk.get? (l ++ [x]) = w.disk.get? (l ++ [x])
    · exact hsame
    · obtain ⟨q, hq, hlocate⟩ := hedits.disk.frame _ hsame
      obtain ⟨y, hy, hnuly, hne, rfl⟩ := hqs q hq
      rw [hopens.locate_name hy hnuly] at hlocate
      split at hlocate
      · exact absurd (by simpa using hlocate) hne
      · cases hlocate
  unfold Disk.find
  rw [hopens.locate_name hx hnul, (hopens.congr hedits.disk.folders).locate_name hx hnul]
  by_cases hfits : Path.fits (f ++ x) = true ∧ Path.nameFits x = true
  · simp only [if_pos hfits, hget]
  · simp only [if_neg hfits]

end Behind

/-! ### Jobs on a source that can be read -/

/-- The files of a program are in their places, and those it does not need are
gone; the expanded source is as before if it was not asked for. -/
structure Delivered (options : Options) (paths : OutputPaths) (t : Program) (d d' : Disk) :
    Prop where
  object : d'.Holds paths.object (some t.image.objectText)
  entries : d'.Holds paths.entries t.symbols.entriesText?
  externals : d'.Holds paths.externals t.image.externalsText?
  expanded : options.expanded = true → d'.Holds paths.expanded (some t.expandedText)
  kept : options.expanded = false → d'.find paths.expanded = d.find paths.expanded

theorem perform_assembleFile_of_find {options : Options} {p : Text} {b : List UInt8}
    (hp : w.disk.find p = .ok (.file b)) (hlist : options.list = false) :
    perform (assembleFile options p) w =
      match perform (build options (.ofSource p) p { bytes := b }) w with
      | (.error e, v) => (.error e, (perform (discard (.ofSource p)) v).2)
      | (.ok t, v) => (.ok t, v) := by
  have hread : w.disk.read p = .ok { bytes := b } := by simp [Disk.read, hp]
  rw [perform_assembleFile, hread]
  cases h : perform (build options (.ofSource p) p { bytes := b }) w with
  | mk r v =>
    cases r <;> simp [h, hlist]

/-- A job touches the paths it is to touch at most. -/
theorem edits_assembleFile {options : Options} {p : Text} {b : List UInt8}
    (hp : w.disk.find p = .ok (.file b)) (hlist : options.list = false) :
    w.Edits (touched options (.ofSource p) p { bytes := b })
      (perform (assembleFile options p) w).2 := by
  have hbuild := editsOnly_build options (.ofSource p) p { bytes := b } w
  rw [perform_assembleFile_of_find hp hlist]
  cases h : perform (build options (.ofSource p) p { bytes := b }) w with
  | mk r v =>
    rw [h] at hbuild
    cases r with
    | ok t => exact hbuild
    | error e => exact hbuild.trans (editsOnly_discard (List.subset_append_right _ _) v)

theorem touched_subset (options : Options) (paths : OutputPaths) (file : Text) (input : Input) :
    touched options paths file input ⊆ paths.toList := by
  intro q hq
  simp only [touched, List.mem_append] at hq
  rcases hq with hq | hq
  · split at hq
    · simp_all [OutputPaths.toList]
    · cases hq
  · exact List.mem_cons_of_mem _ hq

/-- The expanded source is as before if only the other files were edited. -/
theorem find_expanded_eq_of_edits {p : Text} {b : List UInt8}
    (hp : w.disk.find p = .ok (.file b))
    (hedits : w.Edits [(OutputPaths.ofSource p).object, (OutputPaths.ofSource p).entries,
      (OutputPaths.ofSource p).externals] w') :
    w'.disk.find (OutputPaths.ofSource p).expanded =
      w.disk.find (OutputPaths.ofSource p).expanded := by
  obtain ⟨f, l, hopens, ⟨hfits, hpaths⟩ | ⟨s, hnames, hpaths⟩⟩ :=
    OutputPaths.exists_opens_ofSource hp
  · rw [hpaths]
    show w'.disk.find (f ++ ['.', '.']) = w.disk.find (f ++ ['.', '.'])
    have hfolder := hopens.find_dots hfits
    rw [hfolder, hedits.disk.folders.find hfolder]
  · rw [hpaths] at hedits ⊢
    have hmem : (OutputPaths.ofStem s).expanded ∈ (OutputPaths.ofStem s).toList :=
      List.mem_cons_self
    refine find_name_eq_of_edits hopens hedits (hnames _ hmem).1 (hnames _ hmem).2 fun q hq => ?_
    obtain ⟨y, hy, rfl⟩ : ∃ y ∈ [(OutputPaths.ofStem s).object, (OutputPaths.ofStem s).entries,
        (OutputPaths.ofStem s).externals], q = f ++ y := by
      simpa [OutputPaths.behind] using hq
    have hname := hnames y (List.mem_cons_of_mem _ hy)
    refine ⟨y, hname.1, hname.2, ?_, rfl⟩
    rintro rfl
    exact (List.nodup_cons.1 (OutputPaths.nodup_ofStem s)).1 hy

/-- A source is built exactly if it is a program and nothing is in the way of
its files. -/
theorem exists_perform_build_iff {options : Options} {p : Text} {b : List UInt8}
    (hp : w.disk.find p = .ok (.file b)) {input : Input} {t : Program} :
    (∃ v, perform (build options (.ofSource p) p input) w = (.ok t, v)) ↔
      Program.assemble p input = .ok t ∧ ∀ q ∈ targets options (.ofSource p),
        ¬ w.disk.HasFolder q ∧ Path.InLimits w.disk.hereSize q := by
  obtain ⟨f, l, hopens, ⟨hfits, hpaths⟩ | ⟨s, hnames, hpaths⟩⟩ :=
    OutputPaths.exists_opens_ofSource hp
  · rw [hpaths]
    constructor
    · rintro ⟨v, hv⟩
      obtain ⟨-, -, d, hd, -⟩ := perform_build_eq_ok_iff.1 hv
      -- whichever file is first, it would have to take the place of a folder
      obtain ⟨c, rest, hfiles⟩ : ∃ c rest, files options (OutputPaths.dots.behind f) t =
          (f ++ ['.', '.'], some c) :: rest := by
        unfold files
        cases options.expanded with
        | false => exact ⟨_, _, rfl⟩
        | true => exact ⟨_, _, rfl⟩
      rw [hfiles, Disk.settleAll_cons_eq_ok_iff] at hd
      obtain ⟨e, he, -⟩ := hd
      exact absurd he (Disk.replace_dots_ne_ok hopens.front _ e)
    · rintro ⟨-, htargets⟩
      have hmem : f ++ ['.', '.'] ∈ targets options (OutputPaths.dots.behind f) := by
        simp [targets, OutputPaths.behind, OutputPaths.dots]
      exact absurd (hopens.find_dots hfits) (htargets _ hmem).1
  · rw [hpaths]
    simp only [perform_build_behind_eq_ok_iff hopens hnames]
    constructor
    · rintro ⟨v, ht, htargets, -⟩
      exact ⟨ht, htargets⟩
    · rintro ⟨ht, htargets⟩
      exact ⟨_, ht, htargets, rfl⟩

/-- The files of a source that was built are in their places. -/
theorem delivered_of_perform_build {options : Options} {p : Text} {b : List UInt8}
    (hp : w.disk.find p = .ok (.file b)) {input : Input} {t : Program}
    (h : perform (build options (.ofSource p) p input) w = (.ok t, w')) :
    Delivered options (.ofSource p) t w.disk w'.disk := by
  have hedits := editsOnly_build options (.ofSource p) p input w
  rw [h] at hedits
  obtain ⟨-, htargets⟩ := (exists_perform_build_iff hp).1 ⟨w', h⟩
  have hkept : options.expanded = false →
      w'.disk.find (OutputPaths.ofSource p).expanded =
        w.disk.find (OutputPaths.ofSource p).expanded := by
    intro hexpanded
    refine find_expanded_eq_of_edits hp ?_
    simpa [touched, hexpanded] using hedits
  obtain ⟨f, l, hopens, ⟨hfits, hpaths⟩ | ⟨s, hnames, hpaths⟩⟩ :=
    OutputPaths.exists_opens_ofSource hp
  · -- there is a folder in the way, so that nothing was built
    have hmem : f ++ ['.', '.'] ∈ targets options (.ofSource p) := by
      simp [hpaths, targets, OutputPaths.behind, OutputPaths.dots]
    exact absurd (hopens.find_dots hfits) (htargets _ hmem).1
  · rw [hpaths] at h htargets ⊢
    obtain ⟨-, -, hw'⟩ := (perform_build_behind_eq_ok_iff hopens hnames).1 h
    have hholds : ∀ g ∈ files options (.ofStem s) t, w'.disk.Holds (f ++ g.1) g.2 := by
      intro g hg
      have hmem : g.1 ∈ targets options (.ofStem s) := by
        rw [← map_fst_files options _ t]
        exact List.mem_map_of_mem hg
      have hname := hnames _ ((targets_sublist options _).subset hmem)
      have htarget := htargets (f ++ g.1) (by
        rw [targets_behind]
        exact List.mem_map_of_mem hmem)
      refine holds_name (hopens.congr hedits.disk.folders) hname.1 hname.2
        ((target_iff hopens hname.1 hname.2).1 htarget).1.1 ?_
      rw [hw']
      refine Disk.get?_assignAll_of_mem ?_ hg
      rw [map_fst_files]
      exact (OutputPaths.nodup_ofStem s).sublist (targets_sublist options _)
    exact {
      object := hholds ((OutputPaths.ofStem s).object, some t.image.objectText)
        (by simp [files, outputs])
      entries := hholds ((OutputPaths.ofStem s).entries, t.symbols.entriesText?)
        (by simp [files, outputs])
      externals := hholds ((OutputPaths.ofStem s).externals, t.image.externalsText?)
        (by simp [files, outputs])
      expanded := fun hexpanded =>
        hholds ((OutputPaths.ofStem s).expanded, some t.expandedText) (by simp [files, hexpanded])
      kept := hpaths ▸ hkept }

/-- **A job delivers what assembling its source gives, and touches nothing
else.** A job on a source that can be read, without a listing, succeeds with a
program exactly if assembling the source gives that program, no folder is in
the way of a file that is to be written or removed, and none of their paths is
too long. Then all files are in their places. In any case nothing changes at
other locations or besides the disk, and the expanded source is as before if it
is not asked for or if the source cannot be expanded. -/
theorem assembleFile_delivers {options : Options} {p : Text} {b : List UInt8} {w : World}
    (hp : w.disk.find p = .ok (.file b)) (hlist : options.list = false) :
    ∃ r w', perform (assembleFile options p) w = (r, w') ∧
      (∀ t, r = .ok t ↔ Program.assemble p { bytes := b } = .ok t ∧
        ∀ q ∈ targets options (.ofSource p),
          ¬ w.disk.HasFolder q ∧ Path.InLimits w.disk.hereSize q) ∧
      (∀ t, r = .ok t → Delivered options (.ofSource p) t w.disk w'.disk) ∧
      (∀ a, (∀ q ∈ (OutputPaths.ofSource p).toList, w.disk.locate q ≠ .ok a) →
        w'.disk.get? a = w.disk.get? a) ∧
      w' = { w with disk := w'.disk } ∧
      (options.expanded = false ∨ (Expansion.ofFile p { bytes := b }).isOk = false →
        w'.disk.find (OutputPaths.ofSource p).expanded =
          w.disk.find (OutputPaths.ofSource p).expanded) := by
  have hedits := edits_assembleFile hp hlist
  refine ⟨(perform (assembleFile options p) w).1, (perform (assembleFile options p) w).2, rfl,
    ?_, ?_, ?_, hedits.rest, ?_⟩
  · intro t
    rw [← exists_perform_build_iff hp, perform_assembleFile_of_find hp hlist]
    cases perform (build options (.ofSource p) p { bytes := b }) w with
    | mk r v => cases r <;> simp
  · intro t ht
    rw [perform_assembleFile_of_find hp hlist] at ht ⊢
    cases hbuild : perform (build options (.ofSource p) p { bytes := b }) w with
    | mk r v =>
      rw [hbuild] at ht
      cases r with
      | error e => cases ht
      | ok t' =>
        cases ht
        exact delivered_of_perform_build hp hbuild
  · intro a ha
    by_cases hsame : (perform (assembleFile options p) w).2.disk.get? a = w.disk.get? a
    · exact hsame
    · obtain ⟨q, hq, hlocate⟩ := hedits.disk.frame a hsame
      exact absurd hlocate (ha q (touched_subset _ _ _ _ hq))
  · intro hkept
    refine find_expanded_eq_of_edits hp ?_
    have htouched : ¬ (options.expanded = true ∧
        (Expansion.ofFile p { bytes := b }).isOk = true) := by
      rcases hkept with h | h <;> simp [h]
    simpa only [touched, if_neg htouched, List.nil_append] using hedits

/-- A source away from the folder one is in, and an entries file that it does not
need. -/
def sampleWorld : World := { disk := .ofTexts [("/src/a.as", "stop"), ("/src/a.ent", "x")] }

theorem assembleFile_delivers_sample :
    ∃ t w', perform (assembleFile {} "/src/a.as".toList) sampleWorld = (.ok t, w') ∧
      Delivered {} (.ofSource "/src/a.as".toList) t sampleWorld.disk w'.disk := by
  have hfind : sampleWorld.disk.find "/src/a.as".toList =
      .ok (.file (Utf8.encode "stop".toList)) := by decide +kernel
  have hok : (perform (assembleFile {} "/src/a.as".toList) sampleWorld).1.isOk = true := by
    decide +kernel
  obtain ⟨r, w', hrun, -, hdelivered, -⟩ := @assembleFile_delivers {} _ _ _ hfind rfl
  rw [hrun] at hok
  cases r with
  | error e => cases hok
  | ok t => exact ⟨t, w', hrun, hdelivered t rfl⟩

/-- The name of a source that is as long as a name can be. -/
def longName : Text := List.replicate 252 'x' ++ ".as".toList

/-- An empty source with a long name. -/
def longWorld : World := { disk := Disk.empty.write longName [] }

/-- A source with a name as long as can be is a program, and no folder is in the
way of its files, but there are no names for all of them. -/
theorem longName_undelivered :
    longWorld.disk.find longName = .ok (.file []) ∧
      (∀ q ∈ targets {} (.ofSource longName), ¬ longWorld.disk.HasFolder q) ∧
      ∃ t, Program.assemble longName { bytes := [] } = .ok t ∧
        (perform (assembleFile {} longName) longWorld).1 ≠ .ok t := by
  refine ⟨by decide +kernel, by decide +kernel, ?_⟩
  have hassemble : (Program.assemble longName { bytes := [] }).isOk = true := by decide +kernel
  have hfails : (perform (assembleFile {} longName) longWorld).1.isOk = false := by decide +kernel
  cases h : Program.assemble longName { bytes := [] } with
  | error r =>
    rw [h] at hassemble
    cases hassemble
  | ok t =>
    refine ⟨t, rfl, fun ht => ?_⟩
    rw [ht] at hfails
    cases hfails

end Job
end TenBit
