/-
# What a job does is known before

Where the files of a source go is a matter of the folders of a disk, and a job
neither makes nor removes a folder. So as soon as its source is read, a job has a
plan: its result, and the changes it makes, are the same in all worlds with the
same folders, whatever files there are.

A source that is a folder can be opened but not read, and its files may lie
anywhere. It is still known which of them are removed: those that could be there,
up to the first that could not.

Key definitions: `Disk.Foreseen`, `Disk.Uniform`, `Disk.clearing`,
`World.Alike`, `Job.Planned`, `Job.produce`.
Key theorems: `Disk.Foreseen.uniform_settle`, `Disk.clearAll_eq_apply`,
`OutputPaths.foreseen_ofSource`, `Job.Planned.bind`, `Job.planned_build`,
`Job.planned_discard`, `Job.planned_produce`.
-/
import TenBit.Proofs.Job.Cleanup
import TenBit.Proofs.Job.Delivery
import TenBit.Proofs.Storage.Changes

namespace TenBit

/-! ### Steps that are known before -/

namespace Disk

variable {d d' : Disk} {f q x : Text} {l : Location} {qs : List Text}

/-- Where a path leads, and whether a file can wait beside it, is a matter of the
folders. -/
structure Foreseen (d : Disk) (q : Text) : Prop where
  locate : ∀ {d' : Disk}, d.SameFolders d' → d'.locate q = d.locate q
  checkFolder : ∀ {d' : Disk}, d.SameFolders d' →
    d'.checkFolder (Path.folder q) = d.checkFolder (Path.folder q)

theorem Opens.foreseen_name (h : d.Opens f l) (hx : Path.IsName x) (hnul : '\x00' ∉ x) :
    d.Foreseen (f ++ x) := by
  constructor
  · intro d' hd
    rw [(h.congr hd).locate_name hx hnul, h.locate_name hx hnul]
  · intro d' hd
    rw [(h.congr hd).checkFolder_name hx, h.checkFolder_name hx, hd.hereSize]

theorem Opens.foreseen_dots (h : d.Opens f l) (hfits : Path.fits (f ++ ['.', '.']) = true) :
    d.Foreseen (f ++ ['.', '.']) := by
  constructor
  · intro d' hd
    obtain ⟨a, hlocate, -⟩ := find_eq_ok_iff.1 (h.find_dots hfits)
    rw [hlocate, hd.locate hlocate]
  · intro d' hd
    have hx : Path.IsName ['x'] := by constructor <;> decide
    rw [Path.folder_append_dots h.front hx, (h.congr hd).checkFolder_name hx,
      h.checkFolder_name hx, hd.hereSize]

theorem plans_singleton {n : Option Node} (hq : q ∈ qs) (hlocate : d.locate q = .ok l)
    (hl : d.get? l ≠ some .folder) (hn : n ≠ some .folder) : d.Plans qs [(l, n)] := by
  intro c hc
  cases List.mem_singleton.1 hc
  exact ⟨⟨q, hq, hlocate⟩, hl, hn⟩

/-- Clearing a path whose place is not taken by a folder leaves nothing there. -/
theorem clear_of_locate (hlocate : d.locate q = .ok l) (hl : d.get? l ≠ some .folder) :
    d.clear q = .ok (d.assign l none) := by
  unfold clear remove
  rw [hlocate]
  cases hnode : d.get? l with
  | none => simp [hnode, assign, erase_of_get?_eq_none hnode]
  | some n =>
    cases n with
    | folder => exact absurd hnode hl
    | file b => simp [hnode, assign]

theorem replace_of_locate {b : List UInt8} (hlocate : d.locate q = .ok l)
    (hend : endsInFolder q = false) (hl : d.get? l ≠ some .folder) :
    d.replace q b = .ok (d.assign l (some (.file b))) := by
  simp only [replace, hlocate, hend]
  cases hnode : d.get? l with
  | none => rfl
  | some n =>
    cases n with
    | folder => exact absurd hnode hl
    | file b => rfl

/-- A step comes to the same on all disks with the same folders: it fails for one
reason, or makes the same changes where some paths lead. -/
inductive Uniform (d : Disk) (qs : List Text) (step : Disk → Except Obstacle Disk) : Prop
  | fails (o : Obstacle) (h : ∀ {d' : Disk}, d.SameFolders d' → step d' = .error o)
  | changes (cs : List Change) (hcs : d.Plans qs cs)
      (h : ∀ {d' : Disk}, d.SameFolders d' → step d' = .ok (d'.apply cs))

theorem Foreseen.uniform_replace (h : d.Foreseen q) (hq : q ∈ qs) (b : List UInt8) :
    d.Uniform qs fun d' => d'.replace q b := by
  cases hlocate : d.locate q with
  | error o => exact .fails o fun hd => by simp [replace, h.locate hd, hlocate]
  | ok l =>
    cases hend : endsInFolder q with
    | true => exact .fails .busy fun hd => by simp [replace, hd.locate hlocate, hend]
    | false =>
      by_cases hl : d.get? l = some .folder
      · exact .fails .isFolder fun hd => by
          simp [replace, hd.locate hlocate, hend, (hd.get? l).2 hl]
      · refine .changes [(l, some (.file b))] (plans_singleton hq hlocate hl (by simp))
          fun hd => ?_
        exact replace_of_locate (hd.locate hlocate) hend fun hfolder => hl ((hd.get? l).1 hfolder)

theorem Foreseen.uniform_clear (h : d.Foreseen q) (hq : q ∈ qs) :
    d.Uniform qs fun d' => d'.clear q := by
  cases hlocate : d.locate q with
  | error o =>
    by_cases ho : o = .missing
    · subst ho
      exact .changes [] (plans_nil d qs) fun hd => by
        simp [clear, remove, h.locate hd, hlocate, apply]
    · exact .fails o fun hd => by simp [clear, remove, h.locate hd, hlocate, ho]
  | ok l =>
    by_cases hl : d.get? l = some .folder
    · exact .fails .isFolder fun hd => by
        simp [clear, remove, hd.locate hlocate, (hd.get? l).2 hl]
    · refine .changes [(l, none)] (plans_singleton hq hlocate hl (by simp)) fun hd => ?_
      exact clear_of_locate (hd.locate hlocate) fun hfolder => hl ((hd.get? l).1 hfolder)

/-- **A step at a path that is foreseen is uniform.** -/
theorem Foreseen.uniform_settle (h : d.Foreseen q) (hq : q ∈ qs) :
    ∀ t : Option Text, d.Uniform qs fun d' => d'.settle q t
  | some t => h.uniform_replace hq (Utf8.encode t)
  | none => h.uniform_clear hq

theorem read_eq_ok {path : Text} {input : Input} (h : d.read path = .ok input) :
    (∃ b, d.find path = .ok (.file b) ∧ input = { bytes := b }) ∨
      d.find path = .ok .folder ∧
        input = { bytes := [], failure := some Obstacle.isFolder.message } := by
  unfold read at h
  split at h
  · cases h
  · rename_i b hfind
    exact .inl ⟨b, hfind, (Except.ok.inj h).symm⟩
  · rename_i hfind
    exact .inr ⟨hfind, (Except.ok.inj h).symm⟩

theorem get?_of_find {p : Text} {n : Node} (h : d.find p = .ok n) (hl : d.locate p = .ok l) :
    d.get? l = some n := by
  obtain ⟨a, ha, hget⟩ := find_eq_ok_iff.1 h
  rw [ha] at hl
  cases hl
  exact hget

/-- A source is read as before as long as the folders are there and nothing has
changed where its path leads. -/
theorem read_of_kept {p : Text} {input : Input} (hd : d.SameFolders d')
    (hkept : ∀ l, d.locate p = .ok l → d'.get? l = d.get? l)
    (h : d.read p = .ok input) : d'.read p = .ok input := by
  have hfind : ∀ n, d.find p = .ok n → d'.find p = .ok n := by
    intro n hn
    obtain ⟨l, hl, hget⟩ := find_eq_ok_iff.1 hn
    exact find_eq_ok_iff.2 ⟨l, hd.locate hl, (hkept l hl).trans hget⟩
  rcases read_eq_ok h with ⟨b, hb, rfl⟩ | ⟨hfolder, rfl⟩
  · simp [read, hfind _ hb]
  · simp [read, hfind _ hfolder]

/-! ### Clearing -/

/-- The changes that clear some paths, up to the first where no file can be. -/
def clearing (d : Disk) : List Text → List Change
  | [] => []
  | p :: ps =>
    match d.locate p with
    | .ok l => if d.get? l = some .folder then [] else (l, none) :: d.clearing ps
    | .error _ => []

theorem plans_clearing : ∀ ps : List Text, d.Plans ps (d.clearing ps)
  | [] => plans_nil d []
  | p :: ps => by
    unfold clearing
    split
    · rename_i l hlocate
      split
      · exact plans_nil d _
      · rename_i hl
        have hfirst : d.Plans (p :: ps) [(l, none)] :=
          plans_singleton List.mem_cons_self hlocate hl nofun
        exact hfirst.append ((plans_clearing ps).mono (List.subset_cons_self p ps))
    · exact plans_nil d _

theorem clearAll_of_not_located : ∀ {ps : List Text}, (∀ p ∈ ps, ∀ l, d.locate p ≠ .ok l) →
    d.clearAll ps = d
  | [], _ => rfl
  | p :: ps, h => by
    obtain ⟨hp, hps⟩ := List.forall_mem_cons.1 h
    unfold clearAll
    cases hclear : d.clear p with
    | error o => rfl
    | ok e =>
      rcases clear_eq_ok hclear with ⟨he, -⟩ | ⟨l, hlocate, -⟩
      · rw [he]
        exact clearAll_of_not_located hps
      · exact absurd hlocate (hp _)

/-- **What clearing some paths does is a matter of the folders**, if none of them
is harder to follow than those behind it. -/
theorem clearAll_eq_apply : ∀ {ps : List Text} {d' : Disk}, ps.Pairwise NoHarder →
    d.SameFolders d' → d'.clearAll ps = d'.apply (d.clearing ps)
  | [], _, _, _ => rfl
  | p :: ps, d', hps, hd => by
    obtain ⟨hp, hps⟩ := List.pairwise_cons.1 hps
    unfold clearing
    cases hlocate : d.locate p with
    | error o =>
      -- neither this path nor those behind it can be followed
      have hnone : ∀ p' ∈ p :: ps, ∀ l, d'.locate p' ≠ .ok l := by
        have hfirst : ∀ l, d'.locate p ≠ .ok l := by
          intro l hl
          rw [hd.symm.locate hl] at hlocate
          cases hlocate
        refine List.forall_mem_cons.2 ⟨hfirst, fun p' hp' l hl => ?_⟩
        obtain ⟨l', hl'⟩ := hp p' hp' d' l hl
        exact hfirst l' hl'
      exact clearAll_of_not_located hnone
    | ok l =>
      have hlocate' := hd.locate hlocate
      by_cases hl : d.get? l = some .folder
      · have hclear : d'.clear p = .error .isFolder := by
          simp [clear, remove, hlocate', (hd.get? l).2 hl]
        simp only [clearAll, hclear, if_pos hl]
        rfl
      · have hl' : d'.get? l ≠ some .folder := fun hfolder => hl ((hd.get? l).1 hfolder)
        have hstep : d'.SameFolders (d'.assign l none) := sameFolders_assign hl' (by simp)
        simp only [clearAll, clear_of_locate hlocate' hl', if_neg hl, apply]
        exact clearAll_eq_apply hps (hd.trans hstep)

end Disk

/-- **The files of a source that is a file are foreseen.** -/
theorem OutputPaths.foreseen_ofSource {d : Disk} {p : Text} {b : List UInt8}
    (hp : d.find p = .ok (.file b)) : ∀ q ∈ (ofSource p).toList, d.Foreseen q := by
  obtain ⟨f, l, hopens, ⟨hfits, hpaths⟩ | ⟨s, hnames, hpaths⟩⟩ := exists_opens_ofSource hp
  · rw [hpaths]
    intro q hq
    have hdots : q = f ++ ['.', '.'] := by simpa [toList, behind, dots] using hq
    rw [hdots]
    exact hopens.foreseen_dots hfits
  · rw [hpaths]
    intro q hq
    obtain ⟨x, hx, rfl⟩ : ∃ x ∈ (ofStem s).toList, f ++ x = q := by
      simpa [toList, behind, eq_comm] using hq
    exact hopens.foreseen_name (hnames x hx).1 (hnames x hx).2

/-! ### Plans of jobs -/

/-- Two worlds have the same folders, and the same limit for the printer. -/
structure World.Alike (w w' : World) : Prop where
  folders : w.disk.SameFolders w'.disk
  printerFull : w'.printerFull = w.printerFull

theorem World.Alike.refl (w : World) : w.Alike w := ⟨.refl w.disk, rfl⟩

/-- The world after some changes to its disk. -/
def World.apply (w : World) (cs : List Disk.Change) : World := { w with disk := w.disk.apply cs }

theorem World.Alike.apply {w w' : World} {qs : List Text} {cs : List Disk.Change} (h : w.Alike w')
    (hcs : w.disk.Plans qs cs) : w.Alike (w'.apply cs) :=
  ⟨hcs.sameFolders h.folders, h.printerFull⟩

namespace Job

variable {α β : Type} {qs : List Text} {w : World}

/-- The job has the same result, and makes the same changes where some paths
lead, in all worlds alike. -/
def Planned (qs : List Text) (w : World) (j : ExceptT Failure (StateM World) α) : Prop :=
  ∃ r cs, w.disk.Plans qs cs ∧ ∀ w', w.Alike w' → perform j w' = (r, w'.apply cs)

/-- A job that changes nothing. -/
theorem Planned.of_idle {j : ExceptT Failure (StateM World) α} {r : Except Failure α}
    (h : ∀ w', w.Alike w' → perform j w' = (r, w')) : Planned qs w j :=
  ⟨r, [], Disk.plans_nil _ _, h⟩

theorem Planned.pure (a : α) : Planned qs w (Pure.pure a) := .of_idle fun _ _ => rfl

theorem Planned.throw (e : Failure) : Planned (α := α) qs w (MonadExcept.throw e) :=
  .of_idle fun _ _ => rfl

theorem Planned.bind {x : ExceptT Failure (StateM World) α}
    {f : α → ExceptT Failure (StateM World) β} (hx : Planned qs w x)
    (hf : ∀ a v, perform x w = (.ok a, v) → Planned qs w (f a)) : Planned qs w (x >>= f) := by
  obtain ⟨r, cs, hcs, hr⟩ := hx
  cases r with
  | error e =>
    refine ⟨.error e, cs, hcs, fun w' hw => ?_⟩
    rw [perform_bind, hr w' hw]
  | ok a =>
    obtain ⟨r', cs', hcs', hr'⟩ := hf a _ (hr w (.refl w))
    refine ⟨r', cs ++ cs', hcs.append hcs', fun w' hw => ?_⟩
    rw [perform_bind, hr w' hw]
    show perform (f a) (w'.apply cs) = _
    rw [hr' _ (hw.apply hcs), World.apply, World.apply, World.apply, Disk.apply_append]

theorem Planned.tryCatch {x : ExceptT Failure (StateM World) α}
    {f : Failure → ExceptT Failure (StateM World) α} (hx : Planned qs w x)
    (hf : ∀ e, Planned qs w (f e)) : Planned qs w (MonadExcept.tryCatch x f) := by
  obtain ⟨r, cs, hcs, hr⟩ := hx
  cases r with
  | ok a =>
    refine ⟨.ok a, cs, hcs, fun w' hw => ?_⟩
    rw [perform_tryCatch, hr w' hw]
  | error e =>
    obtain ⟨r', cs', hcs', hr'⟩ := hf e
    refine ⟨r', cs ++ cs', hcs.append hcs', fun w' hw => ?_⟩
    rw [perform_tryCatch, hr w' hw]
    show perform (f e) (w'.apply cs) = _
    rw [hr' _ (hw.apply hcs), World.apply, World.apply, World.apply, Disk.apply_append]

theorem planned_accept (r : Except Report α) : Planned qs w (accept r) := by
  cases r with
  | ok a => exact .pure a
  | error report => exact .throw _

theorem planned_stage {path : Text} (h : w.disk.Foreseen path) (contents : Text) :
    Planned qs w (stage path contents) := by
  cases hfolder : w.disk.checkFolder (Path.folder path) with
  | ok u =>
    refine .of_idle (r := .ok contents) fun w' hw => ?_
    rw [perform_stage, h.checkFolder hw.folders, hfolder]
  | error o =>
    refine .of_idle (r := .error (.storage ⟨.write, .folder (Path.folder path), o.message⟩))
      fun w' hw => ?_
    rw [perform_stage, h.checkFolder hw.folders, hfolder]

/-- A step at a path that is foreseen, whatever it is called. -/
theorem planned_settle {path : Text} (hpath : path ∈ qs) (h : w.disk.Foreseen path)
    {t : Option Text} {action : Action} {j : ExceptT Failure (StateM World) Unit}
    (hj : ∀ w' : World, perform j w' =
      match w'.disk.settle path t with
      | .ok d => (.ok (), { w' with disk := d })
      | .error o => (.error (.storage ⟨action, .file path, o.message⟩), w')) :
    Planned qs w j := by
  cases h.uniform_settle hpath t with
  | fails o ho =>
    refine .of_idle (r := .error (.storage ⟨action, .file path, o.message⟩)) fun w' hw => ?_
    rw [hj, ho hw.folders]
  | changes cs hcs hstep =>
    refine ⟨.ok (), cs, hcs, fun w' hw => ?_⟩
    rw [hj, hstep hw.folders]
    rfl

theorem planned_publish {path : Text} (hpath : path ∈ qs) (h : w.disk.Foreseen path)
    (contents : Text) :
    Planned qs w (publish path (contents : Storage.Staged (StateM World))) :=
  planned_settle hpath h (perform_publish path contents)

theorem planned_removeStale {path : Text} (hpath : path ∈ qs) (h : w.disk.Foreseen path) :
    Planned qs w (removeStale path) :=
  planned_settle hpath h (perform_removeStale path)

theorem planned_stageAll : ∀ {files : List (Text × Option Text)},
    (∀ file ∈ files, w.disk.Foreseen file.1) → Planned qs w (stageAll files)
  | [], _ => .pure _
  | (path, none) :: files, h => by
    obtain ⟨-, hfiles⟩ := List.forall_mem_cons.1 h
    exact (planned_stageAll hfiles).bind fun _ _ _ => .pure _
  | (path, some contents) :: files, h => by
    obtain ⟨hpath, hfiles⟩ := List.forall_mem_cons.1 h
    refine (planned_stage hpath contents).bind fun staged _ _ => ?_
    refine ((planned_stageAll hfiles).bind fun _ _ _ => .pure _).tryCatch fun e => ?_
    exact (Planned.of_idle (r := .ok ()) fun _ _ => rfl).bind fun _ _ _ => .throw e

theorem planned_settleAll : ∀ {files : List (Text × Option (Storage.Staged (StateM World)))},
    (∀ file ∈ files, file.1 ∈ qs ∧ w.disk.Foreseen file.1) → Planned qs w (settleAll files)
  | [], _ => .pure _
  | (path, staged) :: files, h => by
    obtain ⟨⟨hpath, hforeseen⟩, hfiles⟩ := List.forall_mem_cons.1 h
    have hrest : ∀ step, Planned qs w step → Planned qs w (do
        tryCatch step fun e => do
          ExceptT.lift (withdrawAll files)
          throw e
        settleAll files) := by
      intro step hstep
      have hwithdraw : Planned qs w (ExceptT.lift (withdrawAll files)) :=
        .of_idle fun w' _ => perform_withdrawAll files w'
      refine (hstep.tryCatch fun e => hwithdraw.bind fun _ _ _ => .throw e).bind fun _ _ _ => ?_
      exact planned_settleAll hfiles
    cases staged with
    | none => exact hrest _ (planned_removeStale hpath hforeseen)
    | some staged => exact hrest _ (planned_publish hpath hforeseen staged)

section Build

variable {paths : OutputPaths} (h : ∀ q ∈ paths.toList, w.disk.Foreseen q)
include h

theorem planned_writeOutputs (t : Program) : Planned paths.toList w (writeOutputs paths t) := by
  have houtputs : ∀ file ∈ outputs paths t, file.1 ∈ paths.toList := by
    intro file hfile
    have hmem : file.1 ∈ (outputs paths t).map Prod.fst := List.mem_map_of_mem hfile
    exact List.mem_cons_of_mem _ hmem
  refine (planned_stageAll fun file hfile => h _ (houtputs file hfile)).bind fun staged v hv => ?_
  obtain ⟨-, rfl, -⟩ := perform_stageAll_eq_ok_iff.1 hv
  exact planned_settleAll fun file hfile => ⟨houtputs file hfile, h _ (houtputs file hfile)⟩

/-- **Building a source has a plan**, if its files are foreseen. -/
theorem planned_build (options : Options) (file : Text) (input : Input) :
    Planned paths.toList w (build options paths file input) := by
  have hfinish : ∀ x, Planned paths.toList w (finish paths x) := fun x =>
    (planned_accept _).bind fun t _ _ => (planned_writeOutputs h t).bind fun _ _ _ => .pure t
  rw [build_eq]
  refine (planned_accept _).bind fun x _ _ => ?_
  have hmem : paths.expanded ∈ paths.toList := List.mem_cons_self
  by_cases hexpanded : options.expanded = true
  · rw [if_pos hexpanded]
    have hwrite := (planned_stage (h _ hmem) (Expansion.text x.lines)).bind fun staged _ _ =>
      planned_publish hmem (h _ hmem) staged
    exact hwrite.bind fun _ _ _ => hfinish x
  · rw [if_neg hexpanded]
    exact hfinish x

end Build

/-- **Discarding has a plan**, wherever the files of the source may lie. -/
theorem planned_discard (path : Text) :
    Planned (OutputPaths.ofSource path).toList w (discard (.ofSource path)) := by
  refine ⟨.ok (), _, (Disk.plans_clearing _).mono (List.subset_cons_self _ _), fun w' hw => ?_⟩
  have hedits : w'.Edits _ (perform (discard (.ofSource path)) w').2 :=
    editsOnly_discard (List.Subset.refl _) w'
  refine Prod.ext (perform_discard _ w') ?_
  rw [hedits.rest, perform_discard_disk, Disk.clearAll_eq_apply (pairwise_noHarder path) hw.folders]
  rfl

/-! ### Jobs up to the listing -/

/-- What a job does with its source before the listing is printed. -/
def produce (options : Options) (path : Text) (input : Input) :
    ExceptT Failure (StateM World) Program :=
  tryCatch (build options (.ofSource path) path input) fun e => do
    discard (.ofSource path)
    throw e

/-- What is printed after a program was produced. -/
def conclude (options : Options) : Except Failure Program × World → Except Failure Program × World
  | (.error e, w) => (.error e, w)
  | (.ok t, w) =>
    if options.list then
      if w.printerFull then (.error (.storage ⟨.write, .standardOutput, Obstacle.full.message⟩), w)
      else (.ok t, { w with printed := w.printed ++ t.listingText })
    else (.ok t, w)

theorem conclude_of_not_list {options : Options} (hlist : options.list = false)
    (r : Except Failure Program) (w : World) : conclude options (r, w) = (r, w) := by
  cases r with
  | error e => rfl
  | ok t => simp [conclude, hlist]

/-- Printing changes nothing but what is printed. -/
theorem conclude_world (options : Options) (r : Except Failure Program) (w : World) :
    ∃ text, (conclude options (r, w)).2 = { w with printed := text } := by
  cases r with
  | error e => exact ⟨w.printed, rfl⟩
  | ok t =>
    by_cases hlist : options.list = true
    · by_cases hfull : w.printerFull = true
      · exact ⟨w.printed, by rw [conclude, if_pos hlist, if_pos hfull]⟩
      · exact ⟨w.printed ++ t.listingText, by rw [conclude, if_pos hlist, if_neg hfull]⟩
    · exact ⟨w.printed, by rw [conclude, if_neg hlist]⟩

theorem conclude_isOk (options : Options) (r : Except Failure Program) (w : World) :
    (conclude options (r, w)).1.isOk = (r.isOk && !(options.list && w.printerFull)) := by
  cases r with
  | error e => rfl
  | ok t =>
    cases hlist : options.list with
    | false => simp [conclude, hlist, Except.isOk, Except.toBool]
    | true => cases hfull : w.printerFull <;> simp [conclude, hlist, hfull, Except.isOk, Except.toBool]

theorem perform_assembleFile_of_read (options : Options) {path : Text} {input : Input}
    (hread : w.disk.read path = .ok input) :
    perform (assembleFile options path) w =
      conclude options (perform (produce options path input) w) := by
  simp only [perform_assembleFile, hread, produce, perform_tryCatch]
  cases perform (build options (.ofSource path) path input) w with
  | mk r v =>
    cases r with
    | ok t => rfl
    | error e =>
      have hdiscard : perform (discard (.ofSource path)) v =
          (.ok (), (perform (discard (.ofSource path)) v).2) := Prod.ext (perform_discard _ v) rfl
      simp only [perform_bind]
      rw [hdiscard]
      rfl

/-- A source that is a folder has no expansion. -/
theorem ofFile_folder (file : Text) (message : String) :
    ∃ report, Expansion.ofFile file { bytes := [], failure := some message } = .error report :=
  ⟨_, rfl⟩

/-- **A job has a plan once its source is read.** -/
theorem planned_produce (options : Options) {path : Text} {input : Input}
    (hread : w.disk.read path = .ok input) :
    Planned (OutputPaths.ofSource path).toList w (produce options path input) := by
  have hbuild : Planned (OutputPaths.ofSource path).toList w
      (build options (.ofSource path) path input) := by
    rcases Disk.read_eq_ok hread with ⟨b, hfind, -⟩ | ⟨-, rfl⟩
    · exact planned_build (OutputPaths.foreseen_ofSource hfind) options path input
    · obtain ⟨report, hreport⟩ := ofFile_folder path Obstacle.isFolder.message
      rw [build_eq, hreport]
      exact (Planned.throw _).bind fun _ _ hv => by cases hv
  exact hbuild.tryCatch fun e => (planned_discard path).bind fun _ _ _ => .throw e

end Job
end TenBit
