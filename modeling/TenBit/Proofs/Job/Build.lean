/-
# Building a source

A job succeeds exactly if all its steps do: every file that is to be written can
wait beside its place, and each step at a path, in turn, finds nothing in its
way. Then the disk is what the steps make of it. What becomes of a job that
fails, or has a listing to print, is said in one equation.

Key definitions: `World.CanStage`, `Job.files`, `Job.finish`, `Job.touched`.
Key theorems: `Job.perform_stageAll_eq_ok_iff`, `Job.perform_settleAll_eq_ok_iff`,
`Job.perform_build_eq_ok_iff`, `Job.editsOnly_build`, `Job.perform_assembleFile`.
-/
import TenBit.Proofs.Job.Run

namespace TenBit

/-- A file can wait beside a path. -/
def World.CanStage (w : World) (path : Text) : Prop :=
  w.disk.checkFolder (Path.folder path) = .ok ()

theorem World.Edits.canStage_iff {qs : List Text} {w w' : World} (h : w.Edits qs w')
    {path : Text} : w'.CanStage path ↔ w.CanStage path := by
  unfold World.CanStage
  rw [h.rest]
  exact ⟨h.disk.folders.symm.checkFolder, h.disk.folders.checkFolder⟩

namespace Job

/-! ### Jobs that succeed -/

theorem perform_stage_eq_ok_iff {path contents : Text} {w w' : World}
    {staged : Storage.Staged (StateM World)} :
    perform (stage path contents) w = (.ok staged, w') ↔
      w.CanStage path ∧ staged = contents ∧ w' = w := by
  rw [perform_stage, World.CanStage]
  cases w.disk.checkFolder (Path.folder path) with
  | error o => simp
  | ok u => simp [eq_comm]

theorem perform_stageAll_eq_ok_iff {w w' : World} : ∀ {files : List (Text × Option Text)}
    {staged : List (Text × Option (Storage.Staged (StateM World)))},
    perform (stageAll files) w = (.ok staged, w') ↔
      (∀ file ∈ files, file.2.isSome = true → w.CanStage file.1) ∧ staged = files ∧ w' = w
  | [], staged => by
    rw [stageAll, perform_pure]
    constructor
    · intro h
      cases h
      exact ⟨by simp, rfl, rfl⟩
    · rintro ⟨-, rfl, rfl⟩
      rfl
  | (path, none) :: files, staged => by
    rw [stageAll, perform_bind_eq_ok_iff]
    simp only [perform_stageAll_eq_ok_iff, perform_pure]
    constructor
    · rintro ⟨rest, v, ⟨hfiles, rfl, rfl⟩, h⟩
      cases h
      exact ⟨by simpa using hfiles, rfl, rfl⟩
    · rintro ⟨hfiles, rfl, rfl⟩
      exact ⟨files, _, ⟨by simpa using hfiles, rfl, rfl⟩, rfl⟩
  | (path, some contents) :: files, staged => by
    rw [stageAll, perform_bind_eq_ok_iff]
    simp only [perform_stage_eq_ok_iff, perform_rethrow_eq_ok_iff, perform_bind_eq_ok_iff,
      perform_stageAll_eq_ok_iff, perform_pure]
    constructor
    · rintro ⟨c, v, ⟨hstage, rfl, rfl⟩, rest, v', ⟨hfiles, rfl, rfl⟩, h⟩
      cases h
      exact ⟨List.forall_mem_cons.2 ⟨fun _ => hstage, hfiles⟩, rfl, rfl⟩
    · rintro ⟨hfiles, rfl, rfl⟩
      obtain ⟨hstage, hfiles⟩ := List.forall_mem_cons.1 hfiles
      exact ⟨contents, _, ⟨hstage rfl, rfl, rfl⟩, files, _, ⟨hfiles, rfl, rfl⟩, rfl⟩

theorem perform_publish_eq_ok_iff {path contents : Text} {w w' : World} :
    perform (publish path (contents : Storage.Staged (StateM World))) w = (.ok (), w') ↔
      ∃ d, w.disk.settle path (some contents) = .ok d ∧ w' = { w with disk := d } := by
  rw [perform_publish]
  cases w.disk.settle path (some contents) <;> simp [eq_comm]

theorem perform_removeStale_eq_ok_iff {path : Text} {w w' : World} :
    perform (removeStale path) w = (.ok (), w') ↔
      ∃ d, w.disk.settle path none = .ok d ∧ w' = { w with disk := d } := by
  rw [perform_removeStale]
  cases w.disk.settle path none <;> simp [eq_comm]

theorem perform_settleAll_eq_ok_iff {w' : World} :
    ∀ {files : List (Text × Option (Storage.Staged (StateM World)))} {w : World},
      perform (settleAll files) w = (.ok (), w') ↔
        ∃ d, w.disk.settleAll files = .ok d ∧ w' = { w with disk := d }
  | [], w => by
    simp [settleAll, Disk.settleAll, eq_comm]
  | (path, staged) :: files, w => by
    -- the step at the first path, whichever it is, and then the rest
    have hrest : ∀ step, (∀ v, perform step w = (.ok (), v) ↔
          ∃ d, w.disk.settle path staged = .ok d ∧ v = { w with disk := d }) →
        (perform (do
            tryCatch step fun e => do
              ExceptT.lift (withdrawAll files)
              throw e
            settleAll files) w = (.ok (), w') ↔
          ∃ d, w.disk.settleAll ((path, staged) :: files) = .ok d ∧
            w' = { w with disk := d }) := by
      intro step hstep
      simp only [perform_bind_eq_ok_iff, perform_rethrow_eq_ok_iff, perform_settleAll_eq_ok_iff,
        Disk.settleAll_cons_eq_ok_iff]
      constructor
      · rintro ⟨⟨⟩, v, hv, d, hd, rfl⟩
        obtain ⟨e, he, rfl⟩ := (hstep v).1 hv
        exact ⟨d, ⟨e, he, hd⟩, rfl⟩
      · rintro ⟨d, ⟨e, he, hd⟩, rfl⟩
        exact ⟨(), _, (hstep _).2 ⟨e, he, rfl⟩, d, hd, rfl⟩
    cases staged with
    | none => exact hrest _ fun v => perform_removeStale_eq_ok_iff
    | some staged => exact hrest _ fun v => perform_publish_eq_ok_iff

theorem perform_writeFile_eq_ok_iff {path contents : Text} {w w' : World} :
    perform (writeFile path contents) w = (.ok (), w') ↔
      w.CanStage path ∧
        ∃ d, w.disk.settle path (some contents) = .ok d ∧ w' = { w with disk := d } := by
  rw [writeFile, perform_bind_eq_ok_iff]
  constructor
  · rintro ⟨c, v, hc, hv⟩
    obtain ⟨hstage, rfl, rfl⟩ := perform_stage_eq_ok_iff.1 hc
    exact ⟨hstage, perform_publish_eq_ok_iff.1 hv⟩
  · rintro ⟨hstage, hd⟩
    exact ⟨contents, w, perform_stage_eq_ok_iff.2 ⟨hstage, rfl, rfl⟩,
      perform_publish_eq_ok_iff.2 hd⟩

theorem perform_writeOutputs_eq_ok_iff {paths : OutputPaths} {t : Program} {w w' : World} :
    perform (writeOutputs paths t) w = (.ok (), w') ↔
      (∀ file ∈ outputs paths t, file.2.isSome = true → w.CanStage file.1) ∧
        ∃ d, w.disk.settleAll (outputs paths t) = .ok d ∧ w' = { w with disk := d } := by
  rw [writeOutputs, perform_bind_eq_ok_iff]
  constructor
  · rintro ⟨staged, v, hstaged, hv⟩
    obtain ⟨hfiles, rfl, rfl⟩ := perform_stageAll_eq_ok_iff.1 hstaged
    exact ⟨hfiles, perform_settleAll_eq_ok_iff.1 hv⟩
  · rintro ⟨hfiles, hd⟩
    exact ⟨_, w, perform_stageAll_eq_ok_iff.2 ⟨hfiles, rfl, rfl⟩,
      perform_settleAll_eq_ok_iff.2 hd⟩

/-! ### Assembling a file -/

/-- The files of a program with their texts; one without a text is not wanted.
The expanded source is one of them if it is asked for. -/
def files (options : Options) (paths : OutputPaths) (t : Program) : List (Text × Option Text) :=
  (if options.expanded then [(paths.expanded, some t.expandedText)] else []) ++ outputs paths t

/-- What is done with a source once it is expanded. -/
def finish (paths : OutputPaths) (x : Expansion) : ExceptT Failure (StateM World) Program := do
  let t ← accept (Program.ofExpansion x)
  writeOutputs paths t
  return t

theorem build_eq (options : Options) (paths : OutputPaths) (file : Text) (input : Input) :
    build options paths file input = (do
      let x ← accept (Expansion.ofFile file input)
      if options.expanded then do
        writeFile paths.expanded (Expansion.text x.lines)
        finish paths x
      else finish paths x) := rfl

theorem perform_finish_eq_ok_iff {paths : OutputPaths} {x : Expansion} {t : Program}
    {w w' : World} :
    perform (finish paths x) w = (.ok t, w') ↔
      Program.ofExpansion x = .ok t ∧ perform (writeOutputs paths t) w = (.ok (), w') := by
  rw [finish, perform_bind, perform_accept]
  cases Program.ofExpansion x with
  | error r => simp
  | ok t' =>
    simp only [perform_bind_eq_ok_iff, perform_pure]
    constructor
    · rintro ⟨⟨⟩, v, hv, h⟩
      cases h
      exact ⟨rfl, hv⟩
    · rintro ⟨h, hv⟩
      cases h
      exact ⟨(), w', hv, rfl⟩

/-- **A source is built exactly if it is a program and every step at its files
succeeds.** -/
theorem perform_build_eq_ok_iff {options : Options} {paths : OutputPaths} {file : Text}
    {input : Input} {t : Program} {w w' : World} :
    perform (build options paths file input) w = (.ok t, w') ↔
      Program.assemble file input = .ok t ∧
        (∀ f ∈ files options paths t, f.2.isSome = true → w.CanStage f.1) ∧
        ∃ d, w.disk.settleAll (files options paths t) = .ok d ∧ w' = { w with disk := d } := by
  rw [build_eq, perform_bind, perform_accept, Program.assemble]
  cases Expansion.ofFile file input with
  | error r => simp
  | ok x =>
    show perform (if options.expanded = true then _ else _) w = _ ↔ _
    by_cases hexpanded : options.expanded = true
    · have hfiles : files options paths t =
          (paths.expanded, some t.expandedText) :: outputs paths t := by
        simp [files, hexpanded]
      rw [if_pos hexpanded, perform_bind_eq_ok_iff, hfiles, List.forall_mem_cons]
      simp only [Disk.settleAll_cons_eq_ok_iff]
      constructor
      · rintro ⟨u, v, hwrite, hfinish⟩
        obtain ⟨hstage, e, he, rfl⟩ := perform_writeFile_eq_ok_iff.1 hwrite
        obtain ⟨ht, hrest⟩ := perform_finish_eq_ok_iff.1 hfinish
        obtain ⟨hstageAll, d, hd, rfl⟩ := perform_writeOutputs_eq_ok_iff.1 hrest
        have hedits : w.Edits [paths.expanded] { w with disk := e } :=
          ⟨Disk.edits_settle (by simp) he, rfl⟩
        rw [← Program.lines_of_ofExpansion ht] at he
        refine ⟨ht, ⟨fun _ => hstage, fun f hf hsome => ?_⟩, d, ⟨e, he, hd⟩, rfl⟩
        exact hedits.canStage_iff.1 (hstageAll f hf hsome)
      · rintro ⟨ht, ⟨hstage, hstageAll⟩, d, ⟨e, he, hd⟩, rfl⟩
        have hedits : w.Edits [paths.expanded] { w with disk := e } :=
          ⟨Disk.edits_settle (by simp) he, rfl⟩
        rw [Program.expandedText, Program.lines_of_ofExpansion ht] at he
        refine ⟨(), _, perform_writeFile_eq_ok_iff.2 ⟨hstage rfl, e, he, rfl⟩,
          perform_finish_eq_ok_iff.2 ⟨ht, perform_writeOutputs_eq_ok_iff.2
            ⟨fun f hf hsome => hedits.canStage_iff.2 (hstageAll f hf hsome), d, hd, rfl⟩⟩⟩
    · have hfiles : files options paths t = outputs paths t := by
        simp [files, hexpanded]
      rw [if_neg hexpanded, perform_finish_eq_ok_iff, perform_writeOutputs_eq_ok_iff, hfiles]

theorem editsOnly_writeOutputs {qs : List Text} {paths : OutputPaths}
    (hpaths : [paths.object, paths.entries, paths.externals] ⊆ qs) (t : Program) :
    EditsOnly qs (writeOutputs paths t) := by
  intro w
  have hstage : w.Edits qs _ := editsOnly_stageAll (outputs paths t) w
  rw [writeOutputs, perform_bind]
  cases h : perform (stageAll (outputs paths t)) w with
  | mk r v =>
    rw [h] at hstage
    cases r with
    | error e => exact hstage
    | ok staged =>
      obtain ⟨-, rfl, rfl⟩ := perform_stageAll_eq_ok_iff.1 h
      refine editsOnly_settleAll (fun f hf => hpaths ?_) v
      simp only [outputs, List.mem_cons, List.not_mem_nil, or_false] at hf ⊢
      rcases hf with rfl | rfl | rfl <;> simp

/-- The paths at which a job can write or remove a file. That of the expanded
source is one of them only if it is asked for and the source can be expanded. -/
def touched (options : Options) (paths : OutputPaths) (file : Text) (input : Input) : List Text :=
  (if options.expanded ∧ (Expansion.ofFile file input).isOk then [paths.expanded] else []) ++
    [paths.object, paths.entries, paths.externals]

theorem editsOnly_build (options : Options) (paths : OutputPaths) (file : Text) (input : Input) :
    EditsOnly (touched options paths file input) (build options paths file input) := by
  have hpaths : [paths.object, paths.entries, paths.externals] ⊆
      touched options paths file input := List.subset_append_right _ _
  have hfinish : ∀ x, EditsOnly (touched options paths file input) (finish paths x) := fun x =>
    (editsOnly_accept _).bind fun t => (editsOnly_writeOutputs hpaths t).bind fun _ => .pure t
  intro w
  rw [build_eq, perform_bind, perform_accept]
  cases hx : Expansion.ofFile file input with
  | error r => exact .refl _ w
  | ok x =>
    show w.Edits _ (perform (if options.expanded = true then _ else _) w).2
    by_cases hexpanded : options.expanded = true
    · have hmem : paths.expanded ∈ touched options paths file input := by
        simp [touched, hexpanded, hx, Except.isOk, Except.toBool]
      rw [if_pos hexpanded]
      exact ((editsOnly_stage _ _).bind fun _ => editsOnly_publish hmem _).bind
        (fun _ => hfinish x) w
    · rw [if_neg hexpanded]
      exact hfinish x w

theorem perform_discard (paths : OutputPaths) (w : World) :
    (perform (discard paths) w).1 = .ok () := by
  rw [discard, perform_tryCatch]
  generalize perform _ w = rv
  obtain ⟨r, v⟩ := rv
  cases r <;> rfl

/-- What becomes of a job. -/
theorem perform_assembleFile (options : Options) (path : Text) (w : World) :
    perform (assembleFile options path) w =
      match w.disk.read path with
      | .error o => (.error (.storage ⟨.read, .file path, o.message⟩), w)
      | .ok input =>
        match perform (build options (.ofSource path) path input) w with
        | (.error e, v) => (.error e, (perform (discard (.ofSource path)) v).2)
        | (.ok t, v) =>
          if options.list then
            if v.printerFull then
              (.error (.storage ⟨.write, .standardOutput, Obstacle.full.message⟩), v)
            else (.ok t, { v with printed := v.printed ++ t.listingText })
          else (.ok t, v) := by
  have hread : StateT.run (Storage.read (m := StateM World) path) w = (w.disk.read path, w) := rfl
  rw [assembleFile, perform_bind, perform_attempt, hread]
  cases w.disk.read path with
  | error o => rfl
  | ok input =>
    simp only [perform_bind, perform_tryCatch]
    cases perform (build options (.ofSource path) path input) w with
    | mk r v =>
      cases r with
      | error e =>
        have hdiscard : perform (discard (.ofSource path)) v =
            (.ok (), (perform (discard (.ofSource path)) v).2) :=
          Prod.ext (perform_discard _ v) rfl
        simp only
        rw [hdiscard]
        rfl
      | ok t =>
        by_cases hlist : options.list = true
        · have hprint : StateT.run (Storage.print (m := StateM World) t.listingText) v =
              if v.printerFull then (.error .full, v)
              else (.ok (), { v with printed := v.printed ++ t.listingText }) := rfl
          simp only [hlist, if_true, perform_bind, perform_attempt, hprint]
          by_cases hfull : v.printerFull = true
          · simp [hfull]
          · simp [hfull]
        · simp [hlist]

end Job
end TenBit
