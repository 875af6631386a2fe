/-
# Performing jobs

What a job does to a world is read off its steps: those that put a file in its
place or remove one change the disk, all others leave the world as it is. So a
job that is made of steps at some paths edits these paths at most, whatever
fails in it.

Key definitions: `World.Edits`, `Job.perform`, `Job.EditsOnly`.
Key theorems: `Job.perform_bind`, `Job.perform_tryCatch`,
`Job.perform_rethrow_eq_ok_iff`, `Job.EditsOnly.bind`, `Job.EditsOnly.tryCatch`,
`Job.editsOnly_settleAll`, `Job.editsOnly_discard`.
-/
import TenBit.Job.Basic
import TenBit.Proofs.Storage.Disk

namespace TenBit

/-- Files were written or removed at some paths, and nothing else happened. -/
structure World.Edits (qs : List Text) (w w' : World) : Prop where
  disk : w.disk.Edits qs w'.disk
  rest : w' = { w with disk := w'.disk }

theorem World.Edits.refl (qs : List Text) (w : World) : w.Edits qs w := ⟨.refl qs w.disk, rfl⟩

theorem World.Edits.trans {qs : List Text} {w w' w'' : World} (h : w.Edits qs w')
    (h' : w'.Edits qs w'') : w.Edits qs w'' := by
  refine ⟨h.disk.trans h'.disk, ?_⟩
  rw [h'.rest, h.rest]

namespace Job

variable {α β : Type}

/-- The result of a job, and the world after it. -/
def perform (j : ExceptT Failure (StateM World) α) (w : World) : Except Failure α × World :=
  j.run.run w

@[simp] theorem perform_pure (a : α) (w : World) :
    perform (pure a : ExceptT Failure (StateM World) α) w = (.ok a, w) := rfl

@[simp] theorem perform_throw (e : Failure) (w : World) :
    perform (throw e : ExceptT Failure (StateM World) α) w = (.error e, w) := rfl

theorem perform_bind (x : ExceptT Failure (StateM World) α)
    (f : α → ExceptT Failure (StateM World) β) (w : World) :
    perform (x >>= f) w =
      match perform x w with
      | (.ok a, w') => perform (f a) w'
      | (.error e, w') => (.error e, w') := by
  unfold perform
  rw [ExceptT.run_bind, StateT.run_bind]
  cases h : x.run.run w with
  | mk r w' => cases r <;> rfl

theorem perform_tryCatch (x : ExceptT Failure (StateM World) α)
    (f : Failure → ExceptT Failure (StateM World) α) (w : World) :
    perform (tryCatch x f) w =
      match perform x w with
      | (.ok a, w') => (.ok a, w')
      | (.error e, w') => perform (f e) w' := by
  unfold perform
  rw [ExceptT.run_tryCatch, StateT.run_bind]
  cases h : x.run.run w with
  | mk r w' => cases r <;> rfl

theorem perform_attempt (action : Action) (target : Target)
    (step : StateM World (Except Obstacle α)) (w : World) :
    perform (attempt action target step) w =
      match step.run w with
      | (.ok a, w') => (.ok a, w')
      | (.error o, w') => (.error (.storage ⟨action, target, o.message⟩), w') := by
  show (step >>= fun r => _).run w = _
  rw [StateT.run_bind]
  cases h : step.run w with
  | mk r w' => cases r <;> rfl

theorem perform_bind_eq_ok_iff {x : ExceptT Failure (StateM World) α}
    {f : α → ExceptT Failure (StateM World) β} {w w' : World} {b : β} :
    perform (x >>= f) w = (.ok b, w') ↔
      ∃ a v, perform x w = (.ok a, v) ∧ perform (f a) v = (.ok b, w') := by
  rw [perform_bind]
  cases perform x w with
  | mk r v =>
    cases r with
    | error e => simp
    | ok a =>
      constructor
      · exact fun h => ⟨a, v, rfl, h⟩
      · rintro ⟨a', v', hx, h⟩
        cases hx
        exact h

/-- A job that fails again after its failure was dealt with succeeds exactly if
nothing failed. -/
theorem perform_rethrow_eq_ok_iff {x : ExceptT Failure (StateM World) α}
    {f : Failure → ExceptT Failure (StateM World) Unit} {w w' : World} {a : α} :
    perform (tryCatch x fun e => do f e; throw e) w = (.ok a, w') ↔
      perform x w = (.ok a, w') := by
  rw [perform_tryCatch]
  cases perform x w with
  | mk r v =>
    cases r with
    | ok b => simp
    | error e =>
      simp only [perform_bind]
      cases perform (f e) v with
      | mk r' v' => cases r' <;> simp

/-! ### Steps -/

theorem perform_stage (path contents : Text) (w : World) :
    perform (stage path contents) w =
      match w.disk.checkFolder (Path.folder path) with
      | .ok _ => (.ok contents, w)
      | .error o => (.error (.storage ⟨.write, .folder (Path.folder path), o.message⟩), w) := by
  have hstep : StateT.run (Storage.stage (m := StateM World) (Path.folder path) contents) w =
      ((w.disk.checkFolder (Path.folder path)).map fun _ => contents, w) := rfl
  rw [stage, perform_attempt, hstep]
  cases w.disk.checkFolder (Path.folder path) <;> rfl

theorem perform_publish (path contents : Text) (w : World) :
    perform (publish path (contents : Storage.Staged (StateM World))) w =
      match w.disk.settle path (some contents) with
      | .ok d => (.ok (), { w with disk := d })
      | .error o => (.error (.storage ⟨.rename, .file path, o.message⟩), w) := by
  have hstep : StateT.run (Storage.publish (m := StateM World) contents path) w =
      w.change (w.disk.replace path (Utf8.encode contents)) := rfl
  rw [publish, perform_attempt, hstep, Disk.settle]
  cases w.disk.replace path (Utf8.encode contents) <;> rfl

theorem perform_removeStale (path : Text) (w : World) :
    perform (removeStale path) w =
      match w.disk.settle path none with
      | .ok d => (.ok (), { w with disk := d })
      | .error o => (.error (.storage ⟨.remove, .file path, o.message⟩), w) := by
  have hstep : StateT.run (Storage.remove (m := StateM World) path) w =
      w.change (w.disk.remove path) := rfl
  rw [removeStale, perform_attempt, StateT.run_bind, hstep, Disk.settle, Disk.clear]
  cases w.disk.remove path with
  | ok d => rfl
  | error o => cases o <;> rfl

theorem perform_accept (r : Except Report α) (w : World) :
    perform (accept r) w =
      match r with
      | .ok a => (.ok a, w)
      | .error report => (.error (.rejected report), w) := by
  cases r <;> rfl

theorem perform_withdrawAll (files : List (Text × Option (Storage.Staged (StateM World))))
    (w : World) : perform (ExceptT.lift (withdrawAll files)) w = (.ok (), w) := by
  have hrun : (withdrawAll files).run w = ((), w) := by
    induction files with
    | nil => rfl
    | cons file files ih =>
      obtain ⟨path, staged⟩ := file
      cases staged with
      | none => exact ih
      | some staged =>
        rw [withdrawAll, StateT.run_bind]
        exact ih
  show ((withdrawAll files >>= fun a => pure (.ok a)).run w : Except Failure Unit × World) = _
  rw [StateT.run_bind, hrun]
  rfl

/-! ### What a job leaves alone -/

/-- A job writes or removes files at some paths at most. -/
def EditsOnly (qs : List Text) (j : ExceptT Failure (StateM World) α) : Prop :=
  ∀ w : World, w.Edits qs (perform j w).2

section EditsOnly

variable {qs : List Text} {x : ExceptT Failure (StateM World) α}

theorem EditsOnly.pure (a : α) : EditsOnly qs (Pure.pure a) := fun w => .refl qs w

theorem EditsOnly.throw (e : Failure) : EditsOnly (α := α) qs (MonadExcept.throw e) :=
  fun w => .refl qs w

theorem EditsOnly.bind {f : α → ExceptT Failure (StateM World) β} (hx : EditsOnly qs x)
    (hf : ∀ a, EditsOnly qs (f a)) : EditsOnly qs (x >>= f) := by
  intro w
  have hw := hx w
  rw [perform_bind]
  cases h : perform x w with
  | mk r v =>
    rw [h] at hw
    cases r with
    | ok a => exact hw.trans (hf a v)
    | error e => exact hw

theorem EditsOnly.tryCatch {f : Failure → ExceptT Failure (StateM World) α} (hx : EditsOnly qs x)
    (hf : ∀ e, EditsOnly qs (f e)) : EditsOnly qs (MonadExcept.tryCatch x f) := by
  intro w
  have hw := hx w
  rw [perform_tryCatch]
  cases h : perform x w with
  | mk r v =>
    rw [h] at hw
    cases r with
    | ok a => exact hw
    | error e => exact hw.trans (hf e v)

theorem editsOnly_accept (r : Except Report α) : EditsOnly qs (accept r) := by
  intro w
  rw [perform_accept]
  cases r <;> exact .refl qs w

theorem editsOnly_stage (path contents : Text) : EditsOnly qs (stage path contents) := by
  intro w
  rw [perform_stage]
  cases w.disk.checkFolder (Path.folder path) <;> exact .refl qs w

theorem editsOnly_publish {path : Text} (hpath : path ∈ qs) (contents : Text) :
    EditsOnly qs (publish path (contents : Storage.Staged (StateM World))) := by
  intro w
  rw [perform_publish]
  cases h : w.disk.settle path (some contents) with
  | ok d => exact ⟨Disk.edits_settle hpath h, rfl⟩
  | error o => exact .refl qs w

theorem editsOnly_removeStale {path : Text} (hpath : path ∈ qs) :
    EditsOnly qs (removeStale path) := by
  intro w
  rw [perform_removeStale]
  cases h : w.disk.settle path none with
  | ok d => exact ⟨Disk.edits_settle hpath h, rfl⟩
  | error o => exact .refl qs w

theorem editsOnly_withdrawAll (files : List (Text × Option (Storage.Staged (StateM World)))) :
    EditsOnly qs (ExceptT.lift (withdrawAll files)) := by
  intro w
  rw [perform_withdrawAll]
  exact .refl qs w

theorem editsOnly_stageAll : ∀ files : List (Text × Option Text), EditsOnly qs (stageAll files)
  | [] => .pure _
  | (_, none) :: files => (editsOnly_stageAll files).bind fun _ => .pure _
  | (path, some contents) :: files =>
    (editsOnly_stage path contents).bind fun _ =>
      ((editsOnly_stageAll files).bind fun _ => .pure _).tryCatch fun e =>
        EditsOnly.bind (fun w => .refl qs w) fun _ => .throw e

theorem editsOnly_settleAll : ∀ {files : List (Text × Option (Storage.Staged (StateM World)))},
    (∀ file ∈ files, file.1 ∈ qs) → EditsOnly qs (settleAll files)
  | [], _ => .pure _
  | (path, staged) :: files, h => by
    have hpath : path ∈ qs := h _ List.mem_cons_self
    have hrest : ∀ step, EditsOnly qs step → EditsOnly qs (do
        tryCatch step fun e => do
          ExceptT.lift (withdrawAll files)
          throw e
        settleAll files) := fun step hstep =>
      (hstep.tryCatch fun e => (editsOnly_withdrawAll files).bind fun _ => .throw e).bind fun _ =>
        editsOnly_settleAll fun file hfile => h file (List.mem_cons_of_mem _ hfile)
    cases staged with
    | none => exact hrest _ (editsOnly_removeStale hpath)
    | some staged => exact hrest _ (editsOnly_publish hpath staged)

theorem editsOnly_discard {paths : OutputPaths}
    (hpaths : [paths.object, paths.entries, paths.externals] ⊆ qs) :
    EditsOnly qs (discard paths) := by
  obtain ⟨hobject, hentries, hexternals⟩ : paths.object ∈ qs ∧ paths.entries ∈ qs ∧
    paths.externals ∈ qs := by simpa [List.cons_subset] using hpaths
  have hremove := (editsOnly_removeStale hobject).bind fun _ =>
    (editsOnly_removeStale hentries).bind fun _ => editsOnly_removeStale hexternals
  exact hremove.tryCatch fun _ => .pure ()

end EditsOnly

end Job
end TenBit
