/-
# Jobs do not influence each other

The jobs of a command are done one after the other. A job changes nothing but its
own files, and no folders, so that the jobs behind it find their sources as they
were and have the plans they would have had at the start. Their changes are at
different locations, and so it makes no difference in which order they are made.

It is enough that no two jobs have a place in common. A path may well lie below
one of another job: what it lies below is a folder, which stays, or is none, and
then the path leads nowhere before and after.

Key definitions: `Disk.place?`, `Disk.Apart`, `Command.footprint`,
`Command.fails`, `Command.perform`, `Job.Foretells`.
Key theorems: `Job.exists_foretells`, `Command.failures_run`,
`Command.perform_perm`.
-/
import Mathlib.Data.List.Pairwise
import TenBit.Job.Command
import TenBit.Proofs.Job.Foresight

namespace TenBit

/-! ### Places -/

namespace Disk

variable {d : Disk} {ps qs : List Text}

/-- The location a path leads to. -/
def place? (d : Disk) (p : Text) : Option Location :=
  match d.locate p with
  | .ok l => some l
  | .error _ => none

theorem place?_eq_some_iff {p : Text} {l : Location} :
    d.place? p = some l ↔ d.locate p = .ok l := by
  unfold place?
  cases d.locate p with
  | ok a => simp
  | error o => simp

/-- No path of the one list leads to the same location as one of the other. -/
def Apart (d : Disk) (ps qs : List Text) : Prop :=
  ∀ p ∈ ps, ∀ q ∈ qs, ∀ l ∈ d.place? p, l ∉ d.place? q

instance (d : Disk) (ps qs : List Text) : Decidable (d.Apart ps qs) :=
  inferInstanceAs (Decidable (∀ p ∈ ps, ∀ q ∈ qs, ∀ l ∈ d.place? p, l ∉ d.place? q))

theorem Apart.symm (h : d.Apart ps qs) : d.Apart qs ps :=
  fun q hq p hp l hl hl' => h p hp q hq l hl' hl

theorem Apart.not_locate (h : d.Apart ps qs) {p q : Text} {l : Location} (hp : p ∈ ps)
    (hq : q ∈ qs) (hl : d.locate p = .ok l) : d.locate q ≠ .ok l := by
  intro hl'
  exact h p hp q hq l (place?_eq_some_iff.2 hl) (place?_eq_some_iff.2 hl')

/-- Plans for paths that lie apart can be carried out in any order. -/
theorem Apart.apply_comm (h : d.Apart ps qs) {cs cs' : List Change} (hcs : d.Plans ps cs)
    (hcs' : d.Plans qs cs') (e : Disk) : (e.apply cs).apply cs' = (e.apply cs').apply cs := by
  refine Disk.apply_comm (fun c hc c' hc' hsame => ?_) e
  obtain ⟨⟨p, hp, hl⟩, -⟩ := hcs c hc
  obtain ⟨⟨q, hq, hl'⟩, -⟩ := hcs' c' hc'
  rw [← hsame] at hl'
  exact h.not_locate hp hq hl hl'

end Disk

/-! ### One job -/

namespace Job

variable {options : Options} {path : Text} {w w' : World}

/-- The source at a path is the same in both worlds. -/
def SameSource (path : Text) (w w' : World) : Prop :=
  ∀ l, w.disk.locate path = .ok l → w'.disk.get? l = w.disk.get? l

/-- The job succeeds in all worlds that are alike and have the same source, or in
none, and makes these changes. -/
structure Foretells (options : Options) (path : Text) (w : World) (cs : List Disk.Change) :
    Prop where
  plans : w.disk.Plans (OutputPaths.ofSource path).toList cs
  effect : ∀ w', w.Alike w' → SameSource path w w' →
    (perform (assembleFile options path) w').1.isOk =
        (perform (assembleFile options path) w).1.isOk ∧
      (perform (assembleFile options path) w').2.disk = w'.disk.apply cs ∧
      w.Alike (perform (assembleFile options path) w').2

theorem SameSource.symm (h : SameSource path w w') (hw : w.Alike w') : SameSource path w' w :=
  fun l hl => (h l (hw.folders.symm.locate hl)).symm

/-- **What a job does is foretold by the world it starts from.** -/
theorem exists_foretells (options : Options) (path : Text) (w : World) :
    ∃ cs, Foretells options path w cs := by
  cases hread : w.disk.read path with
  | error o =>
    -- the source cannot be read anywhere, for whatever reason
    have hfails : ∀ w', w.Alike w' → SameSource path w w' →
        ∃ e, perform (assembleFile options path) w' = (.error e, w') := by
      intro w' hw hsource
      cases hread' : w'.disk.read path with
      | error o' => exact ⟨_, by rw [perform_assembleFile, hread']⟩
      | ok input =>
        have hback := Disk.read_of_kept hw.folders.symm (hsource.symm hw) hread'
        rw [hread] at hback
        cases hback
    obtain ⟨e, he⟩ := hfails w (.refl w) fun _ _ => rfl
    refine ⟨[], Disk.plans_nil _ _, fun w' hw hsource => ?_⟩
    obtain ⟨e', he'⟩ := hfails w' hw hsource
    rw [he, he']
    exact ⟨rfl, rfl, hw⟩
  | ok input =>
    obtain ⟨r, cs, hcs, hplan⟩ := planned_produce options hread
    have hrun : ∀ w', w.Alike w' → SameSource path w w' →
        perform (assembleFile options path) w' = conclude options (r, w'.apply cs) := by
      intro w' hw hsource
      have hread' := Disk.read_of_kept hw.folders hsource hread
      rw [perform_assembleFile_of_read options hread', hplan w' hw]
    refine ⟨cs, hcs, fun w' hw hsource => ?_⟩
    have halike := hw.apply hcs
    obtain ⟨text, htext⟩ := conclude_world options r (w'.apply cs)
    rw [hrun w' hw hsource, hrun w (.refl w) fun _ _ => rfl, conclude_isOk, conclude_isOk, htext]
    refine ⟨?_, rfl, halike.folders, halike.printerFull⟩
    exact congrArg (fun full => r.isOk && !(options.list && full)) hw.printerFull

end Job

/-! ### The jobs of a command -/

namespace Command

open Job

variable {options : Options} {w : World}

/-- The paths of a job: its source, and the files of the source. -/
def footprint (t : Text) : List Text :=
  Path.source t :: (OutputPaths.ofSource (Path.source t)).toList

/-- The job on an input fails if it is done by itself. -/
def fails (options : Options) (w : World) (t : Text) : Bool :=
  !(Job.perform (assembleFile options (Path.source t)) w).1.isOk

/-- How a command ends, and the world after it. -/
def perform (c : Command) (w : World) : Outcome × World := (c.execute : StateM World Outcome).run w

theorem failures_cons (t : Text) (ts : List Text) {w w' : World} {r : Except Failure Program}
    (h : Job.perform (assembleFile options (Path.source t)) w = (r, w')) :
    (failures options (t :: ts) : StateM World Nat).run w =
      (((failures options ts : StateM World Nat).run w').1 + (if r.isOk then 0 else 1),
        ((failures options ts : StateM World Nat).run w').2) := by
  have hrun : StateT.run (assembleFile (m := StateM World) options (Path.source t)).run w =
      (r, w') := h
  rw [failures, StateT.run_bind, hrun]
  cases r with
  | ok p => rfl
  | error e => rfl

/-- **The jobs of a command do what each would have done at the start.** The
invariant is that the folders, and the sources of the jobs to come, are as they
were. -/
theorem failures_run {cs : Text → List Disk.Change}
    (hcs : ∀ t, Foretells options (Path.source t) w (cs t)) : ∀ (ts : List Text) (w' : World),
    (ts.Pairwise fun s t => w.disk.Apart (footprint s) (footprint t)) → w.Alike w' →
      (∀ t ∈ ts, SameSource (Path.source t) w w') →
      ((failures options ts : StateM World Nat).run w').1 = ts.countP (fails options w) ∧
        ((failures options ts : StateM World Nat).run w').2.disk =
          ts.foldl (fun d t => d.apply (cs t)) w'.disk
  | [], _, _, _, _ => ⟨rfl, rfl⟩
  | t :: ts, w', hapart, hw, hsources => by
    obtain ⟨hfirst, hapart⟩ := List.pairwise_cons.1 hapart
    obtain ⟨hsource, hsources⟩ := List.forall_mem_cons.1 hsources
    obtain ⟨r, v, hrun⟩ : ∃ r v, Job.perform (assembleFile options (Path.source t)) w' = (r, v) :=
      ⟨_, _, rfl⟩
    obtain ⟨hresult, hchanges, halike⟩ := (hcs t).effect w' hw hsource
    rw [hrun] at hresult hchanges halike
    have hkept : ∀ t' ∈ ts, SameSource (Path.source t') w v := by
      intro t' ht' l hl
      have hlocate : ∀ q ∈ (OutputPaths.ofSource (Path.source t)).toList,
          w.disk.locate q = .ok l → w.disk.get? l = some .folder := by
        intro q hq hql
        have hne := (hfirst t' ht').symm.not_locate List.mem_cons_self (List.mem_cons_of_mem _ hq) hl
        exact absurd hql hne
      show v.disk.get? l = _
      rw [hchanges, (hcs t).plans.get?_apply hlocate]
      exact hsources t' ht' l hl
    obtain ⟨hcount, hdisk⟩ := failures_run hcs ts v hapart halike hkept
    rw [failures_cons t ts hrun]
    refine ⟨?_, ?_⟩
    · rw [List.countP_cons, hcount, fails, ← hresult]
      cases r.isOk <;> rfl
    · rw [List.foldl_cons, hdisk, hchanges]

theorem foldl_apply_perm {cs : Text → List Disk.Change} {ts us : List Text}
    (hcs : ∀ t, Foretells options (Path.source t) w (cs t))
    (hapart : ts.Pairwise fun s t => w.disk.Apart (footprint s) (footprint t)) (hperm : us.Perm ts)
    (d : Disk) :
    us.foldl (fun d t => d.apply (cs t)) d = ts.foldl (fun d t => d.apply (cs t)) d := by
  have hsymm : Std.Symm fun s t => w.disk.Apart (footprint s) (footprint t) := ⟨fun _ _ h => h.symm⟩
  refine (hperm.symm.foldl_eq' (fun s hs t ht e => ?_) d).symm
  by_cases hst : s = t
  · rw [hst]
  · have hplans : ∀ u, w.disk.Plans (footprint u) (cs u) := fun u =>
      (hcs u).plans.mono (List.subset_cons_self _ _)
    exact (hapart.forall hs ht hst).apply_comm (hplans s) (hplans t) e

/-- How a command ends when some of its jobs fail. -/
def outcome (failed total : Nat) : Outcome :=
  if failed = 0 then { exit := 0 } else { exit := 1, complaint := complaint failed total }

theorem perform_eq (c : Command) (w : World) :
    c.perform w = (outcome ((failures c.options c.inputs : StateM World Nat).run w).1 c.inputs.length,
      ((failures c.options c.inputs : StateM World Nat).run w).2) := by
  -- a bind of states is carried out part by part
  have hrun : c.perform w = StateT.run
      (if ((failures c.options c.inputs : StateM World Nat).run w).1 = 0 then
        (pure { exit := 0 } : StateM World Outcome)
      else pure { exit := 1, complaint := complaint _ c.inputs.length })
      ((failures c.options c.inputs : StateM World Nat).run w).2 := rfl
  rw [hrun, outcome]
  by_cases hn : ((failures c.options c.inputs : StateM World Nat).run w).1 = 0
  · rw [if_pos hn, if_pos hn]
    rfl
  · rw [if_neg hn, if_neg hn]
    rfl

/-- **The jobs of a command do not influence each other.** If no two of them have a
place in common, then as many fail as fail when each is done by itself at the
start, and the command succeeds exactly if that is none. For every order of the
inputs it ends in the same way, with the same complaint and the same disk. -/
theorem perform_perm {c : Command} {inputs : List Text} {w : World}
    (hapart : c.inputs.Pairwise fun s t => w.disk.Apart (footprint s) (footprint t))
    (hperm : inputs.Perm c.inputs) :
    ((failures c.options c.inputs : StateM World Nat).run w).1 =
        c.inputs.countP (fails c.options w) ∧
      (c.perform w).1 = outcome (c.inputs.countP (fails c.options w)) c.inputs.length ∧
      ((c.perform w).1.exit = 0 ↔ c.inputs.countP (fails c.options w) = 0) ∧
      (perform { c with inputs } w).1 = (c.perform w).1 ∧
      (perform { c with inputs } w).2.disk = (c.perform w).2.disk := by
  choose cs hcs using fun t => exists_foretells c.options (Path.source t) w
  have hsources : ∀ ts : List Text, ∀ t ∈ ts, SameSource (Path.source t) w w :=
    fun _ _ _ _ _ => rfl
  have hapart' : inputs.Pairwise fun s t => w.disk.Apart (footprint s) (footprint t) :=
    (hperm.pairwise_iff fun h => h.symm).2 hapart
  obtain ⟨hcount, hdisk⟩ := failures_run hcs c.inputs w hapart (.refl w) (hsources _)
  obtain ⟨hcount', hdisk'⟩ := failures_run hcs inputs w hapart' (.refl w) (hsources _)
  have houtcome : (c.perform w).1 =
      outcome (c.inputs.countP (fails c.options w)) c.inputs.length := by
    rw [perform_eq, hcount]
  refine ⟨hcount, houtcome, ?_, ?_, ?_⟩
  · rw [houtcome, outcome]
    by_cases hn : c.inputs.countP (fails c.options w) = 0
    · rw [if_pos hn]
      exact iff_of_true rfl hn
    · rw [if_neg hn]
      exact iff_of_false nofun hn
  · rw [houtcome, perform_eq, hcount', hperm.countP_eq, hperm.length_eq]
  · rw [perform_eq, perform_eq, hdisk, hdisk']
    exact foldl_apply_perm hcs hapart hperm w.disk

/-- Three sources, of which one has an error and one is missing, and files of
earlier runs. Two of them are away from the folder one is in. -/
def mixedWorld : World where
  disk := .ofTexts
    [("/src/a.as", "stop\n"), ("/src/b.as", "?\n"), ("/src/b.ob", "x"), ("c.ent", "x")]

/-- The command on these sources. -/
def mixedCommand : Command := { inputs := ["/src/a".toList, "../../src/b".toList, "c".toList] }

/-- The command on the same sources, last one first. -/
def mixedCommandReversed : Command :=
  { inputs := mixedCommand.inputs.reverse, options := mixedCommand.options }

theorem perform_perm_mixed :
    ∃ outcome, outcome.complaint = "2 of 3 files failed to assemble\n".toList ∧
      (mixedCommand.perform mixedWorld).1 = outcome ∧
      (mixedCommandReversed.perform mixedWorld).1 = outcome ∧
      (mixedCommandReversed.perform mixedWorld).2.disk =
        (mixedCommand.perform mixedWorld).2.disk := by
  have hapart : mixedCommand.inputs.Pairwise fun s t =>
      mixedWorld.disk.Apart (footprint s) (footprint t) := by decide +kernel
  have hcount : mixedCommand.inputs.countP (fails mixedCommand.options mixedWorld) = 2 := by
    decide +kernel
  obtain ⟨-, houtcome, -, hsame, hdisk⟩ := perform_perm hapart (List.reverse_perm _)
  rw [hcount] at houtcome
  refine ⟨_, rfl, houtcome, hsame.trans houtcome, ?_⟩
  rw [mixedCommandReversed]
  exact hdisk

end Command
end TenBit
