/-
# A second run changes nothing

A job that is done again finds its source as it was, since none of its files is
the source, unless the source has the extension of one of them. It then has the
same plan as before, and making the same changes again changes nothing. That
holds whatever became of the first run: some files may have been written, and
some removed, before a folder was in the way.

Key definitions: `OutputPaths.extensions`.
Key theorems: `OutputPaths.not_locate_source`, `Job.assembleFile_again`.
-/
import TenBit.Proofs.Job.Foresight

namespace TenBit

namespace OutputPaths

/-- The extensions of the files of a source. -/
def extensions : List Text := ["am".toList, "ob".toList, "ent".toList, "ext".toList]

theorem plain_of_mem_extensions : ∀ e ∈ extensions, e ≠ [] ∧ '/' ∉ e := by decide

theorem toList_ofSource (p : Text) : (ofSource p).toList = extensions.map (Path.withExtension p) :=
  rfl

/-- **No file of a source takes its place**, unless the source has the extension
of one. -/
theorem not_locate_source {d : Disk} {p q : Text} {l : Location} {b : List UInt8}
    (hp : d.find p = .ok (.file b)) (hl : d.locate p = .ok l)
    (hext : ∀ e ∈ extensions, Path.extension? p ≠ some e) (hq : q ∈ (ofSource p).toList) :
    d.locate q = .ok l → d.get? l = some .folder := by
  intro hlocate
  obtain ⟨f, x, a, rfl, hopens, hx, hnul, hfits, hname, -⟩ := Disk.exists_opens_of_find hp
  rw [hopens.locate_name hx hnul, if_pos ⟨hfits, hname⟩] at hl
  have hl : a ++ [x] = l := by simpa using hl
  rw [toList_ofSource, List.mem_map] at hq
  obtain ⟨e, he, rfl⟩ := hq
  have hne := hext e he
  rw [Path.extension?_append_name hopens.front hx] at hne
  rw [Path.withExtension_append_name hopens.front hx] at hlocate
  split at hlocate
  · -- the files are the folder that two dots lead to
    have hfitsDots := (Disk.locate_eq_ok_iff.1 hlocate).2.1
    exact Disk.get?_of_find (hopens.find_dots hfitsDots) hlocate
  · -- the file lies beside the source, under another name
    have hplain := plain_of_mem_extensions e he
    have hyname := hx.stem_append hplain.2 hplain.1
    have hynul : '\x00' ∉ (Path.splitName x).1 ++ '.' :: e := fun h =>
      (Disk.locate_eq_ok_iff.1 hlocate).1 (List.mem_append_right f h)
    rw [hopens.locate_name hyname hynul, ← hl] at hlocate
    split at hlocate
    · have hsame : (Path.splitName x).1 ++ '.' :: e = x := by simpa using hlocate
      exact absurd hsame (Path.append_extension_ne hne)
    · cases hlocate

end OutputPaths

namespace Job

/-- **Doing a job again is doing it once.** A job without a listing, on a source
whose extension is not that of one of its files, has the same result when it is
done again right after, and leaves the world as it is. -/
theorem assembleFile_again {options : Options} {path : Text} (hlist : options.list = false)
    (hext : ∀ e ∈ OutputPaths.extensions, Path.extension? path ≠ some e) (w : World) :
    perform (assembleFile options path) (perform (assembleFile options path) w).2 =
      perform (assembleFile options path) w := by
  cases hread : w.disk.read path with
  | error o =>
    have hfirst : perform (assembleFile options path) w =
        (.error (.storage ⟨.read, .file path, o.message⟩), w) := by
      rw [perform_assembleFile, hread]
    rw [hfirst, hfirst]
  | ok input =>
    obtain ⟨r, cs, hcs, hplan⟩ := planned_produce options hread
    have hfirst : perform (assembleFile options path) w = (r, w.apply cs) := by
      rw [perform_assembleFile_of_read options hread, hplan w (.refl w),
        conclude_of_not_list hlist]
    -- the source is still there
    have hkept : ∀ l, w.disk.locate path = .ok l →
        (w.disk.apply cs).get? l = w.disk.get? l := by
      intro l hl
      refine hcs.get?_apply (fun q hq => ?_) w.disk
      rcases Disk.read_eq_ok hread with ⟨b, hfind, -⟩ | ⟨hfolder, -⟩
      · exact OutputPaths.not_locate_source hfind hl hext hq
      · exact fun _ => Disk.get?_of_find hfolder hl
    have hagain : (w.apply cs).disk.read path = .ok input :=
      Disk.read_of_kept (hcs.sameFolders (.refl _)) hkept hread
    have halike : w.Alike (w.apply cs) := (World.Alike.refl w).apply hcs
    rw [hfirst, perform_assembleFile_of_read options hagain, hplan _ halike,
      conclude_of_not_list hlist, World.apply, World.apply, Disk.apply_apply_self]

/-- A program with an entry, a folder in the way of its entries file, and files of
an earlier run. -/
def blockedWorld : World where
  disk := (Disk.ofTexts [("/src/a.as", ".entry A\nA: stop\n"), ("/src/a.ob", "x"),
    ("/src/a.ext", "x")]).makeFolder "/src/a.ent".toList

/-- The path of the program from the folder one is in. -/
def blockedPath : Text := "../../src/a.as".toList

theorem assembleFile_again_blocked :
    ∃ e w', perform (assembleFile {} blockedPath) blockedWorld = (.error e, w') ∧
      w' ≠ blockedWorld ∧ perform (assembleFile {} blockedPath) w' = (.error e, w') := by
  have hfails : (perform (assembleFile {} blockedPath) blockedWorld).1.isOk = false := by
    decide +kernel
  have hchanges : (perform (assembleFile {} blockedPath) blockedWorld).2 ≠ blockedWorld := by
    decide +kernel
  have hagain := @assembleFile_again {} blockedPath rfl (by decide) blockedWorld
  cases hrun : perform (assembleFile {} blockedPath) blockedWorld with
  | mk r w' =>
    rw [hrun] at hfails hchanges hagain
    cases r with
    | ok t => cases hfails
    | error e => exact ⟨e, w', rfl, hchanges, hagain⟩

end Job
end TenBit
