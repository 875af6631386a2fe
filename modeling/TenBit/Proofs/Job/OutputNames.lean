/-
# The files of sources keep apart

The files of a source lie in its directory under its stem, each with an extension
of its own. So they are four different paths, one of them is the source exactly
if the source has its extension, and the files of two sources are either all the
same or all different: they are the same if directory and stem are.

A source whose name is two dots and an extension breaks this. The two dots are
all that is left of its name, so that its files are one and the same path, which
is that of no file at all.

Key definitions: `OutputPaths.Distinct`, `OutputPaths.Meets`,
`OutputPaths.Agrees`.
Key theorems: `Path.same_withExtension_iff`, `Path.same_withExtension_self_iff`,
`OutputPaths.distinct_ofSource_iff`, `OutputPaths.meets_ofSource_iff`,
`OutputPaths.names_exact`.
-/
import TenBit.Proofs.Job.Repetition
import TenBit.Proofs.Storage.Components

namespace TenBit

variable {p q s s' e e' : Text}

/-! ### Paths with other extensions -/

namespace Path

open OutputPaths (extensions)

theorem noDot_of_mem_extensions : ∀ e ∈ extensions, '.' ∉ e := by decide

/-- A stem with an extension is more than two dots. -/
theorem append_extension_ne_dots (hs : s ≠ []) (he : e ∈ extensions) :
    s ++ '.' :: e ≠ ['.', '.'] := by
  have hlength := List.length_pos_iff.2 hs
  have hlength' := List.length_pos_iff.2 (OutputPaths.plain_of_mem_extensions e he).1
  intro h
  have h := congrArg List.length h
  simp only [List.length_append, List.length_cons, List.length_nil] at h
  omega

theorem components_withExtension_of_mem (hs : stem? p = some s) (he : e ∈ extensions) :
    components (withExtension p e) =
      directory p ++ [if Dotted p then ['.', '.'] else s ++ '.' :: e] :=
  have hplain := OutputPaths.plain_of_mem_extensions e he
  components_withExtension hs hplain.1 hplain.2

/-- **When two paths with other extensions are the same.** -/
theorem same_withExtension_iff (hs : stem? p = some s) (hs' : stem? q = some s')
    (he : e ∈ extensions) (he' : e' ∈ extensions) :
    Same (withExtension p e) (withExtension q e') ↔
      directory p = directory q ∧ s = s' ∧ (Dotted p ↔ Dotted q) ∧ (Dotted p ∨ e = e') := by
  have hstem := ne_nil_of_stem? hs
  have hstem' := ne_nil_of_stem? hs'
  rw [Same, components_withExtension_of_mem hs he, components_withExtension_of_mem hs' he',
    List.append_singleton_inj]
  refine and_congr_right fun _ => ?_
  by_cases hp : Dotted p
  · have hdot : s = ['.'] := Option.some.inj (hs.symm.trans (dotted_iff_stem?.1 hp).1)
    by_cases hq : Dotted q
    · have hdot' : s' = ['.'] := Option.some.inj (hs'.symm.trans (dotted_iff_stem?.1 hq).1)
      simp [hp, hq, hdot, hdot']
    · simp [hp, hq, (append_extension_ne_dots hstem' he').symm]
  · by_cases hq : Dotted q
    · simp [hp, hq, append_extension_ne_dots hstem he]
    · simp only [hp, hq, if_false, false_or, true_and]
      refine ⟨append_extension_inj hstem hstem' (noDot_of_mem_extensions e he)
        (noDot_of_mem_extensions e' he'), ?_⟩
      rintro ⟨rfl, rfl⟩
      rfl

/-- When a path with another extension is the path itself. -/
theorem same_withExtension_self_iff (hs : stem? p = some s) (he : e ∈ extensions) :
    Same (withExtension p e) p ↔ extension? p = some e ∧ ¬ Dotted p := by
  obtain ⟨⟨f, x⟩, hcut, hx⟩ := Option.map_eq_some_iff.1 hs
  have hname := (front_of_cut? hcut).2
  rw [Same, components_withExtension_of_mem hs he, components_of_cut? hcut, directory_of_cut? hcut,
    List.append_singleton_inj, extension?_of_cut? hcut, ← append_extension_eq_iff, ← hx]
  by_cases hp : Dotted p
  · simp [hp, hname.ne_dots.symm]
  · simp [hp]

end Path

/-! ### The files of sources -/

namespace OutputPaths

/-- No two of the files are one path. -/
def Distinct (paths : OutputPaths) : Prop :=
  paths.toList.Pairwise fun o o' => ¬ Path.Same o o'

/-- Some file of the one is a file of the other. -/
def Meets (a b : OutputPaths) : Prop := ∃ o ∈ a.toList, ∃ o' ∈ b.toList, Path.Same o o'

/-- Each file of the one is that file of the other. -/
structure Agrees (a b : OutputPaths) : Prop where
  expanded : Path.Same a.expanded b.expanded
  object : Path.Same a.object b.object
  entries : Path.Same a.entries b.entries
  externals : Path.Same a.externals b.externals

theorem distinct_ofSource_iff (hs : Path.stem? p = some s) :
    (ofSource p).Distinct ↔ ¬ Path.Dotted p := by
  rw [Distinct, toList_ofSource, List.pairwise_map]
  constructor
  · intro h hp
    refine (List.pairwise_cons.1 h).1 "ob".toList (by decide) ?_
    exact (Path.same_withExtension_iff hs hs (by decide) (by decide)).2
      ⟨rfl, rfl, Iff.rfl, .inl hp⟩
  · intro hp
    have hnodup : extensions.Nodup := by decide
    refine List.Pairwise.imp_of_mem (fun he he' hne hsame => ?_) hnodup
    obtain ⟨-, -, -, h⟩ := (Path.same_withExtension_iff hs hs he he').1 hsame
    exact h.elim hp hne

/-- The files of a source lie in its directory, and wait in its folder. -/
theorem directory_of_mem_ofSource (hs : Path.stem? p = some s) {o : Text}
    (ho : o ∈ (ofSource p).toList) :
    Path.directory o = Path.directory p ∧ Path.folder o = Path.folder p := by
  rw [toList_ofSource] at ho
  obtain ⟨e, he, rfl⟩ := List.mem_map.1 ho
  obtain ⟨hne, hslash⟩ := plain_of_mem_extensions e he
  rw [Path.directory, Path.components_withExtension_of_mem hs he, List.dropLast_concat]
  exact ⟨rfl, Path.folder_withExtension hs hne hslash⟩

theorem same_source_iff (hs : Path.stem? p = some s) :
    (∃ o ∈ (ofSource p).toList, Path.Same o p) ↔
      (∃ e ∈ extensions, Path.extension? p = some e) ∧ ¬ Path.Dotted p := by
  rw [toList_ofSource]
  constructor
  · rintro ⟨o, ho, hsame⟩
    obtain ⟨e, he, rfl⟩ := List.mem_map.1 ho
    obtain ⟨hext, hp⟩ := (Path.same_withExtension_self_iff hs he).1 hsame
    exact ⟨⟨e, he, hext⟩, hp⟩
  · rintro ⟨⟨e, he, hext⟩, hp⟩
    exact ⟨_, List.mem_map_of_mem he, (Path.same_withExtension_self_iff hs he).2 ⟨hext, hp⟩⟩

/-- **The files of two sources meet exactly if the sources have one directory and
one stem**, and both or none of them loses its name. -/
theorem meets_ofSource_iff (hs : Path.stem? p = some s) (hs' : Path.stem? q = some s') :
    (ofSource p).Meets (ofSource q) ↔
      Path.directory p = Path.directory q ∧ s = s' ∧ (Path.Dotted p ↔ Path.Dotted q) := by
  rw [Meets, toList_ofSource, toList_ofSource]
  constructor
  · rintro ⟨o, ho, o', ho', hsame⟩
    obtain ⟨e, he, rfl⟩ := List.mem_map.1 ho
    obtain ⟨e', he', rfl⟩ := List.mem_map.1 ho'
    obtain ⟨hdirectory, hstem, hdotted, -⟩ := (Path.same_withExtension_iff hs hs' he he').1 hsame
    exact ⟨hdirectory, hstem, hdotted⟩
  · rintro ⟨hdirectory, hstem, hdotted⟩
    have he : "am".toList ∈ extensions := by decide
    exact ⟨_, List.mem_map_of_mem he, _, List.mem_map_of_mem he,
      (Path.same_withExtension_iff hs hs' he he).2 ⟨hdirectory, hstem, hdotted, .inr rfl⟩⟩

/-- If some file is shared then all files are. -/
theorem agrees_of_meets (hs : Path.stem? p = some s) (hs' : Path.stem? q = some s')
    (h : (ofSource p).Meets (ofSource q)) : (ofSource p).Agrees (ofSource q) := by
  obtain ⟨hdirectory, hstem, hdotted⟩ := (meets_ofSource_iff hs hs').1 h
  have hsame : ∀ e ∈ extensions, Path.Same (Path.withExtension p e) (Path.withExtension q e) :=
    fun e he => (Path.same_withExtension_iff hs hs' he he).2 ⟨hdirectory, hstem, hdotted, .inr rfl⟩
  exact ⟨hsame _ (by decide), hsame _ (by decide), hsame _ (by decide), hsame _ (by decide)⟩

/-- **The names of files.** A path that means a source means itself. The files of
a source with a file name are in its directory; they are different paths, and one
of them is the source if the source has its extension, unless the name of the
source is two dots and an extension, and then all of them are the two dots. The
files of two sources are the same if the sources have one directory and one stem,
and both or none of them is such an exception; otherwise no file is shared. -/
theorem names_exact (p q : Text) :
    Path.source (Path.source p) = Path.source p ∧
    ((Path.cut? p).isSome = true →
      ((ofSource p).Distinct ↔ ¬ Path.Dotted p) ∧
      (∀ o ∈ (ofSource p).toList,
        Path.directory o = Path.directory p ∧ Path.folder o = Path.folder p) ∧
      ((∃ o ∈ (ofSource p).toList, Path.Same o p) ↔
        (∃ e ∈ extensions, Path.extension? p = some e) ∧ ¬ Path.Dotted p) ∧
      (Path.Dotted p → ∀ o ∈ (ofSource p).toList,
        Path.components o = Path.directory p ++ [['.', '.']])) ∧
    ((Path.cut? p).isSome = true → (Path.cut? q).isSome = true →
      ((ofSource p).Meets (ofSource q) ↔ Path.directory p = Path.directory q ∧
        Path.stem? p = Path.stem? q ∧ (Path.Dotted p ↔ Path.Dotted q)) ∧
      ((ofSource p).Meets (ofSource q) → (ofSource p).Agrees (ofSource q))) := by
  refine ⟨Path.source_source p, fun hp => ?_, fun hp hq => ?_⟩
  · obtain ⟨s, hs⟩ := Path.exists_stem? hp
    refine ⟨distinct_ofSource_iff hs, fun o ho => directory_of_mem_ofSource hs ho,
      same_source_iff hs, fun hdotted o ho => ?_⟩
    rw [toList_ofSource] at ho
    obtain ⟨e, he, rfl⟩ := List.mem_map.1 ho
    rw [Path.components_withExtension_of_mem hs he, if_pos hdotted]
  · obtain ⟨s, hs⟩ := Path.exists_stem? hp
    obtain ⟨s', hs'⟩ := Path.exists_stem? hq
    refine ⟨?_, agrees_of_meets hs hs'⟩
    rw [meets_ofSource_iff hs hs', hs, hs', Option.some.injEq]

/-- A stem with a dot in it, written in two ways and with two extensions, of which
the first is that of one of the files. -/
theorem names_exact_sample :
    (ofSource "d/a.b.ent/.".toList).Distinct ∧
      (∃ o ∈ (ofSource "d/a.b.ent/.".toList).toList, Path.Same o "d/a.b.ent/.".toList) ∧
      (ofSource "d/a.b.ent/.".toList).Agrees (ofSource "d//./a.b.as".toList) := by
  obtain ⟨-, hone, htwo⟩ := names_exact "d/a.b.ent/.".toList "d//./a.b.as".toList
  obtain ⟨hdistinct, -, hsource, -⟩ := hone (by decide)
  obtain ⟨hmeets, hagrees⟩ := htwo (by decide) (by decide)
  exact ⟨hdistinct.2 (by decide), hsource.2 (by decide), hagrees (hmeets.2 (by decide))⟩

/-- The exception cannot be left out: all files of `..as` are one path,
`..am` has the extension of a file that is not among its files, and `..as` and
`..as/` share no file though they have one directory and one stem. -/
theorem dotted_names_meet :
    (Path.cut? "..as".toList).isSome = true ∧ ¬ (ofSource "..as".toList).Distinct ∧
      Path.extension? "..am".toList = some "am".toList ∧
      (¬ ∃ o ∈ (ofSource "..am".toList).toList, Path.Same o "..am".toList) ∧
      Path.directory "..as".toList = Path.directory "..as/".toList ∧
      Path.stem? "..as".toList = Path.stem? "..as/".toList ∧
      ¬ (ofSource "..as".toList).Meets (ofSource "..as/".toList) := by
  unfold Distinct Meets
  decide

end OutputPaths
end TenBit
