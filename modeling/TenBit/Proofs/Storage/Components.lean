/-
# Paths by their components

Two texts are the same path if they have the same components: slashes that
follow each other count as one, and slashes at the end and dots alone do not
count, unless a dot comes first. The name of a path is its last component, and
the others are its directory.

What follows a name in a text is a trail of slashes and lone dots. It makes no
difference to the components, but when a path gets another extension, it is the
trail that is cut off first. So a name of two dots and an extension keeps its
stem if there is a trail behind it, and is lost if there is none.

Key definitions: `Path.components`, `Path.Same`, `Path.directory`, `Path.stem?`,
`Path.Trail`, `Path.Dotted`.
Key theorems: `Path.exists_trail_of_cut?`, `Path.components_append_name`,
`Path.components_of_cut?`, `Path.withExtension_of_cut?`,
`Path.components_withExtension`, `Path.source_source`.
-/
import TenBit.Proofs.Storage.Path

namespace TenBit
namespace Path

variable {p q f x s e t : Text}

/-- What a path starts from, where it says so: the root, or the folder one is
in. -/
def lead (p : Text) : List Text :=
  if isFull p then [['/']] else if (parts p).head? = some ['.'] then [['.']] else []

/-- The parts of a path that count. -/
def counted (p : Text) : List Text := (parts p).filter fun x => x ≠ [] ∧ x ≠ ['.']

/-- The components of a path. No part of a path is a slash, so that a slash can
stand for the root. -/
def components (p : Text) : List Text := lead p ++ counted p

/-- Two texts are one path. -/
def Same (p q : Text) : Prop := components p = components q

instance : DecidableRel Same := fun p q => inferInstanceAs (Decidable (components p = components q))

/-- The components of a path before the last. -/
def directory (p : Text) : List Text := (components p).dropLast

/-- The file name of a path without its extension. -/
def stem? (p : Text) : Option Text := (cut? p).map fun c => (splitName c.2).1

/-! ### Components -/

theorem counted_append_slash (g x : Text) : counted (g ++ '/' :: x) = counted g ++ counted x := by
  simp [counted, parts_append_slash]

theorem counted_of_part (hslash : '/' ∉ x) (hnil : x ≠ []) (hdot : x ≠ ['.']) :
    counted x = [x] := by
  simp [counted, parts_of_noSlash hslash, hnil, hdot]

/-- The start of a path does not depend on what follows its first part. -/
theorem lead_append_slash {g : Text} (hg : g ≠ []) (x : Text) : lead (g ++ '/' :: x) = lead g := by
  have hfull : isFull (g ++ '/' :: x) = isFull g := by
    obtain ⟨c, cs, rfl⟩ := List.exists_cons_of_ne_nil hg
    rfl
  have hhead : (parts (g ++ '/' :: x)).head? = (parts g).head? := by
    obtain ⟨y, ys, hy⟩ := List.exists_cons_of_ne_nil (parts_ne_nil g)
    rw [parts_append_slash, hy]
    rfl
  rw [lead, lead, hfull, hhead]

theorem components_append_slash {g : Text} (hg : g ≠ []) (x : Text) :
    components (g ++ '/' :: x) = components g ++ counted x := by
  rw [components, components, lead_append_slash hg, counted_append_slash, List.append_assoc]

/-- A part behind a front is the last component. -/
theorem components_append_part (hf : Front f) (hslash : '/' ∉ x) (hnil : x ≠ [])
    (hdot : x ≠ ['.']) : components (f ++ x) = components f ++ [x] := by
  have hcounted := counted_of_part hslash hnil hdot
  rcases hf with rfl | ⟨g, rfl⟩
  · have hfull : isFull x = false := isFull_append_name (f := []) hslash
    have hlead : lead x = [] := by simp [lead, hfull, parts_of_noSlash hslash, hdot]
    rw [List.nil_append, components, hlead, hcounted]
    rfl
  · by_cases hg : g = []
    · subst hg
      have hroot : counted ('/' :: x) = [x] := by
        rw [← List.nil_append ('/' :: x), counted_append_slash, hcounted]
        rfl
      show lead ('/' :: x) ++ counted ('/' :: x) = _
      rw [hroot]
      rfl
    · rw [List.append_assoc, List.singleton_append, components_append_slash hg,
        components_append_slash hg, hcounted]
      simp [counted, parts]

theorem components_append_name (hf : Front f) (hx : IsName x) :
    components (f ++ x) = components f ++ [x] :=
  components_append_part hf hx.noSlash hx.ne_nil hx.ne_dot

theorem components_append_dots (hf : Front f) :
    components (f ++ ['.', '.']) = components f ++ [['.', '.']] :=
  components_append_part hf (by decide) (by decide) (by decide)

/-! ### Trails -/

/-- What can stand behind a name without being part of it. -/
inductive Trail : Text → Prop
  | nil : Trail []
  | slash {t : Text} : Trail t → Trail (t ++ ['/'])
  | dot {t : Text} : Trail t → Trail (t ++ ['/', '.'])

/-- What is dropped at the end of a path is a trail. -/
theorem exists_trail (r : Text) : ∃ t, Trail t ∧ r.reverse = (dropEnd r).reverse ++ t := by
  fun_induction dropEnd r with
  | case1 r ih =>
    obtain ⟨t, ht, hr⟩ := ih
    exact ⟨t ++ ['/'], ht.slash, by rw [List.reverse_cons, hr, List.append_assoc]⟩
  | case2 r ih =>
    obtain ⟨t, ht, hr⟩ := ih
    exact ⟨t ++ ['/', '.'], ht.dot, by simp [hr]⟩
  | case3 r => exact ⟨[], .nil, by simp⟩

/-- A trail is dropped whatever stands before it. -/
theorem Trail.dropEnd_append (ht : Trail t) (r : Text) : dropEnd (t.reverse ++ r) = dropEnd r := by
  induction ht with
  | nil => rfl
  | slash _ ih => rw [List.reverse_append, ← ih]; rfl
  | dot _ ih => rw [List.reverse_append, ← ih]; rfl

theorem Trail.cut?_append (ht : Trail t) (p : Text) : cut? (p ++ t) = cut? p := by
  have hcut : cut (p ++ t) = cut p := by rw [cut, cut, List.reverse_append, ht.dropEnd_append]
  rw [cut?, cut?, hcut]

theorem Trail.cut?_append_name (ht : Trail t) (hf : Front f) (hx : IsName x) :
    cut? (f ++ x ++ t) = some (f, x) :=
  (ht.cut?_append _).trans (Path.cut?_append_name hf hx)

/-- A trail that is cut short is still one. -/
theorem Trail.take (ht : Trail t) (n : Nat) : Trail (t.take n) := by
  induction ht with
  | nil => simpa using Trail.nil
  | @slash t ht ih =>
    by_cases hn : n ≤ t.length
    · rwa [List.take_append_of_le_length hn]
    · rw [List.take_of_length_le (by simp; omega)]
      exact ht.slash
  | @dot t ht ih =>
    by_cases hn : n ≤ t.length
    · rwa [List.take_append_of_le_length hn]
    · by_cases hone : n = t.length + 1
      · rw [hone, List.take_length_add_append]
        exact ht.slash
      · rw [List.take_of_length_le (by simp; omega)]
        exact ht.dot

theorem Trail.components_append (ht : Trail t) (hp : p ≠ []) :
    components (p ++ t) = components p := by
  induction ht with
  | nil => rw [List.append_nil]
  | @slash t _ ih =>
    rw [← List.append_assoc, components_append_slash (by simp [hp]), ih]
    simp [counted, parts]
  | @dot t _ ih =>
    rw [← List.append_assoc, components_append_slash (by simp [hp]), ih]
    simp [counted, parts]

/-- Cutting a path loses nothing but its trail. -/
theorem reverse_dropEnd (p : Text) : (dropEnd p.reverse).reverse = (cut p).1 ++ (cut p).2 := by
  simp only [cut]
  rw [← List.reverse_append, List.takeWhile_append_dropWhile]

theorem cut_of_cut? (h : cut? p = some (f, x)) : cut p = (f, x) := by
  unfold cut? at h
  split at h
  split at h
  · cases h
  · rename_i hcut _
    rw [hcut, Option.some.inj h]

/-- **A path with a file name is a front, the name and a trail.** -/
theorem exists_trail_of_cut? (h : cut? p = some (f, x)) :
    Front f ∧ IsName x ∧ ∃ t, Trail t ∧ p = f ++ x ++ t := by
  obtain ⟨hf, hx⟩ := front_of_cut? h
  obtain ⟨t, ht, hp⟩ := exists_trail p.reverse
  refine ⟨hf, hx, t, ht, ?_⟩
  rwa [List.reverse_reverse, reverse_dropEnd, cut_of_cut? h] at hp

/-- The file name is the last component, and the others lead to it. -/
theorem components_of_cut? (h : cut? p = some (f, x)) : components p = components f ++ [x] := by
  obtain ⟨hf, hx, t, ht, rfl⟩ := exists_trail_of_cut? h
  rw [ht.components_append (by simp [hx.ne_nil]), components_append_name hf hx]

theorem directory_of_cut? (h : cut? p = some (f, x)) : directory p = components f := by
  rw [directory, components_of_cut? h, List.dropLast_concat]

/-! ### Stems and extensions -/

theorem stem?_of_cut? (h : cut? p = some (f, x)) : stem? p = some (splitName x).1 := by
  rw [stem?, h]
  rfl

theorem exists_stem? (h : (cut? p).isSome = true) : ∃ s, stem? p = some s := by
  obtain ⟨c, hc⟩ := Option.isSome_iff_exists.1 h
  exact ⟨_, stem?_of_cut? hc⟩

theorem ne_nil_of_stem? (h : stem? p = some s) : s ≠ [] := by
  obtain ⟨⟨f, x⟩, hcut, rfl⟩ := Option.map_eq_some_iff.1 h
  exact stem_ne_nil (front_of_cut? hcut).2.ne_nil

theorem noDot_of_splitName (h : (splitName x).2 = some e) : '.' ∉ e := by
  unfold splitName at h
  split at h
  · cases h
  · cases h
  · cases h
    intro hmem
    have := List.all_eq_true.1 List.all_takeWhile _ (List.mem_reverse.1 hmem)
    simp at this

theorem append_extension_inj {s' e' : Text} (hs : s ≠ []) (hs' : s' ≠ []) (he : '.' ∉ e)
    (he' : '.' ∉ e') (h : s ++ '.' :: e = s' ++ '.' :: e') : s = s' ∧ e = e' := by
  have hsplit := congrArg splitName h
  rw [splitName_append_extension hs he, splitName_append_extension hs' he'] at hsplit
  simpa using hsplit

/-- A name is its stem with its own extension and with no other. -/
theorem append_extension_eq_iff : (splitName x).1 ++ '.' :: e = x ↔ (splitName x).2 = some e := by
  refine ⟨fun h => ?_, fun h => ?_⟩
  · exact Decidable.of_not_not fun hne => append_extension_ne hne h
  · rcases splitName_cases x with hn | ⟨s, e', -, hx, hn⟩
    · rw [hn] at h
      cases h
    · rw [hn] at h ⊢
      cases h
      exact hx.symm

/-- A name whose stem is a dot is two dots and an extension. -/
theorem IsName.of_stem_eq_dot (hx : IsName x) (h : (splitName x).1 = ['.']) :
    ∃ e, x = '.' :: '.' :: e ∧ splitName x = (['.'], some e) := by
  rcases splitName_cases x with hn | ⟨s, e, -, hxs, hn⟩
  · rw [hn] at h
    exact absurd h hx.ne_dot
  · rw [hn] at h
    cases h
    exact ⟨e, hxs, hn⟩

/-! ### Another extension -/

/-- The path ends in two dots and an extension. Without the extension, the two
dots name no file. -/
def Dotted (p : Text) : Prop :=
  ∃ f e, Front f ∧ e ≠ [] ∧ '/' ∉ e ∧ '.' ∉ e ∧ p = f ++ '.' :: '.' :: e

/-- Such a path has a dot for its stem, and no trail. -/
theorem dotted_iff_stem? : Dotted p ↔ stem? p = some ['.'] ∧ dropEnd p.reverse = p.reverse := by
  constructor
  · rintro ⟨f, e, hf, hne, hslash, hdot, rfl⟩
    have hx : IsName ('.' :: '.' :: e) :=
      isName_append_extension (s := ['.']) (by decide) (by decide) hslash hne
    have hsplit : splitName ('.' :: '.' :: e) = (['.'], some e) :=
      splitName_append_extension (s := ['.']) (by decide) hdot
    rw [stem?_of_cut? (cut?_append_name hf hx), hsplit, List.reverse_append, dropEnd_of_name hx]
    exact ⟨rfl, rfl⟩
  · rintro ⟨hstem, hend⟩
    obtain ⟨⟨f, x⟩, hcut, hdot⟩ := Option.map_eq_some_iff.1 hstem
    obtain ⟨hf, hx, -⟩ := exists_trail_of_cut? hcut
    have hp : p = f ++ x := by
      rw [← List.reverse_reverse p, ← hend, reverse_dropEnd, cut_of_cut? hcut]
    obtain ⟨e, rfl, hn⟩ := hx.of_stem_eq_dot hdot
    exact ⟨f, e, hf, fun he => hx.ne_dots (by simp [he]), fun h => hx.noSlash (by simp [h]),
      noDot_of_splitName (congrArg Prod.snd hn), hp⟩

instance : DecidablePred Dotted := fun _ => decidable_of_iff' _ dotted_iff_stem?

theorem Trail.dotted_iff (ht : Trail t) (hf : Front f) (hx : IsName x) :
    Dotted (f ++ x ++ t) ↔ (splitName x).1 = ['.'] ∧ t = [] := by
  have hcut := ht.cut?_append_name hf hx
  have hdrop : dropEnd (f ++ x ++ t).reverse = (f ++ x).reverse := by
    rw [List.reverse_append, ht.dropEnd_append, List.reverse_append, dropEnd_of_name hx]
  rw [dotted_iff_stem?, stem?_of_cut? hcut, hdrop, Option.some.injEq, List.reverse_inj,
    List.self_eq_append_right]

/-- A path is made shorter from its end: its trail is cut off before its
extension. -/
theorem Trail.shorten_append (ht : Trail t) (hf : Front f) (hx : IsName (s ++ '.' :: e))
    (hn : splitName (s ++ '.' :: e) = (s, some e)) :
    shorten (f ++ (s ++ '.' :: e) ++ t) =
      f ++ (s ++ '.' :: e.take t.length) ++ t.take (t.length - e.length) := by
  have hext : extension? (f ++ (s ++ '.' :: e) ++ t) = some e := by
    rw [extension?_of_cut? (ht.cut?_append_name hf hx), hn]
  have hpath : f ++ (s ++ '.' :: e) ++ t = (f ++ (s ++ ['.'])) ++ (e ++ t) := by simp
  have hlength : (f ++ (s ++ '.' :: e) ++ t).length - e.length =
      (f ++ (s ++ ['.'])).length + t.length := by
    simp only [List.length_append, List.length_cons, List.length_nil]
    omega
  simp only [shorten, hext]
  rw [hlength, hpath, List.take_length_add_append, List.take_append]
  simp

/-- A trail saves the stem: some of the old extension is left before the new one
is set, if there was any. -/
theorem Trail.withExtension_append (ht : Trail t) (hnil : t ≠ []) (hf : Front f) (hx : IsName x)
    (e : Text) : withExtension (f ++ x ++ t) e = f ++ ((splitName x).1 ++ '.' :: e) := by
  have hcut := ht.cut?_append_name hf hx
  rcases splitName_cases x with hn | ⟨s, e', hs, hxs, hn⟩
  · have hext : extension? (f ++ x ++ t) = none := by rw [extension?_of_cut? hcut, hn]
    rw [withExtension, shorten, hext, setExtension_of_cut? hcut]
  · subst hxs
    have hname : IsName (s ++ '.' :: e'.take t.length) := by
      by_cases he' : e' = []
      · rwa [he', List.take_nil, ← he']
      · refine isName_append_extension (fun h => hx.noSlash (by simp [h])) hs (fun h => ?_) ?_
        · exact hx.noSlash (by simp [List.mem_of_mem_take h])
        · simp [he', hnil]
    have hsplit : splitName (s ++ '.' :: e'.take t.length) = (s, some (e'.take t.length)) :=
      splitName_append_extension hs fun h =>
        noDot_of_splitName (congrArg Prod.snd hn) (List.mem_of_mem_take h)
    have hshort := (ht.take (t.length - e'.length)).cut?_append_name hf hname
    rw [withExtension, ht.shorten_append hf hx hn, setExtension_of_cut? hshort, hsplit, hn]

/-- **Another extension for a path with a file name**: the stem stays where it is,
and what follows it is replaced. -/
theorem withExtension_of_cut? (h : cut? p = some (f, x)) (e : Text) :
    withExtension p e =
      if Dotted p then f ++ ['.', '.'] else f ++ ((splitName x).1 ++ '.' :: e) := by
  obtain ⟨hf, hx, t, ht, rfl⟩ := exists_trail_of_cut? h
  simp only [ht.dotted_iff hf hx]
  by_cases hnil : t = []
  · subst hnil
    simp only [List.append_nil, and_true]
    rw [withExtension_append_name hf hx]
    by_cases hdot : (splitName x).1 = ['.']
    · obtain ⟨e', -, hn⟩ := hx.of_stem_eq_dot hdot
      simp [hn]
    · simp [hdot]
  · rw [if_neg fun h => hnil h.2, ht.withExtension_append hnil hf hx]

/-- **Another extension changes the last component only.** -/
theorem components_withExtension (hs : stem? p = some s) (he : e ≠ []) (hslash : '/' ∉ e) :
    components (withExtension p e) =
      directory p ++ [if Dotted p then ['.', '.'] else s ++ '.' :: e] := by
  obtain ⟨⟨f, x⟩, hcut, rfl⟩ := Option.map_eq_some_iff.1 hs
  obtain ⟨hf, hx⟩ := front_of_cut? hcut
  rw [withExtension_of_cut? hcut, directory_of_cut? hcut]
  split
  · exact components_append_dots hf
  · exact components_append_name hf (hx.stem_append hslash he)

/-- A path with another extension is in the same folder. -/
theorem folder_withExtension (hs : stem? p = some s) (he : e ≠ []) (hslash : '/' ∉ e) :
    folder (withExtension p e) = folder p := by
  obtain ⟨⟨f, x⟩, hcut, -⟩ := Option.map_eq_some_iff.1 hs
  obtain ⟨hf, hx⟩ := front_of_cut? hcut
  refine folder_congr ?_
  rw [cut_of_cut? hcut, withExtension_of_cut? hcut]
  split
  · rw [cut_append_dots hf]
  · rw [cut_append_name hf (hx.stem_append hslash he)]

/-! ### The path of a source -/

theorem source_of_extension? (h : extension? p = some e) : source p = p := by
  rw [source, h]

/-- **A path that means a source means itself.** -/
theorem source_source (p : Text) : source (source p) = source p := by
  cases hext : extension? p with
  | some e => rw [source_of_extension? hext, source_of_extension? hext]
  | none =>
    have hsource : source p = withExtension p "as".toList := by rw [source, hext]
    cases hcut : cut? p with
    | none =>
      have hsame : source p = p := by
        rw [hsource, withExtension, shorten, hext, setExtension, hcut]
      rw [hsame, hsame]
    | some c =>
      obtain ⟨f, x⟩ := c
      obtain ⟨hf, hx⟩ := front_of_cut? hcut
      have hn : splitName x = (x, none) := by
        rcases splitName_cases x with hn | ⟨s, e, -, -, hn⟩
        · exact hn
        · rw [extension?_of_cut? hcut, hn] at hext
          cases hext
      have hdotted : ¬ Dotted p := by
        intro hdotted
        have hstem := (dotted_iff_stem?.1 hdotted).1
        rw [stem?_of_cut? hcut, hn] at hstem
        exact hx.ne_dot (Option.some.inj hstem)
      rw [hsource, withExtension_of_cut? hcut, if_neg hdotted, hn]
      have hname : IsName (x ++ '.' :: "as".toList) :=
        isName_append_extension hx.noSlash hx.ne_nil (by decide) (by decide)
      have hsplit := splitName_append_extension (e := "as".toList) hx.ne_nil (by decide)
      refine source_of_extension? (e := "as".toList) ?_
      rw [extension?_append_name hf hname, hsplit]

end Path
end TenBit
