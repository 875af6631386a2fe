/-
# Names in paths

A path that can lead to a file is a text that ends in a slash, or nothing at
all, and a name behind it. Cutting such a path gives the two back, its parts are
those of the front with the name behind them, and another extension changes
nothing but the name.

There is one exception. A name such as `..as` loses its extension before it
gets another one, and the two dots that are left name no file: they stay as they
are.

Key definitions: `Path.Front`, `Path.IsName`, `Path.way`.
Key theorems: `Path.exists_front`, `Path.parts_append_name`,
`Path.cut_append_name`, `Path.withExtension_append_name`,
`Path.withExtension_cases`, `Path.folder_cases`.
-/
import TenBit.Storage.Path

namespace TenBit
namespace Path

/-- A text that can stand in front of a name. -/
def Front (f : Text) : Prop := f = [] ∨ ∃ g, f = g ++ ['/']

/-- A part of a path that can name a file. -/
structure IsName (x : Text) : Prop where
  noSlash : '/' ∉ x
  ne_nil : x ≠ []
  ne_dot : x ≠ ['.']
  ne_dots : x ≠ ['.', '.']

/-- The parts of a front, without the empty one behind its last slash. -/
def way (f : Text) : List Text := (parts f).dropLast

/-! ### Parts -/

theorem parts_ne_nil : ∀ p : Text, parts p ≠ []
  | [] => by simp [parts]
  | c :: cs => by
    simp only [parts]
    split
    · simp
    · split <;> simp

theorem parts_of_noSlash : ∀ {x : Text}, '/' ∉ x → parts x = [x]
  | [], _ => rfl
  | c :: cs, h => by
    obtain ⟨hc, hcs⟩ := not_or.1 (fun h' => h (List.mem_cons.2 h'))
    simp [parts, Ne.symm hc, parts_of_noSlash hcs]

theorem parts_append_slash (x : Text) : ∀ g : Text, parts (g ++ '/' :: x) = parts g ++ parts x
  | [] => by simp [parts]
  | c :: cs => by
    simp only [List.cons_append, parts, parts_append_slash x cs]
    split
    · rfl
    · obtain ⟨q, qs, hq⟩ := List.exists_cons_of_ne_nil (parts_ne_nil cs)
      simp [hq]

theorem way_append_slash (g : Text) : way (g ++ ['/']) = parts g := by
  simp [way, parts_append_slash, parts]

/-- The name behind a front is the last part. -/
theorem parts_append_name {f x : Text} (hf : Front f) (hx : '/' ∉ x) :
    parts (f ++ x) = way f ++ [x] := by
  rcases hf with rfl | ⟨g, rfl⟩
  · simp [way, parts, parts_of_noSlash hx]
  · rw [List.append_assoc, List.singleton_append, parts_append_slash, way_append_slash,
      parts_of_noSlash hx]

/-- Every path is a front with its last part behind it. -/
theorem exists_front (p : Text) : ∃ f x, p = f ++ x ∧ Front f ∧ '/' ∉ x := by
  induction p with
  | nil => exact ⟨[], [], rfl, .inl rfl, by simp⟩
  | cons c cs ih =>
    obtain ⟨f, x, rfl, hf, hx⟩ := ih
    by_cases hc : c = '/'
    · subst hc
      rcases hf with rfl | ⟨g, rfl⟩
      · exact ⟨['/'], x, rfl, .inr ⟨[], rfl⟩, hx⟩
      · exact ⟨'/' :: (g ++ ['/']), x, rfl, .inr ⟨'/' :: g, rfl⟩, hx⟩
    · rcases hf with rfl | ⟨g, rfl⟩
      · exact ⟨[], c :: x, rfl, .inl rfl, by simp [Ne.symm hc, hx]⟩
      · exact ⟨c :: (g ++ ['/']), x, rfl, .inr ⟨c :: g, rfl⟩, hx⟩

theorem isFull_append_name {f x : Text} (hx : '/' ∉ x) : isFull (f ++ x) = isFull f := by
  cases f with
  | cons c cs => rfl
  | nil =>
    cases x with
    | nil => rfl
    | cons c cs =>
      have hc : c ≠ '/' := fun h => hx (h ▸ List.mem_cons_self)
      simp [isFull, hc]

/-! ### Cutting -/

/-- Nothing is dropped behind a name. -/
theorem dropEnd_of_name {x : Text} (hx : IsName x) (f : Text) :
    dropEnd (x.reverse ++ f) = x.reverse ++ f := by
  have hslash : '/' ∉ x.reverse := by simpa using hx.noSlash
  have hnil : x.reverse ≠ [] := by simpa using hx.ne_nil
  have hdot : x.reverse ≠ ['.'] := by simpa using hx.ne_dot
  generalize x.reverse = r at hslash hnil hdot
  rcases r with - | ⟨c, - | ⟨c', r⟩⟩
  · exact absurd rfl hnil
  · have hc : c ≠ '/' := fun h => hslash (by simp [h])
    have hc' : c ≠ '.' := fun h => hdot (by simp [h])
    simp only [List.cons_append, List.nil_append]
    rw [dropEnd] <;> simp_all
  · have hc : c ≠ '/' := fun h => hslash (by simp [h])
    have hc' : c' ≠ '/' := fun h => hslash (by simp [h])
    simp only [List.cons_append]
    rw [dropEnd] <;> simp_all

theorem takeWhile_name {x f : Text} (hf : Front f) (hx : '/' ∉ x) :
    (x.reverse ++ f.reverse).takeWhile (fun c => c != '/') = x.reverse ∧
      (x.reverse ++ f.reverse).dropWhile (fun c => c != '/') = f.reverse := by
  have hall : ∀ c ∈ x.reverse, (c != '/') = true := by
    intro c hc
    simpa using fun h : c = '/' => hx (h ▸ List.mem_reverse.1 hc)
  rw [List.takeWhile_append_of_pos hall, List.dropWhile_append_of_pos hall]
  rcases hf with rfl | ⟨g, rfl⟩ <;> simp

theorem cut_append_name {f x : Text} (hf : Front f) (hx : IsName x) : cut (f ++ x) = (f, x) := by
  obtain ⟨htake, hdrop⟩ := takeWhile_name hf hx.noSlash
  simp [cut, dropEnd_of_name hx, htake, hdrop]

theorem cut?_append_name {f x : Text} (hf : Front f) (hx : IsName x) :
    cut? (f ++ x) = some (f, x) := by
  simp [cut?, cut_append_name hf hx, hx.ne_nil, hx.ne_dot, hx.ne_dots]

theorem cut_append_dots {f : Text} (hf : Front f) :
    cut (f ++ ['.', '.']) = (f, ['.', '.']) := by
  obtain ⟨htake, hdropWhile⟩ := takeWhile_name (x := ['.', '.']) hf (by decide)
  have hdrop : dropEnd ('.' :: '.' :: f.reverse) = '.' :: '.' :: f.reverse := by
    rw [dropEnd] <;> simp
  simp only [List.reverse_cons, List.reverse_nil, List.nil_append, List.cons_append] at *
  simp [cut, hdrop, htake, hdropWhile]

theorem cut?_append_dots {f : Text} (hf : Front f) : cut? (f ++ ['.', '.']) = none := by
  simp [cut?, cut_append_dots hf]

theorem front_cut (p : Text) : Front (cut p).1 ∧ '/' ∉ (cut p).2 := by
  constructor
  · show Front ((dropEnd p.reverse).dropWhile fun c => c != '/').reverse
    cases hr : (dropEnd p.reverse).dropWhile fun c => c != '/' with
    | nil => exact .inl rfl
    | cons c r =>
      have hc := List.head?_dropWhile_not (fun c => c != '/') (dropEnd p.reverse)
      rw [hr] at hc
      have : c = '/' := by simpa using hc
      exact .inr ⟨r.reverse, by simp [this]⟩
  · intro hmem
    have := List.all_eq_true.1 List.all_takeWhile _ (List.mem_reverse.1 hmem)
    simp at this

/-- What is cut off a path is a name behind a front. -/
theorem front_of_cut? {p f x : Text} (h : cut? p = some (f, x)) : Front f ∧ IsName x := by
  have hcut : cut? p = if (cut p).2 = [] ∨ (cut p).2 = ['.'] ∨ (cut p).2 = ['.', '.'] then none
    else some (cut p) := rfl
  rw [hcut, Option.ite_none_left_eq_some, not_or, not_or, Option.some.injEq] at h
  obtain ⟨⟨hnil, hdot, hdots⟩, hfx⟩ := h
  obtain ⟨hf, hx⟩ := front_cut p
  rw [hfx] at hf hx hnil hdot hdots
  exact ⟨hf, hx, hnil, hdot, hdots⟩

/-! ### Extensions -/

/-- The ways in which a name has an extension or none. -/
theorem splitName_cases (x : Text) :
    splitName x = (x, none) ∨
      ∃ s e, s ≠ [] ∧ x = s ++ '.' :: e ∧ splitName x = (s, some e) := by
  simp only [splitName]
  have hx := List.takeWhile_append_dropWhile (p := fun c => c != '.') (l := x.reverse)
  split
  · exact .inl rfl
  · exact .inl rfl
  · rename_i c s hs hr
    have hc := List.head?_dropWhile_not (fun c => c != '.') x.reverse
    rw [hr] at hc hx
    have hc : c = '.' := by simpa using hc
    refine .inr ⟨s.reverse, _, by simpa using hs, ?_, rfl⟩
    have hx := congrArg List.reverse hx.symm
    simpa [hc] using hx

theorem stem_subset (x : Text) : (splitName x).1 ⊆ x := by
  rcases splitName_cases x with hn | ⟨s, e, -, hx, hn⟩
  · rw [hn]
    exact List.Subset.refl x
  · rw [hn, hx]
    exact List.subset_append_left s _

theorem stem_ne_nil {x : Text} (hx : x ≠ []) : (splitName x).1 ≠ [] := by
  rcases splitName_cases x with hn | ⟨s, e, hs, -, hn⟩
  · rwa [hn]
  · rwa [hn]

/-- A name keeps its stem but not its extension if it gets another one. -/
theorem append_extension_ne {x e : Text} (h : (splitName x).2 ≠ some e) :
    (splitName x).1 ++ '.' :: e ≠ x := by
  rcases splitName_cases x with hn | ⟨s, e', -, hx, hn⟩
  · rw [hn]
    exact fun hsame => by simpa using congrArg List.length hsame
  · rw [hn] at h ⊢
    intro hsame
    have hsame : s ++ '.' :: e = s ++ '.' :: e' := hsame.trans hx
    have hext : e = e' := List.tail_eq_of_cons_eq (List.append_cancel_left hsame)
    exact h (congrArg some hext.symm)

/-- A stem and an extension are told apart by the last dot. -/
theorem splitName_append_extension {s e : Text} (hs : s ≠ []) (he : '.' ∉ e) :
    splitName (s ++ '.' :: e) = (s, some e) := by
  have hall : ∀ c ∈ e.reverse, (c != '.') = true := by
    intro c hc
    simpa using fun h : c = '.' => he (h ▸ List.mem_reverse.1 hc)
  obtain ⟨c, r, hr⟩ := List.exists_cons_of_ne_nil (List.reverse_ne_nil_iff.2 hs)
  have hrs : s = (c :: r).reverse := by rw [← hr, List.reverse_reverse]
  have hreverse : (s ++ '.' :: e).reverse = e.reverse ++ '.' :: c :: r := by simp [hrs]
  rw [splitName, hreverse, List.dropWhile_append_of_pos hall, List.takeWhile_append_of_pos hall]
  simp [hrs]

/-- A stem and an extension make a name. -/
theorem isName_append_extension {s e : Text} (hs : '/' ∉ s) (hs' : s ≠ []) (he : '/' ∉ e)
    (he' : e ≠ []) : IsName (s ++ '.' :: e) := by
  have hlength : 3 ≤ (s ++ '.' :: e).length := by
    have := List.length_pos_iff.2 hs'
    have := List.length_pos_iff.2 he'
    simp only [List.length_append, List.length_cons]
    omega
  refine ⟨by simp [hs, he], ?_, ?_, ?_⟩
  all_goals
    intro h
    rw [h] at hlength
    simp at hlength

theorem IsName.stem_append {x e : Text} (hx : IsName x) (he : '/' ∉ e) (he' : e ≠ []) :
    IsName ((splitName x).1 ++ '.' :: e) :=
  isName_append_extension (fun h => hx.noSlash (stem_subset x h)) (stem_ne_nil hx.ne_nil) he he'

theorem extension?_of_cut? {p f x : Text} (h : cut? p = some (f, x)) :
    extension? p = (splitName x).2 := by
  rw [extension?, h, Option.bind_some]

theorem extension?_append_name {f x : Text} (hf : Front f) (hx : IsName x) :
    extension? (f ++ x) = (splitName x).2 :=
  extension?_of_cut? (cut?_append_name hf hx)

theorem setExtension_of_cut? {p f x : Text} (h : cut? p = some (f, x)) (e : Text) :
    setExtension p e = f ++ ((splitName x).1 ++ '.' :: e) := by
  simp [setExtension, h]

/-- Another extension for a name behind a front. -/
theorem setExtension_append_name {f x : Text} (hf : Front f) (hx : IsName x) (e : Text) :
    setExtension (f ++ x) e = f ++ ((splitName x).1 ++ '.' :: e) :=
  setExtension_of_cut? (cut?_append_name hf hx) e

/-- **Another extension changes the name only.** A name whose extension
follows two dots at its start becomes those two dots. -/
theorem withExtension_append_name {f x : Text} (hf : Front f) (hx : IsName x) (e : Text) :
    withExtension (f ++ x) e =
      if (splitName x).2.isSome ∧ (splitName x).1 = ['.'] then f ++ ['.', '.']
      else f ++ ((splitName x).1 ++ '.' :: e) := by
  have hext := extension?_append_name hf hx
  rcases splitName_cases x with hn | ⟨s, e', hs, hxs, hn⟩
  · rw [withExtension, shorten, hext, hn, setExtension_append_name hf hx]
    simp [hn]
  · have hshort : shorten (f ++ x) = f ++ (s ++ ['.']) := by
      have hcut : f ++ x = (f ++ (s ++ ['.'])) ++ e' := by simp [hxs]
      simp only [shorten, hext, hn]
      rw [hcut, List.length_append, Nat.add_sub_cancel, List.take_left]
    rw [withExtension, hshort, hn]
    by_cases hdot : s = ['.']
    · subst hdot
      simp [setExtension, cut?_append_dots hf]
    · have hslash : '/' ∉ s := fun h => hx.noSlash (by simp [hxs, h])
      have hname : IsName (s ++ ['.']) :=
        ⟨by simp [hslash], by simp, by simp [hs],
          fun h => hdot (by simpa using congrArg List.dropLast h)⟩
      rw [setExtension_append_name hf hname, splitName_append_extension hs (by simp)]
      simp [hdot]

/-- Whatever the path, it has one stem behind one front for all extensions, or
takes none of them. -/
theorem withExtension_cases (p : Text) :
    (∃ q, ∀ e, withExtension p e = q) ∨
      ∃ f s, Front f ∧ '/' ∉ s ∧ s ≠ [] ∧ ∀ e, withExtension p e = f ++ (s ++ '.' :: e) := by
  cases hcut : cut? (shorten p) with
  | none => exact .inl ⟨shorten p, fun e => by simp [withExtension, setExtension, hcut]⟩
  | some c =>
    obtain ⟨f, x⟩ := c
    obtain ⟨hf, hx⟩ := front_of_cut? hcut
    exact .inr ⟨f, (splitName x).1, hf, fun h => hx.noSlash (stem_subset x h),
      stem_ne_nil hx.ne_nil, fun e => by simp [withExtension, setExtension, hcut]⟩

/-! ### The folder of a path -/

theorem dropEnd_suffix (t : Text) : dropEnd t <:+ t := by
  fun_induction dropEnd t with
  | case1 t ih => exact ih.trans (List.suffix_cons _ _)
  | case2 t ih => exact ih.trans ((List.suffix_cons _ _).trans (List.suffix_cons _ _))
  | case3 t => exact List.suffix_refl _

/-- Nothing is left of a path, last character first, only if it starts with a
slash. -/
theorem getLast?_of_dropEnd_eq_nil {t : Text} (h : dropEnd t = []) :
    t = [] ∨ t.getLast? = some '/' := by
  fun_induction dropEnd t with
  | case1 t ih =>
    rcases ih h with rfl | ht
    · exact .inr rfl
    · exact .inr (by simp [List.getLast?_cons, ht])
  | case2 t ih =>
    rcases ih h with rfl | ht
    · exact .inr rfl
    · exact .inr (by simp [List.getLast?_cons, ht])
  | case3 t => exact .inl h

/-- A front keeps its start when what does not count at its end is dropped. -/
theorem isFull_dropEnd {g : Text} (h : dropEnd g.reverse ≠ []) :
    isFull ((dropEnd g.reverse).reverse ++ ['/']) = isFull (g ++ ['/']) := by
  obtain ⟨c, t, hg⟩ := List.exists_cons_of_ne_nil (mt List.reverse_eq_nil_iff.1 h)
  obtain ⟨u, hu⟩ := dropEnd_suffix g.reverse
  have hg' : g = c :: (t ++ u.reverse) := by
    rw [← List.cons_append, ← hg, ← List.reverse_append, hu, List.reverse_reverse]
  rw [hg, hg']
  rfl

/-- A front of which nothing counts starts at the root. -/
theorem isFull_of_dropEnd_eq_nil {f : Text} (hf : f ≠ []) (h : dropEnd f.reverse = []) :
    isFull f = true := by
  rcases getLast?_of_dropEnd_eq_nil h with h | h
  · exact absurd (List.reverse_eq_nil_iff.1 h) hf
  · rw [List.getLast?_reverse] at h
    simp [isFull, h]

/-- The folder of a name behind a front is the front, less what does not count
at its end. If nothing of it counts, then that is the root, and without a front it
is where one is. -/
theorem folder_cases {f x : Text} (hf : Front f) (hx : IsName x) :
    f = [] ∧ folder (f ++ x) = ['.'] ∨
    f ≠ [] ∧ dropEnd f.reverse = [] ∧ folder (f ++ x) = ['/'] ∨
    dropEnd f.reverse ≠ [] ∧ folder (f ++ x) = (dropEnd f.reverse).reverse := by
  simp only [folder, cut_append_name hf hx]
  cases hend : dropEnd f.reverse with
  | cons c t => exact .inr (.inr ⟨List.cons_ne_nil c t, rfl⟩)
  | nil =>
    by_cases h : f = []
    · exact .inl ⟨h, if_pos h⟩
    · exact .inr (.inl ⟨h, rfl, if_neg h⟩)

/-- The folder of a path is known from what is cut off before its name. -/
theorem folder_congr {p q : Text} (h : (cut p).1 = (cut q).1) : folder p = folder q := by
  simp only [folder, h]

/-- Names behind one front are in one folder. -/
theorem folder_append_name {f x y : Text} (hf : Front f) (hx : IsName x) (hy : IsName y) :
    folder (f ++ x) = folder (f ++ y) := by
  rw [folder_congr]
  rw [cut_append_name hf hx, cut_append_name hf hy]

/-- Two dots are in the same folder as any name behind their front. -/
theorem folder_append_dots {f x : Text} (hf : Front f) (hx : IsName x) :
    folder (f ++ ['.', '.']) = folder (f ++ x) := by
  rw [folder_congr]
  rw [cut_append_dots hf, cut_append_name hf hx]

end Path
end TenBit
