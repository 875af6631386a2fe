/-
# Comma lists, exactly

The scanner divides every text into separators, commas and items, each item as
long as it can be, so no text is beyond it. What it accepts is a grammar: nothing
but separators, or items with a comma between each two of them and separators
wherever there is no item. What it refuses has a violation, a place where a comma
or an item stands that may not, or where the text ends too early; the fault is
that of the leftmost one.

Both halves follow the scan. `Continues` says what may come in each state of the
collector; `Judged` says that there is no violation to the right of a cut, or
which one is the first.

Key definitions: `Items.Scans`, `Items.Divided`, `Items.Lists`, `Items.Violates`,
`Items.Leftmost`.
Key theorems: `Items.scans_iff`, `Items.split_eq_ok_iff`, `Items.split_eq_error_iff`,
`Items.split_exact`.
-/
import Mathlib.Data.List.Basic
import Mathlib.Data.List.TakeWhile
import TenBit.Proofs.Statement.Shape

namespace TenBit
namespace Items

/-! ### The grammar -/

/-- Space, tab, carriage return, form feed and vertical tab. -/
def separators : List Char := [' ', '\t', '\r', '\x0c', '\x0b']

/-- Nothing but separators. -/
def IsGap (t : Text) : Prop := ∀ c ∈ t, c ∈ separators

instance (t : Text) : Decidable (IsGap t) := List.decidableBAll (fun c => c ∈ separators) t

/-- One or more characters that are neither commas nor separators. -/
def IsItem (t : Text) : Prop := t ≠ [] ∧ ∀ c ∈ t, c ≠ ',' ∧ c ∉ separators

/-- A scan that skips separators and takes commas and items, each item as long as
it can be. -/
inductive Scans : Text → List Token → Prop
  | done : Scans [] []
  | skip {c : Char} {t : Text} {ts : List Token} (hc : c ∈ separators) (h : Scans t ts) :
      Scans (c :: t) ts
  | comma {t : Text} {ts : List Token} (h : Scans t ts) : Scans (',' :: t) (.comma :: ts)
  | item {w t : Text} {ts : List Token} (hw : IsItem w)
      (hlongest : ∀ c u, t = c :: u → c = ',' ∨ c ∈ separators) (h : Scans t ts) :
      Scans (w ++ t) (.item w :: ts)

/-- Items with a comma between each two of them, and separators around the
commas. -/
inductive Divided : List Text → Text → Prop
  | last {w : Text} (hw : IsItem w) : Divided [w] w
  | next {w a b t : Text} {ws : List Text} (hw : IsItem w) (ha : IsGap a) (hb : IsGap b)
      (ht : Divided ws t) : Divided (w :: ws) (w ++ a ++ ',' :: b ++ t)

/-- Such items, with separators at both ends. -/
def Spaced (ws : List Text) (t : Text) : Prop :=
  ∃ a d b, t = a ++ d ++ b ∧ IsGap a ∧ Divided ws d ∧ IsGap b

/-- A text that lists the given items: none, and it has only separators, or some. -/
def Lists (ws : List Text) (t : Text) : Prop := ws = [] ∧ IsGap t ∨ Spaced ws t

/-! ### Violations -/

/-- The text without its separators. -/
def solid (t : Text) : Text := t.filter fun c => c ∉ separators

/-- What is wrong at a cut of a text, from what stands before and after it: a
comma before any item, a comma after a comma, an item after an item, or the end
after a comma. -/
def Violates (before after : Text) : Malformed → Prop
  | .leadingComma => after.head? = some ',' ∧ ∀ c ∈ before, c = ',' ∨ c ∈ separators
  | .doubledComma => after.head? = some ',' ∧ (solid before).getLast? = some ','
  | .missingComma => (∃ c ∈ after.head?, c ≠ ',' ∧ c ∉ separators) ∧
      (∃ c ∈ before.getLast?, c ∈ separators) ∧ ∃ c ∈ (solid before).getLast?, c ≠ ','
  | .trailingComma => after = [] ∧ (solid before).getLast? = some ','

/-- The first violation of `after`, which stands behind `before`. -/
def FirstFrom (before after : Text) (e : Malformed) : Prop :=
  ∃ q r, after = q ++ r ∧ Violates (before ++ q) r e ∧
    ∀ q' r' e', after = q' ++ r' → Violates (before ++ q') r' e' → q.length ≤ q'.length

/-- The leftmost violation of a text. -/
def Leftmost (t : Text) (e : Malformed) : Prop := FirstFrom [] t e

/-! ### Characters -/

theorem isSeparator_iff {c : Char} : isSeparator c = true ↔ c ∈ separators := by
  simp [isSeparator, separators, or_assoc]

theorem isItemCharacter_iff {c : Char} : isItemCharacter c = true ↔ c ≠ ',' ∧ c ∉ separators := by
  simp [isItemCharacter, ← isSeparator_iff]

theorem comma_not_mem_separators : ',' ∉ separators := by decide

theorem startsItem_cons (c : Char) (t : Text) : startsItem (c :: t) = isItemCharacter c := rfl

theorem startsItem_eq_false {t : Text} (h : ∀ c u, t = c :: u → c = ',' ∨ c ∈ separators) :
    startsItem t = false := by
  cases t with
  | nil => rfl
  | cons c u =>
    rw [startsItem_cons, Bool.eq_false_iff]
    intro hc
    obtain ⟨hcomma, hseparator⟩ := isItemCharacter_iff.1 hc
    exact (h c u rfl).elim hcomma hseparator

theorem IsGap.nil : IsGap [] := nofun

theorem IsGap.cons {c : Char} {t : Text} (hc : c ∈ separators) (ht : IsGap t) : IsGap (c :: t) :=
  List.forall_mem_cons.2 ⟨hc, ht⟩

/-! ### Scanning -/

theorem tokens_separator {c : Char} (hc : c ∈ separators) (t : Text) :
    tokens (c :: t) = tokens t := by
  have hcomma : c ≠ ',' := fun he => comma_not_mem_separators (he ▸ hc)
  rw [tokens, if_neg hcomma, if_pos (isSeparator_iff.2 hc)]

theorem tokens_comma (t : Text) : tokens (',' :: t) = .comma :: tokens t := by
  rw [tokens, if_pos rfl]

theorem tokens_gap {a : Text} (ha : IsGap a) (t : Text) : tokens (a ++ t) = tokens t := by
  induction a with
  | nil => rfl
  | cons c a ih =>
    obtain ⟨hc, ha⟩ := List.forall_mem_cons.1 ha
    rw [List.cons_append, tokens_separator hc, ih ha]

/-- The scanner takes an item as a whole. -/
theorem tokens_item {w t : Text} (hw : IsItem w) (ht : startsItem t = false) :
    tokens (w ++ t) = .item w :: tokens t := by
  obtain ⟨hne, hall⟩ := hw
  induction w with
  | nil => exact absurd rfl hne
  | cons c w ih =>
    obtain ⟨⟨hcomma, hseparator⟩, hall⟩ := List.forall_mem_cons.1 hall
    rw [List.cons_append, tokens, if_neg hcomma, if_neg (mt isSeparator_iff.1 hseparator)]
    cases w with
    | nil => rw [List.nil_append, ht]
    | cons d w =>
      have hstarts : startsItem (d :: w ++ t) = true :=
        isItemCharacter_iff.2 (hall d List.mem_cons_self)
      rw [ih (List.cons_ne_nil d w) hall, hstarts]

/-- **Every text can be scanned**: whatever stands in it is a separator, a comma
or part of an item. -/
theorem scans_tokens (t : Text) : Scans t (tokens t) := by
  match t with
  | [] => exact .done
  | c :: t =>
    by_cases hcomma : c = ','
    · subst hcomma
      rw [tokens_comma]
      exact .comma (scans_tokens t)
    by_cases hseparator : c ∈ separators
    · rw [tokens_separator hseparator]
      exact .skip hseparator (scans_tokens t)
    -- the item goes on as far as there are characters of items
    have hc : isItemCharacter c = true := isItemCharacter_iff.2 ⟨hcomma, hseparator⟩
    have hsplit : c :: t = c :: t.takeWhile isItemCharacter ++ t.dropWhile isItemCharacter := by
      rw [List.cons_append, List.takeWhile_append_dropWhile]
    have hw : IsItem (c :: t.takeWhile isItemCharacter) := by
      refine ⟨List.cons_ne_nil _ _, List.forall_mem_cons.2 ⟨⟨hcomma, hseparator⟩, ?_⟩⟩
      intro d hd
      exact isItemCharacter_iff.1 (List.mem_takeWhile_imp hd)
    have hlongest : ∀ d u, t.dropWhile isItemCharacter = d :: u → d = ',' ∨ d ∈ separators := by
      intro d u hd
      have hstop : isItemCharacter d = false := by
        simpa [hd] using List.head?_dropWhile_not isItemCharacter t
      by_contra hnot
      rw [isItemCharacter_iff.2 (not_or.1 hnot)] at hstop
      cases hstop
    rw [hsplit, tokens_item hw (startsItem_eq_false hlongest)]
    exact .item hw hlongest (scans_tokens (t.dropWhile isItemCharacter))
termination_by t.length
decreasing_by
  all_goals simp only [List.length_cons]
  · omega
  · omega
  · have := (List.dropWhile_sublist isItemCharacter (l := t)).length_le
    omega

/-- **The tokens of a text are its only scan.** -/
theorem scans_iff {t : Text} {ts : List Token} : Scans t ts ↔ ts = tokens t := by
  constructor
  · intro h
    induction h with
    | done => rfl
    | skip hc _ ih => rw [tokens_separator hc, ih]
    | comma _ ih => rw [tokens_comma, ih]
    | item hw hlongest _ ih => rw [tokens_item hw (startsItem_eq_false hlongest), ih]
  · rintro rfl
    exact scans_tokens t

/-! ### What is accepted -/

/-- Listed items are collected, at the start and after a comma. -/
theorem collect_of_divided {ws : List Text} {t b : Text} (h : Divided ws t) (hb : IsGap b)
    {x : Expect} (hx : x ≠ .comma) : collect x (tokens (t ++ b)) = .ok ws := by
  have hgap : tokens b = [] := by simpa [tokens] using tokens_gap hb []
  have hitem : ∀ w us, collect x (.item w :: us) = (collect .comma us).map (w :: ·) := by
    intro w us
    cases x with
    | start => rfl
    | item => rfl
    | comma => exact absurd rfl hx
  induction h generalizing x with
  | @last w hw =>
    have hstarts : startsItem b = false :=
      startsItem_eq_false fun c u hc => .inr (hb c (by simp [hc]))
    rw [tokens_item hw hstarts, hgap, hitem]
    rfl
  | @next w a b' t ws hw ha hb' ht ih =>
    have hstarts : startsItem (a ++ (',' :: (b' ++ (t ++ b)))) = false := by
      refine startsItem_eq_false fun c u hc => ?_
      cases a with
      | nil => exact .inl (List.cons.inj hc).1.symm
      | cons d a => exact .inr ((List.cons.inj hc).1 ▸ ha d List.mem_cons_self)
    have htokens : tokens (w ++ a ++ ',' :: b' ++ t ++ b) =
        .item w :: .comma :: tokens (t ++ b) := by
      simp only [List.append_assoc, List.cons_append]
      rw [tokens_item hw hstarts, tokens_gap ha, tokens_comma, tokens_gap hb']
    rw [htokens, hitem, collect, ih (x := .item) nofun fun _ _ => rfl]
    rfl

theorem split_of_lists {ws : List Text} {t : Text} (h : Lists ws t) : split t = .ok ws := by
  rcases h with ⟨rfl, ht⟩ | ⟨a, d, b, rfl, ha, hd, hb⟩
  · have hgap : tokens t = [] := by simpa [tokens] using tokens_gap ht []
    rw [split, hgap]
    rfl
  · rw [split, List.append_assoc, tokens_gap ha]
    exact collect_of_divided hd hb nofun

/-- What may still come, with the items in it. -/
def Continues : Expect → List Text → Text → Prop
  | .start, ws, t => Lists ws t
  | .item, ws, t => Spaced ws t
  | .comma, ws, t => ws = [] ∧ IsGap t ∨ ∃ a u, t = a ++ ',' :: u ∧ IsGap a ∧ Spaced ws u

theorem Spaced.skip {c : Char} {t : Text} {ws : List Text} (hc : c ∈ separators)
    (h : Spaced ws t) : Spaced ws (c :: t) := by
  obtain ⟨a, d, b, rfl, ha, hd, hb⟩ := h
  exact ⟨c :: a, d, b, rfl, .cons hc ha, hd, hb⟩

theorem Continues.skip {x : Expect} {c : Char} {t : Text} {ws : List Text} (hc : c ∈ separators)
    (h : Continues x ws t) : Continues x ws (c :: t) := by
  cases x with
  | start =>
    rcases h with ⟨hws, ht⟩ | h
    · exact .inl ⟨hws, .cons hc ht⟩
    · exact .inr (h.skip hc)
  | item => exact Spaced.skip hc h
  | comma =>
    rcases h with ⟨hws, ht⟩ | ⟨a, u, rfl, ha, hu⟩
    · exact .inl ⟨hws, .cons hc ht⟩
    · exact .inr ⟨c :: a, u, rfl, .cons hc ha, hu⟩

/-- An item, and what may come after it. -/
theorem Continues.spaced {w t : Text} {ws : List Text} (hw : IsItem w)
    (h : Continues .comma ws t) : Spaced (w :: ws) (w ++ t) := by
  rcases h with ⟨rfl, ht⟩ | ⟨a, u, rfl, ha, a', d, b, rfl, ha', hd, hb⟩
  · exact ⟨[], w, t, rfl, .nil, .last hw, ht⟩
  · exact ⟨[], _, b, by simp, .nil, .next hw ha ha' hd, hb⟩

theorem continues_of_collect {t : Text} {ts : List Token} (h : Scans t ts) {x : Expect}
    {ws : List Text} (hx : collect x ts = .ok ws) : Continues x ws t := by
  induction h generalizing x ws with
  | done =>
    cases x with
    | start =>
      cases hx
      exact .inl ⟨rfl, .nil⟩
    | item => cases hx
    | comma =>
      cases hx
      exact .inl ⟨rfl, .nil⟩
  | skip hc _ ih => exact (ih hx).skip hc
  | @comma t ts _ ih =>
    cases x with
    | start => cases hx
    | item => cases hx
    | comma => exact .inr ⟨[], t, rfl, .nil, ih (x := .item) hx⟩
  | item hw _ _ ih =>
    cases x with
    | start =>
      obtain ⟨us, hus, rfl⟩ := ok_of_map hx
      exact .inr ((ih hus).spaced hw)
    | item =>
      obtain ⟨us, hus, rfl⟩ := ok_of_map hx
      exact (ih hus).spaced hw
    | comma => cases hx

/-- **The accepted texts are the comma lists**, with their items in order. -/
theorem split_eq_ok_iff {t : Text} {ws : List Text} : split t = .ok ws ↔ Lists ws t := by
  constructor
  · intro h
    exact continues_of_collect (scans_tokens t) h
  · exact split_of_lists

/-! ### What is kept -/

theorem solid_append (t u : Text) : solid (t ++ u) = solid t ++ solid u := List.filter_append ..

theorem solid_gap {a : Text} (ha : IsGap a) : solid a = [] :=
  List.filter_eq_nil_iff.2 fun c hc => by simpa using ha c hc

theorem solid_item {w : Text} (hw : ∀ c ∈ w, c ≠ ',' ∧ c ∉ separators) : solid w = w :=
  List.filter_eq_self.2 fun c hc => by simpa using (hw c hc).2

theorem solid_comma (t : Text) : solid (',' :: t) = ',' :: solid t :=
  List.filter_cons_of_pos (by decide)

theorem Divided.ne_nil {ws : List Text} {t : Text} (h : Divided ws t) : ws ≠ [] := by
  cases h with
  | last => exact List.cons_ne_nil _ _
  | next => exact List.cons_ne_nil _ _

theorem intercalate_cons {w : Text} {ws : List Text} (h : ws ≠ []) :
    [','].intercalate (w :: ws) = w ++ ',' :: [','].intercalate ws := by
  obtain ⟨v, vs, rfl⟩ := List.exists_cons_of_ne_nil h
  simp [List.intercalate]

/-- What is left without the separators is the items with single commas. -/
theorem Divided.solid_eq {ws : List Text} {t : Text} (h : Divided ws t) :
    solid t = [','].intercalate ws := by
  induction h with
  | last hw => simp [solid_item hw.2, List.intercalate]
  | next hw ha hb ht ih =>
    simp only [solid_append, solid_item hw.2, solid_gap ha, solid_comma, solid_gap hb, ih,
      intercalate_cons ht.ne_nil, List.append_assoc, List.cons_append, List.nil_append]

theorem Divided.joined {ws : List Text} {t : Text} (h : Divided ws t) :
    Divided ws ([','].intercalate ws) := by
  induction h with
  | last hw => simpa [List.intercalate] using Divided.last hw
  | next hw _ _ ht ih =>
    rw [intercalate_cons ht.ne_nil]
    simpa using Divided.next hw .nil .nil ih

theorem Lists.solid_eq {ws : List Text} {t : Text} (h : Lists ws t) :
    solid t = [','].intercalate ws := by
  rcases h with ⟨rfl, ht⟩ | ⟨a, d, b, rfl, ha, hd, hb⟩
  · rw [solid_gap ht]
    rfl
  · simp [solid_append, solid_gap ha, solid_gap hb, hd.solid_eq]

theorem Lists.joined {ws : List Text} {t : Text} (h : Lists ws t) :
    Lists ws ([','].intercalate ws) := by
  rcases h with ⟨rfl, -⟩ | ⟨a, d, b, rfl, -, hd, -⟩
  · exact .inl ⟨rfl, .nil⟩
  · exact .inr ⟨[], _, [], by simp, .nil, hd.joined, .nil⟩

/-! ### What is refused -/

/-- What the collector expects behind a text in which it met no violation. -/
def expected (before : Text) : Expect :=
  match (solid before).getLast? with
  | none => .start
  | some c => if c = ',' then .item else .comma

theorem expected_separator {c : Char} (hc : c ∈ separators) (p : Text) :
    expected (p ++ [c]) = expected p := by
  have hgap : solid [c] = [] := solid_gap (.cons hc .nil)
  rw [expected, expected, solid_append, hgap, List.append_nil]

theorem expected_comma (p : Text) : expected (p ++ [',']) = .item := by
  have hsolid : (solid (p ++ [','])).getLast? = some ',' := by
    rw [solid_append, show solid [','] = [','] by decide, List.getLast?_concat]
  simp [expected, hsolid]

theorem expected_item {w : Text} (hw : IsItem w) (p : Text) : expected (p ++ w) = .comma := by
  obtain ⟨u, c, rfl⟩ := (List.eq_nil_or_concat' w).resolve_left hw.1
  have hc : c ≠ ',' := (hw.2 c (by simp)).1
  have hsolid : (solid (p ++ (u ++ [c]))).getLast? = some c := by
    rw [solid_append, solid_item hw.2, ← List.append_assoc, List.getLast?_concat]
  simp [expected, hsolid, hc]

theorem expected_eq_start {p : Text} : expected p = .start ↔ IsGap p := by
  unfold expected
  split
  · rename_i hnone
    simpa [solid, IsGap] using hnone
  · rename_i c hc
    have hmem : c ∈ solid p := List.mem_of_getLast? hc
    have hnot : ¬ IsGap p := fun hp => by simp [solid_gap hp] at hmem
    split <;> simp [hnot]

theorem expected_eq_item {p : Text} : expected p = .item ↔ (solid p).getLast? = some ',' := by
  unfold expected
  split
  · rename_i hnone
    simp [hnone]
  · rename_i c hc
    by_cases hcomma : c = ',' <;> simp [hc, hcomma]

theorem expected_eq_comma {p : Text} :
    expected p = .comma ↔ ∃ c ∈ (solid p).getLast?, c ≠ ',' := by
  unfold expected
  split
  · rename_i hnone
    simp [hnone]
  · rename_i c hc
    by_cases hcomma : c = ',' <;> simp [hc, hcomma]

/-- There is no violation from a cut on, or the refusal is for the first one. -/
def Judged (p s : Text) : Except Malformed (List Text) → Prop
  | .ok _ => ∀ q r e, s = q ++ r → ¬ Violates (p ++ q) r e
  | .error e => FirstFrom p s e

theorem Judged.map {p s : Text} {x : Except Malformed (List Text)} (h : Judged p s x)
    (f : List Text → List Text) : Judged p s (x.map f) := by
  cases x with
  | ok ws => exact h
  | error e => exact h

theorem Judged.here {p s : Text} {e : Malformed} (h : Violates p s e) : Judged p s (.error e) :=
  ⟨[], s, rfl, by rwa [List.append_nil], fun _ _ _ _ _ => Nat.zero_le _⟩

/-- A cut without violation is passed over. -/
theorem Judged.cons {p s : Text} {c : Char} {x : Except Malformed (List Text)}
    (hclean : ∀ e, ¬ Violates p (c :: s) e) (h : Judged (p ++ [c]) s x) : Judged p (c :: s) x := by
  -- a violation further right is one of the text behind the character
  have hlater : ∀ q r e, c :: s = q ++ r → Violates (p ++ q) r e →
      ∃ q', q = c :: q' ∧ s = q' ++ r ∧ Violates (p ++ [c] ++ q') r e := by
    intro q r e hqr hv
    cases q with
    | nil =>
      rw [List.append_nil, ← List.nil_append r, ← hqr] at hv
      exact absurd hv (hclean e)
    | cons d q' =>
      obtain ⟨rfl, hs⟩ := List.cons.inj hqr
      exact ⟨q', rfl, hs, by simpa using hv⟩
  cases x with
  | ok ws =>
    intro q r e hqr hv
    obtain ⟨q', -, hs, hv⟩ := hlater q r e hqr hv
    exact h q' r e hs hv
  | error e =>
    obtain ⟨q, r, rfl, hv, hleast⟩ := h
    refine ⟨c :: q, r, rfl, by simpa using hv, fun q' r' e' hqr hv' => ?_⟩
    obtain ⟨q'', rfl, hs, hv'⟩ := hlater q' r' e' hqr hv'
    exact Nat.succ_le_succ (hleast q'' r' e' hs hv')

theorem not_violates_separator {c : Char} (hc : c ∈ separators) (p s : Text) (e : Malformed) :
    ¬ Violates p (c :: s) e := by
  have hcomma : c ≠ ',' := fun he => comma_not_mem_separators (he ▸ hc)
  cases e <;> simp [Violates, hcomma, hc]

theorem not_violates_comma {p : Text} (hp : expected p = .comma) (s : Text) (e : Malformed) :
    ¬ Violates p (',' :: s) e := by
  obtain ⟨c, hlast, hc⟩ := expected_eq_comma.1 hp
  have hmem := List.mem_filter.1 (List.mem_of_getLast? hlast)
  cases e with
  | leadingComma =>
    rintro ⟨-, hall⟩
    exact (hall c hmem.1).elim hc (by simpa using hmem.2)
  | doubledComma =>
    rintro ⟨-, hdoubled⟩
    rw [hlast] at hdoubled
    exact hc (Option.some.inj hdoubled)
  | missingComma => simp [Violates]
  | trailingComma => simp [Violates]

theorem not_violates_item {c : Char} (hc : c ≠ ',' ∧ c ∉ separators) {p : Text}
    (hp : expected p ≠ .comma ∨ ∀ d ∈ p.getLast?, d ∉ separators) (s : Text) (e : Malformed) :
    ¬ Violates p (c :: s) e := by
  cases e with
  | leadingComma => simp [Violates, hc.1]
  | doubledComma => simp [Violates, hc.1]
  | missingComma =>
    rintro ⟨-, ⟨d, hd, hseparator⟩, hlast⟩
    rcases hp with hp | hp
    · exact hp (expected_eq_comma.2 hlast)
    · exact hp d hd hseparator
  | trailingComma => simp [Violates]

/-- No violation lies inside an item. -/
theorem Judged.item {w p t : Text} {x : Except Malformed (List Text)}
    (hw : ∀ c ∈ w, c ≠ ',' ∧ c ∉ separators)
    (hp : expected p ≠ .comma ∨ ∀ d ∈ p.getLast?, d ∉ separators) (h : Judged (p ++ w) t x) :
    Judged p (w ++ t) x := by
  induction w generalizing p with
  | nil => rwa [List.append_nil] at h
  | cons c w ih =>
    obtain ⟨hc, hw⟩ := List.forall_mem_cons.1 hw
    refine .cons (fun e => not_violates_item hc hp _ e) (ih hw (.inr ?_) (by simpa using h))
    simpa using hc.2

/-- **The collector is right about what follows**, if the text in front does not
end inside an item. -/
theorem judged_collect {s : Text} {ts : List Token} (h : Scans s ts) (p : Text)
    (hp : ∀ c ∈ s.head?, (c ≠ ',' ∧ c ∉ separators) → ∀ d ∈ p.getLast?, d = ',' ∨ d ∈ separators) :
    Judged p s (collect (expected p) ts) := by
  induction h generalizing p with
  | done =>
    have hclean : expected p ≠ .item → ∀ q r e, [] = q ++ r → ¬ Violates (p ++ q) r e := by
      intro hne q r e hqr
      obtain ⟨rfl, rfl⟩ := List.append_eq_nil_iff.1 hqr.symm
      cases e <;> simp [Violates, ← expected_eq_item, hne]
    cases hx : expected p with
    | start => exact hclean (by simp [hx])
    | item => exact .here ⟨rfl, expected_eq_item.1 hx⟩
    | comma => exact hclean (by simp [hx])
  | @skip c t ts hc _ ih =>
    refine .cons (fun e => not_violates_separator hc p t e) ?_
    rw [← expected_separator hc p]
    exact ih _ fun d _ _ => by simp [hc]
  | @comma t ts _ ih =>
    cases hx : expected p with
    | start => exact .here ⟨rfl, fun c hc => .inr (expected_eq_start.1 hx c hc)⟩
    | item => exact .here ⟨rfl, expected_eq_item.1 hx⟩
    | comma =>
      refine .cons (fun e => not_violates_comma hx t e) ?_
      have hnext := ih (p ++ [',']) fun d _ _ => by simp
      rwa [expected_comma] at hnext
  | @item w t ts hw hlongest _ ih =>
    have hnext := ih (p ++ w) fun c hc hitem => by
      obtain ⟨u, rfl⟩ := List.head?_eq_some_iff.1 hc
      exact absurd (hlongest c u rfl) (by simp [hitem])
    rw [expected_item hw] at hnext
    cases hx : expected p with
    | start => exact (Judged.item hw.2 (.inl (by simp [hx])) hnext).map _
    | item => exact (Judged.item hw.2 (.inl (by simp [hx])) hnext).map _
    | comma =>
      -- an item behind an item: a separator stands between them
      obtain ⟨c, u, rfl⟩ := List.exists_cons_of_ne_nil hw.1
      have hc := hw.2 c List.mem_cons_self
      obtain ⟨d, hsolid, hd⟩ := expected_eq_comma.1 hx
      have hne : p ≠ [] := fun he => by simp [he, solid] at hsolid
      obtain ⟨v, l, rfl⟩ := (List.eq_nil_or_concat' p).resolve_left hne
      refine .here ⟨⟨c, rfl, hc⟩, ⟨l, List.getLast?_concat, ?_⟩, d, hsolid, hd⟩
      rcases hp c rfl hc l List.getLast?_concat with rfl | hl
      · rw [expected_comma] at hx
        cases hx
      · exact hl

/-- Of two violations at the leftmost place with one, both are of one kind. -/
theorem Leftmost.unique {t : Text} {e e' : Malformed} (h : Leftmost t e) (h' : Leftmost t e') :
    e = e' := by
  obtain ⟨q, r, rfl, hv, hleast⟩ := h
  obtain ⟨q', r', hqr, hv', hleast'⟩ := h'
  have hlength : q.length = q'.length :=
    Nat.le_antisymm (hleast q' r' e' hqr hv') (hleast' q r e rfl hv)
  obtain ⟨rfl, rfl⟩ := List.append_inj hqr hlength
  simp only [List.nil_append] at hv hv' hleast
  -- the two faults of a comma: if a comma stands before it and no item does, then
  -- that comma is further left and before any item as well
  have hleading : Violates q r .leadingComma → ¬ Violates q r .doubledComma := by
    rintro ⟨-, hall⟩ ⟨-, hlast⟩
    have hmem : ',' ∈ q := (List.mem_filter.1 (List.mem_of_getLast? hlast)).1
    obtain ⟨u, v, rfl⟩ := List.append_of_mem hmem
    have hless := hleast u (',' :: v ++ r) .leadingComma (by simp)
      ⟨rfl, fun c hc => hall c (List.mem_append_left _ hc)⟩
    rw [List.length_append, List.length_cons] at hless
    omega
  clear hleast hleast' hlength hqr
  cases e <;> cases e' <;> simp_all [Violates]

/-- **A text is refused for its leftmost violation.** -/
theorem split_eq_error_iff {t : Text} {e : Malformed} : split t = .error e ↔ Leftmost t e := by
  have hjudged : Judged [] t (split t) := judged_collect (scans_tokens t) [] nofun
  constructor
  · intro h
    rwa [h] at hjudged
  · intro h
    cases hsplit : split t with
    | ok ws =>
      rw [hsplit] at hjudged
      obtain ⟨q, r, hqr, hv, -⟩ := h
      exact absurd hv (hjudged q r e hqr)
    | error e' =>
      rw [hsplit] at hjudged
      rw [h.unique hjudged]

/-- **Comma lists, exactly.** Every text can be scanned to its end, in one way only,
and it is this scan that is collected. A text is accepted if and only if it is a list, and then
with the items it lists: without its separators it is these items with single
commas, which is a list of the same items. Otherwise it is refused for its
leftmost violation. -/
theorem split_exact (t : Text) :
    (∃ ts, (∀ us, Scans t us ↔ us = ts) ∧ split t = collect .start ts) ∧
    (∀ ws, split t = .ok ws ↔ Lists ws t) ∧
    (∀ ws, split t = .ok ws →
      solid t = [','].intercalate ws ∧ split ([','].intercalate ws) = .ok ws) ∧
    ∀ e, split t = .error e ↔ Leftmost t e := by
  refine ⟨⟨tokens t, fun us => scans_iff, rfl⟩, fun ws => split_eq_ok_iff, fun ws h => ?_,
    fun e => split_eq_error_iff⟩
  have hlists := split_eq_ok_iff.1 h
  exact ⟨hlists.solid_eq, split_of_lists hlists.joined⟩

theorem split_exact_sample :
    split " #1\t,X\r, [ ".toList = .ok ["#1".toList, "X".toList, "[".toList] ∧
    solid " #1\t,X\r, [ ".toList = "#1,X,[".toList ∧
    Leftmost "a, b c,,".toList .missingComma :=
  have h : split " #1\t,X\r, [ ".toList = .ok ["#1".toList, "X".toList, "[".toList] := rfl
  ⟨h, ((split_exact _).2.2.1 _ h).1, ((split_exact _).2.2.2 _).1 rfl⟩

end Items
end TenBit
