/-
# Cutting a text where it was joined

Pieces without the stop in them, each followed by the stop, are found again when
the whole is cut at the stop, with nothing left over. A piece without the stop
behind it is what is left.

There are as many pieces as there are stops, those of a front come first, and with
what is left behind they are the segments between the stops.

Key theorems: `Source.pieces_append_stop`, `Source.not_mem_pieces`,
`Source.take_pieces_append`, `Source.splitOn_eq_pieces`, `Source.pieces_join`.
-/
import TenBit.Source.Line

namespace TenBit
namespace Source

variable {α : Type} [DecidableEq α] {stop : α}

theorem pieces_of_not_mem : ∀ {xs : List α}, stop ∉ xs → pieces stop xs = ([], xs)
  | [], _ => rfl
  | x :: xs, h => by
    obtain ⟨hx, hxs⟩ := List.ne_and_not_mem_of_not_mem_cons h
    simp only [pieces, if_neg (Ne.symm hx), pieces_of_not_mem hxs]

/-- The first piece ends at the first stop. -/
theorem pieces_append_stop (ys : List α) : ∀ {xs : List α}, stop ∉ xs →
    pieces stop (xs ++ stop :: ys) = (xs :: (pieces stop ys).1, (pieces stop ys).2)
  | [], _ => by simp [pieces]
  | x :: xs, h => by
    obtain ⟨hx, hxs⟩ := List.ne_and_not_mem_of_not_mem_cons h
    simp only [List.cons_append, pieces, if_neg (Ne.symm hx), pieces_append_stop ys hxs]

/-- There is no stop in a piece, nor in what is left. -/
theorem not_mem_pieces (stop : α) : ∀ xs : List α, (∀ p ∈ (pieces stop xs).1, stop ∉ p) ∧
    stop ∉ (pieces stop xs).2
  | [] => ⟨List.forall_mem_nil _, List.not_mem_nil⟩
  | x :: xs => by
    obtain ⟨hpieces, hrest⟩ := not_mem_pieces stop xs
    unfold pieces
    simp only
    split
    · exact ⟨List.forall_mem_cons.2 ⟨List.not_mem_nil, hpieces⟩, hrest⟩
    · rename_i hx
      split
      · exact ⟨List.forall_mem_nil _, List.not_mem_cons_of_ne_of_not_mem (Ne.symm hx) hrest⟩
      · rename_i p ps hps
        rw [hps] at hpieces
        obtain ⟨hp, hlater⟩ := List.forall_mem_cons.1 hpieces
        refine ⟨List.forall_mem_cons.2 ⟨?_, hlater⟩, hrest⟩
        exact List.not_mem_cons_of_ne_of_not_mem (Ne.symm hx) hp

/-- There are as many pieces as there are stops. -/
theorem length_pieces (stop : α) (xs : List α) : (pieces stop xs).1.length = xs.count stop := by
  induction xs with
  | nil => rfl
  | cons x xs ih =>
    by_cases h : x = stop
    · simp [pieces, h, ih]
    · rw [List.count_cons_of_ne h, ← ih]
      simp only [pieces, if_neg h]
      cases (pieces stop xs).1 <;> rfl

/-- The pieces of the front come first. -/
theorem take_pieces_append (stop : α) (ys : List α) : ∀ xs : List α,
    (pieces stop (xs ++ ys)).1.take (xs.count stop) = (pieces stop xs).1
  | [] => rfl
  | x :: xs => by
    have ih := take_pieces_append stop ys xs
    rw [List.cons_append, pieces, pieces]
    by_cases hx : x = stop
    · simp [hx, ih]
    · rw [List.count_cons_of_ne hx]
      cases hwhole : (pieces stop (xs ++ ys)).1 with
      | nil =>
        rw [hwhole, List.take_nil] at ih
        simp [hx, ← ih]
      | cons p ps =>
        rw [hwhole] at ih
        cases hcount : xs.count stop with
        | zero =>
          rw [hcount, List.take_zero] at ih
          simp [hx, ← ih]
        | succ k =>
          rw [hcount, List.take_succ_cons] at ih
          simp [hx, ← ih]

/-- What is left behind the last stop is one more segment. -/
theorem splitOn_eq_pieces (stop : α) : ∀ xs : List α,
    xs.splitOn stop = (pieces stop xs).1 ++ [(pieces stop xs).2]
  | [] => rfl
  | x :: xs => by
    rw [List.splitOn_cons_eq_if_modifyHead, splitOn_eq_pieces stop xs, pieces]
    by_cases hx : x = stop
    · simp [hx]
    · cases (pieces stop xs).1 with
      | nil => simp [hx]
      | cons p ps => simp [hx]

/-- **Pieces that were joined are cut apart again.** -/
theorem pieces_join : ∀ {ps : List (List α)}, (∀ p ∈ ps, stop ∉ p) →
    pieces stop (ps.flatMap fun p => p ++ [stop]) = (ps, [])
  | [], _ => rfl
  | p :: ps, h => by
    obtain ⟨hp, hps⟩ := List.forall_mem_cons.1 h
    rw [List.flatMap_cons, List.append_assoc, List.singleton_append, pieces_append_stop _ hp,
      pieces_join hps]

end Source
end TenBit
