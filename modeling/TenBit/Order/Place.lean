/-
# Keeping a list in order

A new element is placed in front of the first one it precedes. Placing into a
strictly ascending list that does not hold the element keeps it strictly
ascending, and placing the elements of a list one by one sorts it.

Key definitions: `Order.place`, `Order.sort`, `Order.Ascending`.
Key theorems: `Order.place_perm`, `Order.sort_perm`, `Order.map_place`, `Order.map_sort`,
`Order.ascending_place`, `Order.ascending_sort`.
-/
import TenBit.Order.Strict

namespace TenBit
namespace Order

variable {α β : Type}

/-- The list with `x` in front of the first element it precedes. -/
def place (before : α → α → Bool) (x : α) : List α → List α
  | [] => [x]
  | y :: ys => if before x y then x :: y :: ys else y :: place before x ys

/-- The elements of a list, each placed among those behind it. -/
def sort (before : α → α → Bool) : List α → List α
  | [] => []
  | x :: xs => place before x (sort before xs)

/-- Every element comes before those behind it. -/
def Ascending (before : α → α → Bool) (xs : List α) : Prop :=
  xs.Pairwise fun a b => before a b = true

theorem place_perm (before : α → α → Bool) (x : α) :
    ∀ xs : List α, (place before x xs).Perm (x :: xs)
  | [] => .refl _
  | y :: ys => by
    simp only [place]
    split
    · exact .refl _
    · exact ((place_perm before x ys).cons y).trans (.swap x y ys)

theorem mem_place {before : α → α → Bool} {x a : α} {xs : List α} :
    a ∈ place before x xs ↔ a = x ∨ a ∈ xs := by
  rw [(place_perm before x xs).mem_iff, List.mem_cons]

theorem sort_perm (before : α → α → Bool) : ∀ xs : List α, (sort before xs).Perm xs
  | [] => .refl _
  | x :: xs => (place_perm before x (sort before xs)).trans ((sort_perm before xs).cons x)

/-- A map that keeps the order moves through placing. -/
theorem map_place (f : α → β) (before : α → α → Bool) (before' : β → β → Bool)
    (h : ∀ x y, before x y = before' (f x) (f y)) (x : α) :
    ∀ xs : List α, (place before x xs).map f = place before' (f x) (xs.map f)
  | [] => rfl
  | y :: ys => by
    simp only [place, List.map_cons, h x y]
    split
    · rfl
    · simp [map_place f before before' h x ys]

/-- A map that keeps the order moves through sorting. -/
theorem map_sort (f : α → β) (before : α → α → Bool) (before' : β → β → Bool)
    (h : ∀ x y, before x y = before' (f x) (f y)) :
    ∀ xs : List α, (sort before xs).map f = sort before' (xs.map f)
  | [] => rfl
  | x :: xs => by
    rw [sort, map_place f before before' h, map_sort f before before' h xs]
    rfl

/-- Placing keeps a list strictly ascending. -/
theorem ascending_place {before : α → α → Bool} (h : Strict before) (x : α) :
    ∀ xs : List α, Ascending before xs → x ∉ xs → Ascending before (place before x xs)
  | [], _, _ => List.pairwise_singleton _ _
  | y :: ys, hp, hx => by
    obtain ⟨hy, hys⟩ := List.pairwise_cons.1 hp
    simp only [place]
    split
    · rename_i hxy
      refine List.pairwise_cons.2 ⟨fun b hb => ?_, hp⟩
      rcases List.mem_cons.1 hb with rfl | hb
      · exact hxy
      · exact h.trans hxy (hy b hb)
    · rename_i hxy
      have hne : x ≠ y := fun he => hx (he ▸ List.mem_cons_self)
      have hyx : before y x = true := h.total hne (by simpa using hxy)
      refine List.pairwise_cons.2 ⟨fun b hb => ?_, ?_⟩
      · rcases mem_place.1 hb with rfl | hb
        · exact hyx
        · exact hy b hb
      · exact ascending_place h x ys hys fun hm => hx (List.mem_cons_of_mem _ hm)

/-- Sorting different elements makes a list strictly ascending. -/
theorem ascending_sort {before : α → α → Bool} (h : Strict before) :
    ∀ {xs : List α}, xs.Nodup → Ascending before (sort before xs)
  | [], _ => List.Pairwise.nil
  | x :: xs, hxs => by
    obtain ⟨hx, hxs⟩ := List.nodup_cons.1 hxs
    exact ascending_place h x _ (ascending_sort h hxs) fun hm => hx ((sort_perm before xs).mem_iff.1 hm)

end Order
end TenBit
