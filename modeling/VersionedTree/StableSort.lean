/-!
# Stable sorting

Insertion sort with a strict order: of two elements that the order does not tell apart, the one
that came first stays first.
-/

namespace VersionedTree

/-- Puts `a` behind every element that is not above it. -/
def insertStable {α : Type} (lt : α → α → Bool) (a : α) : List α → List α
  | [] => [a]
  | b :: rest => if lt a b then a :: b :: rest else b :: insertStable lt a rest

/-- The elements in order, equal ones as they came. -/
def sortStable {α : Type} (lt : α → α → Bool) (l : List α) : List α :=
  l.foldl (fun sorted a => insertStable lt a sorted) []

theorem insertStable_perm {α : Type} (lt : α → α → Bool) (a : α) (l : List α) :
    (insertStable lt a l).Perm (a :: l) := by
  induction l with
  | nil => exact .refl _
  | cons b rest ih =>
    simp only [insertStable]
    split
    · exact .refl _
    · exact (ih.cons b).trans (.swap a b rest)

theorem foldl_insertStable_perm {α : Type} (lt : α → α → Bool) (l acc : List α) :
    (l.foldl (fun sorted a => insertStable lt a sorted) acc).Perm (acc ++ l) := by
  induction l generalizing acc with
  | nil => simp
  | cons a rest ih =>
    refine (ih _).trans ?_
    exact ((insertStable_perm lt a acc).append_right rest).trans List.perm_middle.symm

/-- Sorting keeps every element as often as it was there. -/
theorem sortStable_perm {α : Type} (lt : α → α → Bool) (l : List α) :
    (sortStable lt l).Perm l := by
  simpa [sortStable] using foldl_insertStable_perm lt l []

section Ordered

variable {α : Type} {lt : α → α → Bool} (asymm : ∀ a b, lt a b = true → lt b a = false)
  (trans : ∀ a b c, lt b a = false → lt c b = false → lt c a = false)

include asymm trans

theorem pairwise_insertStable {a : α} {l : List α} (h : l.Pairwise fun x y => lt y x = false) :
    (insertStable lt a l).Pairwise fun x y => lt y x = false := by
  induction l with
  | nil => exact List.pairwise_singleton _ _
  | cons b rest ih =>
    have ⟨above, tail⟩ := List.pairwise_cons.1 h
    simp only [insertStable]
    split
    · rename_i hab
      refine List.pairwise_cons.2 ⟨fun x hx => ?_, h⟩
      rcases List.mem_cons.1 hx with rfl | hx
      · exact asymm a _ hab
      · exact trans a b x (asymm a b hab) (above x hx)
    · rename_i hab
      have hab : lt a b = false := by simpa using hab
      refine List.pairwise_cons.2 ⟨fun x hx => ?_, ih tail⟩
      rcases List.mem_cons.1 ((insertStable_perm lt a rest).mem_iff.1 hx) with rfl | hx
      · exact hab
      · exact above x hx

theorem pairwise_foldl_insertStable {l acc : List α}
    (h : acc.Pairwise fun x y => lt y x = false) :
    (l.foldl (fun sorted a => insertStable lt a sorted) acc).Pairwise
      fun x y => lt y x = false := by
  induction l generalizing acc with
  | nil => exact h
  | cons a rest ih => exact ih (pairwise_insertStable asymm trans h)

/-- No element of a sorted list is above one that comes behind it. -/
theorem pairwise_sortStable (l : List α) :
    (sortStable lt l).Pairwise fun x y => lt y x = false :=
  pairwise_foldl_insertStable asymm trans List.Pairwise.nil

end Ordered

end VersionedTree
