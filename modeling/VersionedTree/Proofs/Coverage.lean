import VersionedTree.Proofs.Tilings

/-! # What the check of a partition decides

The check puts the ranges in order and compares neighbours and the outer limits. Ranges in order
have no flaw just if they follow each other from one limit to the other, and ranges with a width do
so just if each time of the whole lies in one of them and no other time in any. An empty list is not
looked at, so it passes as a partition of any range.
-/

namespace VersionedTree.TimeRange

variable {r s : TimeRange} {ranges : List TimeRange} {lower upper : Int}

/-! ## What the neighbours say -/

theorem flawBetween_eq_none_iff : flawBetween r s = none ↔ r.upper = s.lower := by
  refine ⟨fun h => ?_, flawBetween_eq_none⟩
  rw [flawBetween] at h
  split at h
  · cases h
  · split at h
    · cases h
    · rename_i hadjacent
      exact not_not.1 hadjacent

theorem neighbourFlaws_cons_eq_nil_iff {first second : TimeRange} {rest : List TimeRange} :
    neighbourFlaws (first :: second :: rest) = [] ↔
      first.upper = second.lower ∧ neighbourFlaws (second :: rest) = [] := by
  rw [neighbourFlaws, List.append_eq_nil_iff, Option.toList_eq_nil_iff, flawBetween_eq_none_iff]

/-- Neighbours without a flaw follow each other. -/
theorem spans_of_neighbourFlaws {first last : TimeRange} {rest : List TimeRange}
    (h : neighbourFlaws (first :: rest) = []) (hlast : (first :: rest).getLast? = some last) :
    Spans first.lower last.upper (first :: rest) := by
  induction rest generalizing first with
  | nil =>
    cases hlast
    exact .single first
  | cons second rest ih =>
    obtain ⟨hadjacent, hrest⟩ := neighbourFlaws_cons_eq_nil_iff.1 h
    rw [List.getLast?_cons_cons] at hlast
    have hspans := ih hrest hlast
    rw [← hadjacent] at hspans
    exact .cons first hspans

theorem coverageFlaw_eq_none_iff {first last : TimeRange} {ordered : List TimeRange}
    (hfirst : ordered.head? = some first) (hlast : ordered.getLast? = some last) :
    coverageFlaw r ordered = none ↔ first.lower = r.lower ∧ last.upper = r.upper := by
  simp only [coverageFlaw, hfirst, hlast]
  split
  · rename_i hne
    simp only [reduceCtorEq, false_iff]
    omega
  · rename_i heq
    simp only [true_iff]
    omega

theorem partitionFlaws_eq_nil_iff_ordered : partitionFlaws ranges (some r) = [] ↔
    neighbourFlaws (sortStable precedes ranges) = [] ∧
      coverageFlaw r (sortStable precedes ranges) = none := by
  rw [partitionFlaws, List.append_eq_nil_iff, Option.toList_eq_nil_iff, Option.bind_some]

theorem partitionFlaws_nil (r : TimeRange) : partitionFlaws [] (some r) = [] := rfl

/-- Ranges pass the check just if they follow each other once they are in order. -/
theorem partitionFlaws_eq_nil_iff_spans (hne : ranges ≠ []) :
    partitionFlaws ranges (some r) = [] ↔
      Spans r.lower r.upper (sortStable precedes ranges) := by
  constructor
  · intro h
    obtain ⟨hneighbours, hcoverage⟩ := partitionFlaws_eq_nil_iff_ordered.1 h
    obtain ⟨first, rest, hordered⟩ : ∃ first rest, sortStable precedes ranges = first :: rest := by
      refine List.exists_cons_of_ne_nil fun hnil => hne ?_
      exact List.nil_perm.1 (hnil ▸ sortStable_perm precedes ranges)
    obtain ⟨last, hlast⟩ : ∃ last, (first :: rest).getLast? = some last :=
      ⟨_, List.getLast?_eq_some_getLast (List.cons_ne_nil first rest)⟩
    rw [hordered] at hneighbours hcoverage ⊢
    obtain ⟨hlower, hupper⟩ := (coverageFlaw_eq_none_iff rfl hlast).1 hcoverage
    rw [← hlower, ← hupper]
    exact spans_of_neighbourFlaws hneighbours hlast
  · exact fun h => h.partitionFlaws_eq_nil (sortStable_perm precedes ranges).symm

/-! ## Times and ranges -/

/-- Each time of `r` lies in exactly one of the ranges, and no other time in any. -/
structure IsTiledBy (r : TimeRange) (ranges : List TimeRange) : Prop where
  once (t : Int) : r.contains (some t) = true → ranges.countP (·.contains (some t)) = 1
  within (t : Int) : r.contains (some t) = false → ∀ range ∈ ranges, range.contains (some t) = false

theorem isTiledBy_iff : r.IsTiledBy ranges ↔ ∀ t : Int,
    ranges.countP (·.contains (some t)) = if r.contains (some t) = true then 1 else 0 := by
  constructor
  · rintro ⟨honce, hwithin⟩ t
    cases h : r.contains (some t) with
    | true => exact honce t h
    | false =>
      refine List.countP_eq_zero.2 fun range hrange => ?_
      rw [hwithin t h range hrange]
      exact Bool.false_ne_true
  · intro hcount
    refine ⟨fun t h => by rw [hcount, if_pos h], fun t h range hrange => ?_⟩
    have hzero := hcount t
    rw [h, if_neg Bool.false_ne_true, List.countP_eq_zero] at hzero
    simpa using hzero range hrange

theorem IsTiledBy.perm {ranges' : List TimeRange} (h : r.IsTiledBy ranges)
    (hperm : ranges'.Perm ranges) : r.IsTiledBy ranges' :=
  isTiledBy_iff.2 fun t => (hperm.countP_eq _).trans (isTiledBy_iff.1 h t)

theorem Spans.isTiledBy (h : Spans r.lower r.upper ranges) : r.IsTiledBy ranges :=
  isTiledBy_iff.2 fun t => h.countP_contains (some t)

theorem IsTiledBy.contains_of_mem (h : r.IsTiledBy ranges) {range : TimeRange}
    (hrange : range ∈ ranges) {t : Int} (ht : range.contains (some t) = true) :
    r.contains (some t) = true := by
  by_contra hnot
  rw [h.within t (by simpa using hnot) range hrange] at ht
  cases ht

theorem IsTiledBy.exists_contains (h : r.IsTiledBy ranges) {t : Int}
    (ht : r.contains (some t) = true) : ∃ range ∈ ranges, range.contains (some t) = true := by
  refine List.countP_pos_iff.1 ?_
  rw [h.once t ht]
  exact Nat.one_pos

theorem lower_lt_upper (h : r.isEmpty = false) : r.lower < r.upper := by
  have hne : r.lower ≠ r.upper := by simpa [isEmpty] using h
  have hle := r.lower_le_upper
  omega

section First

variable {first : TimeRange} {rest : List TimeRange}

/-- The first of some ranges in order begins where the whole does: none of the others can have the
lower limit of the whole. -/
theorem IsTiledBy.lower_eq (h : r.IsTiledBy (first :: rest)) (hfirst : first.isEmpty = false)
    (habove : ∀ range ∈ rest, range.precedes first = false) : first.lower = r.lower := by
  have hwidth := lower_lt_upper hfirst
  have hinside := h.contains_of_mem List.mem_cons_self
    ((contains_some_iff first _).2 ⟨Int.le_refl _, hwidth⟩)
  obtain ⟨hle, hlt⟩ := (contains_some_iff r _).1 hinside
  obtain ⟨range, hrange, hin⟩ := h.exists_contains (t := r.lower)
    ((contains_some_iff r _).2 ⟨Int.le_refl _, by omega⟩)
  obtain ⟨hbegins, -⟩ := (contains_some_iff range _).1 hin
  rcases List.mem_cons.1 hrange with rfl | hrange
  · omega
  · have := precedes_eq_false_iff.1 (habove range hrange)
    omega

theorem IsTiledBy.upper_le (h : r.IsTiledBy (first :: rest)) (hfirst : first.isEmpty = false) :
    first.upper ≤ r.upper := by
  have hwidth := lower_lt_upper hfirst
  have hinside := h.contains_of_mem (t := first.upper - 1) List.mem_cons_self
    ((contains_some_iff first _).2 (by omega))
  have := (contains_some_iff r _).1 hinside
  omega

/-- What the first range leaves of the whole is tiled by the others. -/
theorem IsTiledBy.tail (h : r.IsTiledBy (first :: rest)) (hlower : first.lower = r.lower)
    (hupper : first.upper ≤ r.upper) : IsTiledBy ⟨first.upper, r.upper, hupper⟩ rest := by
  refine isTiledBy_iff.2 fun t => ?_
  have hcount := isTiledBy_iff.1 h t
  have hle := first.lower_le_upper
  rw [List.countP_cons] at hcount
  simp only [contains_some_iff] at hcount ⊢
  split at hcount <;> split at hcount <;> split <;> omega

end First

/-- Ranges with a width that tile a range follow each other once they are in order. -/
theorem IsTiledBy.spans (h : r.IsTiledBy ranges) (hne : ranges ≠ [])
    (hwide : ∀ range ∈ ranges, range.isEmpty = false)
    (hordered : ranges.Pairwise fun x y => y.precedes x = false) :
    Spans r.lower r.upper ranges := by
  induction ranges generalizing r with
  | nil => exact absurd rfl hne
  | cons first rest ih =>
    obtain ⟨hfirst, hrest⟩ := List.forall_mem_cons.1 hwide
    obtain ⟨habove, htail⟩ := List.pairwise_cons.1 hordered
    have hlower := h.lower_eq hfirst habove
    have hupper := h.upper_le hfirst
    have hremaining := h.tail hlower hupper
    rw [← hlower]
    rcases eq_or_ne rest [] with rfl | hmore
    · -- Nothing is left for the other ranges, as there are none.
      have hend : first.upper = r.upper := by
        by_contra hgap
        obtain ⟨range, hrange, -⟩ := hremaining.exists_contains (t := first.upper)
          ((contains_some_iff _ _).2 ⟨Int.le_refl _, by simp only; omega⟩)
        cases hrange
      rw [← hend]
      exact .single first
    · exact .cons first (ih hremaining hmore hrest htail)

/-- Ranges that have a width pass the check just if each time of `r` lies in exactly one of them
and no other time in any. Without any range there is nothing to check, whatever `r` is. -/
theorem partitionFlaws_eq_nil_iff (hwide : ∀ range ∈ ranges, range.isEmpty = false)
    (r : TimeRange) :
    partitionFlaws ranges (some r) = [] ↔ ranges = [] ∨ r.IsTiledBy ranges := by
  rcases eq_or_ne ranges [] with rfl | hne
  · simp [partitionFlaws_nil]
  have hperm := sortStable_perm precedes ranges
  rw [partitionFlaws_eq_nil_iff_spans hne, or_iff_right hne]
  constructor
  · exact fun h => h.isTiledBy.perm hperm.symm
  · intro h
    refine (h.perm hperm).spans ?_ ?_ ?_
    · exact fun hnil => hne (List.nil_perm.1 (hnil ▸ hperm))
    · exact fun range hrange => hwide range (hperm.subset hrange)
    · exact pairwise_sortStable precedes_asymm precedes_trans ranges

theorem partitionFlaws_eq_nil_iff_of_shuffled :
    let ranges : List TimeRange :=
      [{ lower := 4, upper := 9 }, { lower := -2, upper := 1 }, { lower := 1, upper := 4 }]
    let r : TimeRange := { lower := -2, upper := 9 }
    (∀ range ∈ ranges, range.isEmpty = false) ∧ partitionFlaws ranges (some r) = [] ∧
      r.IsTiledBy ranges := by
  intro ranges r
  have hwide : ∀ range ∈ ranges, range.isEmpty = false := by decide
  have hflaws : partitionFlaws ranges (some r) = [] := by decide
  have htiled := (partitionFlaws_eq_nil_iff hwide r).1 hflaws
  exact ⟨hwide, hflaws, htiled.resolve_left (List.cons_ne_nil _ _)⟩

/-- No ranges at all pass as a partition of a range that has a width. -/
theorem partitionFlaws_of_no_ranges :
    let r : TimeRange := { lower := 0, upper := 10 }
    partitionFlaws [] (some r) = [] ∧ ¬ r.IsTiledBy [] := by
  intro r
  refine ⟨partitionFlaws_nil r, fun h => ?_⟩
  have hone : [].countP (fun range : TimeRange => range.contains (some 5)) = 1 :=
    h.once 5 (by decide)
  cases hone

end VersionedTree.TimeRange
