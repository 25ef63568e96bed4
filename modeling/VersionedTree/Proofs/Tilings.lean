import VersionedTree.Proofs.Ranges
import VersionedTree.TimeRange.Partition
import Mathlib.Data.List.Range
import Mathlib.Tactic.Ring

/-! # Splits are exact

A range that is split, into parts of equal width or at boundaries, gives ranges that follow each
other from its lower limit to its upper one. So each time of the range lies in exactly one of them.
In whatever order they are given, putting them in order finds that chain again, empty ranges
included, and the check of a partition finds no flaw.
-/

namespace VersionedTree.TimeRange

variable {r s : TimeRange} {ranges : List TimeRange} {lower upper : Int}

/-! ## The order of ranges -/

theorem precedes_eq_false_iff :
    r.precedes s = false ↔ s.lower < r.lower ∨ s.lower = r.lower ∧ s.upper ≤ r.upper := by
  simp only [precedes, Bool.or_eq_false_iff, Bool.and_eq_false_iff, decide_eq_false_iff_not]
  omega

theorem precedes_asymm (r s : TimeRange) (h : r.precedes s = true) : s.precedes r = false := by
  simp only [precedes, Bool.or_eq_true, Bool.and_eq_true, decide_eq_true_eq] at h
  rw [precedes_eq_false_iff]
  omega

theorem precedes_trans (r s t : TimeRange) (hsr : s.precedes r = false)
    (hts : t.precedes s = false) : t.precedes r = false := by
  rw [precedes_eq_false_iff] at *
  omega

theorem eq_of_precedes (hrs : r.precedes s = false) (hsr : s.precedes r = false) : r = s := by
  rw [precedes_eq_false_iff] at hrs hsr
  ext
  · omega
  · omega

theorem Spans.lower_le (h : Spans lower upper ranges) : ∀ range ∈ ranges, lower ≤ range.lower := by
  induction h with
  | single range => simp
  | cons range _ ih =>
    intro x hx
    rcases List.mem_cons.1 hx with rfl | hx
    · exact Int.le_refl _
    · exact Int.le_trans range.lower_le_upper (ih x hx)

/-- Ranges that follow each other are in order, also where some of them are empty. -/
theorem Spans.ordered (h : Spans lower upper ranges) :
    ranges.Pairwise fun x y => y.precedes x = false := by
  induction h with
  | single range => exact List.pairwise_singleton _ _
  | cons range h ih =>
    refine List.pairwise_cons.2 ⟨fun x hx => ?_, ih⟩
    have hafter := h.lower_le x hx
    have hrange := range.lower_le_upper
    have hx := x.lower_le_upper
    rw [precedes_eq_false_iff]
    omega

/-- Putting ranges that follow each other in order finds their chain again. -/
theorem Spans.sortStable_eq (h : Spans lower upper ranges) {shuffled : List TimeRange}
    (hperm : shuffled.Perm ranges) : sortStable precedes shuffled = ranges :=
  List.Perm.eq_of_pairwise (fun _ _ _ _ hxy hyx => eq_of_precedes hyx hxy)
    (pairwise_sortStable precedes_asymm precedes_trans shuffled) h.ordered
    ((sortStable_perm precedes shuffled).trans hperm)

/-! ## No flaw -/

theorem flawBetween_eq_none (h : r.upper = s.lower) : flawBetween r s = none := by
  have hoverlaps : r.overlaps s = false := by
    simp [overlaps, h]
  rw [flawBetween, hoverlaps, if_neg Bool.false_ne_true, if_neg (not_not_intro h)]

theorem Spans.exists_cons (h : Spans lower upper ranges) :
    ∃ first rest, ranges = first :: rest ∧ first.lower = lower := by
  cases h with
  | single range => exact ⟨range, [], rfl, rfl⟩
  | cons range h => exact ⟨range, _, rfl, rfl⟩

theorem Spans.getLast?_upper (h : Spans lower upper ranges) :
    ∃ last, ranges.getLast? = some last ∧ last.upper = upper := by
  induction h with
  | single range => exact ⟨range, rfl, rfl⟩
  | cons range h ih =>
    obtain ⟨first, rest, rfl, _⟩ := h.exists_cons
    rwa [List.getLast?_cons_cons]

theorem Spans.neighbourFlaws_eq_nil (h : Spans lower upper ranges) :
    neighbourFlaws ranges = [] := by
  induction h with
  | single range => rfl
  | cons range h ih =>
    obtain ⟨next, rest, rfl, hnext⟩ := h.exists_cons
    rw [neighbourFlaws, flawBetween_eq_none hnext.symm, ih]
    rfl

theorem Spans.coverageFlaw_eq_none (h : Spans r.lower r.upper ranges) :
    coverageFlaw r ranges = none := by
  obtain ⟨first, rest, hranges, hfirst⟩ := h.exists_cons
  obtain ⟨last, hlast, hupper⟩ := h.getLast?_upper
  have hhead : ranges.head? = some first := by rw [hranges, List.head?_cons]
  simp [coverageFlaw, hhead, hlast, hfirst, hupper]

theorem Spans.partitionFlaws_eq_nil (h : Spans r.lower r.upper ranges)
    {shuffled : List TimeRange} (hperm : shuffled.Perm ranges) :
    partitionFlaws shuffled (some r) = [] := by
  rw [partitionFlaws, h.sortStable_eq hperm, h.neighbourFlaws_eq_nil]
  simp [h.coverageFlaw_eq_none]

/-! ## Where ranges are cut -/

/-- The boundaries ascend, and all lie inside the range or at its limits. -/
def Fits (r : TimeRange) (boundaries : List Int) : Prop :=
  boundaries.Pairwise (· ≤ ·) ∧ ∀ b ∈ boundaries, r.lower ≤ b ∧ b ≤ r.upper

theorem fits_iff {boundaries : List Int} : r.Fits boundaries ↔
    (r.lower :: boundaries).Pairwise (· ≤ ·) ∧ ∀ b ∈ boundaries, b ≤ r.upper := by
  rw [List.pairwise_cons]
  constructor
  · rintro ⟨hsorted, hinside⟩
    exact ⟨⟨fun b hb => (hinside b hb).1, hsorted⟩, fun b hb => (hinside b hb).2⟩
  · rintro ⟨⟨hlower, hsorted⟩, hupper⟩
    exact ⟨hsorted, fun b hb => ⟨hlower b hb, hupper b hb⟩⟩

theorem of_cut_eq_ok {boundaries : List Int} {hl : lower ≤ r.upper}
    (h : cut r lower hl boundaries = .ok ranges) :
    ((lower :: boundaries).Pairwise (· ≤ ·) ∧ ∀ b ∈ boundaries, b ≤ r.upper) ∧
      ranges.map TimeRange.upper = boundaries ++ [r.upper] := by
  induction boundaries generalizing lower ranges with
  | nil =>
    cases h
    simp
  | cons b rest ih =>
    obtain ⟨hb, tail, htail, rfl⟩ := of_cut_cons_eq_ok h
    obtain ⟨⟨hsorted, hupper⟩, hmap⟩ := ih htail
    have hlower : ∀ x ∈ rest, b ≤ x := (List.pairwise_cons.1 hsorted).1
    refine ⟨⟨List.pairwise_cons.2 ⟨fun x hx => ?_, hsorted⟩, fun x hx => ?_⟩, ?_⟩
    · rcases List.mem_cons.1 hx with rfl | hx
      · exact hb.1
      · exact Int.le_trans hb.1 (hlower x hx)
    · rcases List.mem_cons.1 hx with rfl | hx
      · exact hb.2
      · exact hupper x hx
    · rw [List.map_cons, hmap, List.cons_append]

theorem cut_eq_error {boundaries : List Int} {hl : lower ≤ r.upper} {e : Error}
    (h : cut r lower hl boundaries = .error e) : e = .unsorted r := by
  induction boundaries generalizing lower with
  | nil => cases h
  | cons b rest ih =>
    rw [cut] at h
    split at h
    · rename_i hb
      cases htail : cut r b hb.2 rest with
      | error e' =>
        rw [htail] at h
        cases h
        exact ih htail
      | ok tail =>
        rw [htail] at h
        cases h
    · cases h
      rfl

theorem exists_splitAtBoundaries_iff {boundaries : List Int} :
    (∃ ranges, r.splitAtBoundaries boundaries = .ok ranges) ↔ r.Fits boundaries := by
  rw [fits_iff]
  constructor
  · rintro ⟨ranges, h⟩
    exact (of_cut_eq_ok h).1
  · rintro ⟨hsorted, hupper⟩
    obtain ⟨ranges, h, _⟩ := cut_eq r r.lower_le_upper hsorted hupper
    exact ⟨ranges, h⟩

/-- Boundaries that all have the same distance give ranges of that width, but for the last one. -/
theorem width_of_cut {boundaries : List Int} {hl : lower ≤ r.upper} {width : Int}
    (h : cut r lower hl boundaries = .ok ranges)
    (hstep : (lower :: boundaries).IsChain fun a b => b - a = width) :
    ∀ range ∈ ranges.dropLast, range.upper - range.lower = width := by
  induction boundaries generalizing lower ranges with
  | nil =>
    cases h
    intro range hrange
    cases hrange
  | cons b rest ih =>
    obtain ⟨hb, tail, htail, rfl⟩ := of_cut_cons_eq_ok h
    obtain ⟨hfirst, hrest⟩ := List.isChain_cons_cons.1 hstep
    obtain ⟨next, others, rfl, _⟩ := (spans_cut htail).exists_cons
    intro range hrange
    rw [List.dropLast_cons_cons] at hrange
    rcases List.mem_cons.1 hrange with rfl | hrange
    · exact hfirst
    · exact ih htail hrest range hrange

theorem boundaries_step (r : TimeRange) (parts : Int) :
    (r.lower :: r.boundaries parts).IsChain fun a b => b - a = (r.upper - r.lower) / parts := by
  have hlist : r.lower :: r.boundaries parts =
      (List.range (parts.toNat - 1 + 1)).map fun i : Nat =>
        r.lower + (r.upper - r.lower) / parts * i := by
    rw [boundaries, List.range_succ_eq_map, List.map_cons, List.map_map]
    simp [Function.comp_def]
  rw [hlist, List.isChain_map, List.isChain_range_succ]
  intro i _
  push_cast
  ring

/-! ## Exact partitions -/

/-- The ranges partition `r` exactly: they follow each other from its lower limit to its upper one,
each time of `r` lies in one of them and no other time in any, and in whatever order they are given
the check of the partition finds no flaw. -/
structure IsPartition (r : TimeRange) (ranges : List TimeRange) : Prop where
  spans : Spans r.lower r.upper ranges
  once (t : Int) : ranges.countP (·.contains (some t)) = if r.contains (some t) then 1 else 0
  sound (shuffled : List TimeRange) : shuffled.Perm ranges → partitionFlaws shuffled (some r) = []

theorem Spans.isPartition (h : Spans r.lower r.upper ranges) : r.IsPartition ranges where
  spans := h
  once t := h.countP_contains (some t)
  sound _ hperm := h.partitionFlaws_eq_nil hperm

/-- A range can be split into any positive number of parts, which partition it exactly and all but
the last have the same width, rounded down. It can be split at boundaries just if they ascend
inside the range, and then the parts that meet there partition it exactly. -/
theorem splits_exactly (r : TimeRange) :
    (∀ parts : Int, 1 ≤ parts → ∃ ranges, r.split parts = .ok ranges ∧
      ranges.length = parts.toNat ∧ r.IsPartition ranges ∧
      ∀ range ∈ ranges.dropLast, range.upper - range.lower = (r.upper - r.lower) / parts) ∧
    ∀ boundaries : List Int,
      ((∃ ranges, r.splitAtBoundaries boundaries = .ok ranges) ↔ r.Fits boundaries) ∧
      (r.splitAtBoundaries boundaries = .error (.unsorted r) ↔ ¬ r.Fits boundaries) ∧
      ∀ ranges, r.splitAtBoundaries boundaries = .ok ranges →
        ranges.length = boundaries.length + 1 ∧ r.IsPartition ranges ∧
        ranges.map TimeRange.upper = boundaries ++ [r.upper] := by
  constructor
  · intro parts hparts
    obtain ⟨ranges, hsplit, hlength⟩ := r.split_eq hparts
    have hcut := (r.split_eq_splitAtBoundaries hparts).symm.trans hsplit
    exact ⟨ranges, hsplit, hlength, (spans_cut hcut).isPartition,
      width_of_cut hcut (r.boundaries_step parts)⟩
  · intro boundaries
    refine ⟨exists_splitAtBoundaries_iff, ?_, fun ranges h => ?_⟩
    · rw [← exists_splitAtBoundaries_iff]
      cases hsplit : r.splitAtBoundaries boundaries with
      | error e => simp [cut_eq_error hsplit]
      | ok ranges => simp
    · have huppers := (of_cut_eq_ok h).2
      have hlength := congrArg List.length huppers
      rw [List.length_map, List.length_append, List.length_singleton] at hlength
      exact ⟨hlength, (spans_cut h).isPartition, huppers⟩

/-- A range that is narrower than the number of its parts: all but the last are empty, and they are
told apart in reverse order as well. -/
theorem splits_exactly_of_narrow_range :
    let r : TimeRange := { lower := -3, upper := 1 }
    (∃ ranges, r.split 6 = .ok ranges ∧ ranges.length = 6 ∧
      (∀ range ∈ ranges.dropLast, range.upper - range.lower = 0) ∧
      partitionFlaws ranges.reverse (some r) = []) ∧
    ∃ ranges, r.splitAtBoundaries [-3, 0, 0, 1] = .ok ranges ∧ ranges.length = 5 ∧
      partitionFlaws ranges.reverse (some r) = [] := by
  intro r
  obtain ⟨hparts, hboundaries⟩ := splits_exactly r
  constructor
  · obtain ⟨ranges, hsplit, hlength, hpartition, hwidth⟩ := hparts 6 (by decide)
    exact ⟨ranges, hsplit, hlength, hwidth, hpartition.sound _ ranges.reverse_perm⟩
  · obtain ⟨hsplits, _, hpartition⟩ := hboundaries [-3, 0, 0, 1]
    obtain ⟨ranges, hsplit⟩ := hsplits.2 ⟨by decide, by decide⟩
    obtain ⟨hlength, hranges, _⟩ := hpartition ranges hsplit
    exact ⟨ranges, hsplit, hlength, hranges.sound _ ranges.reverse_perm⟩

end VersionedTree.TimeRange
