import VersionedTree.TimeRange

/-! # Parts of a range

A range can be split into any positive number of parts: the boundaries that the equal widths give
ascend and lie inside the range. Of the parts of the range of all times one goes through a document
of a time from 0 on. Other documents are gone through only if there is one part, or if there are so
many that none has any width.
-/

namespace VersionedTree.TimeRange

theorem cut_eq (r : TimeRange) {boundaries : List Int} {lower : Int} (hl : lower ≤ r.upper)
    (hsorted : (lower :: boundaries).Pairwise (· ≤ ·)) (hupper : ∀ b ∈ boundaries, b ≤ r.upper) :
    ∃ parts, cut r lower hl boundaries = .ok parts ∧ parts.length = boundaries.length + 1 := by
  induction boundaries generalizing lower with
  | nil => exact ⟨_, rfl, rfl⟩
  | cons b rest ih =>
    obtain ⟨hlower, hrest⟩ := List.pairwise_cons.1 hsorted
    have hb : lower ≤ b ∧ b ≤ r.upper :=
      ⟨hlower b List.mem_cons_self, hupper b List.mem_cons_self⟩
    obtain ⟨parts, hparts, hlength⟩ :=
      ih hb.2 hrest fun x hx => hupper x (List.mem_cons_of_mem b hx)
    refine ⟨⟨lower, b, hb.1⟩ :: parts, ?_, ?_⟩
    · rw [cut, dif_pos hb, hparts]
      rfl
    · rw [List.length_cons, hlength, List.length_cons]

/-- The boundaries between so many parts of equal width. -/
def boundaries (r : TimeRange) (parts : Int) : List Int :=
  (List.range (parts.toNat - 1)).map fun i => r.lower + (r.upper - r.lower) / parts * (i + 1 : Nat)

theorem mem_boundaries {r : TimeRange} {parts b : Int} : b ∈ r.boundaries parts ↔
    ∃ i : Nat, i < parts.toNat - 1 ∧ r.lower + (r.upper - r.lower) / parts * (i + 1 : Nat) = b := by
  simp only [boundaries, List.mem_map, List.mem_range]

theorem split_eq_splitAtBoundaries (r : TimeRange) {parts : Int} (hparts : 1 ≤ parts) :
    r.split parts = r.splitAtBoundaries (r.boundaries parts) := by
  rw [split, if_neg (by omega)]
  rfl

theorem width_nonneg (r : TimeRange) {parts : Int} (hparts : 1 ≤ parts) :
    0 ≤ (r.upper - r.lower) / parts := by
  have := r.lower_le_upper
  exact Int.ediv_nonneg (by omega) (by omega)

theorem boundaries_le (r : TimeRange) {parts : Int} (hparts : 1 ≤ parts) :
    ∀ b ∈ r.boundaries parts, b + (r.upper - r.lower) / parts ≤ r.upper := by
  intro b hb
  obtain ⟨i, hi, rfl⟩ := mem_boundaries.1 hb
  have hwidth := r.width_nonneg hparts
  have htotal : (r.upper - r.lower) / parts * parts ≤ r.upper - r.lower :=
    Int.ediv_mul_le _ (by omega)
  generalize (r.upper - r.lower) / parts = width at hwidth htotal ⊢
  have hi : ((i + 2 : Nat) : Int) ≤ parts := by omega
  have hmul := Int.mul_le_mul_of_nonneg_left hi hwidth
  have hsucc : width * (i + 2 : Nat) = width * (i + 1 : Nat) + width := by
    rw [show ((i + 2 : Nat) : Int) = (i + 1 : Nat) + 1 from rfl, Int.mul_add, Int.mul_one]
  omega

theorem boundaries_ascending (r : TimeRange) {parts : Int} (hparts : 1 ≤ parts) :
    (r.lower :: r.boundaries parts).Pairwise (· ≤ ·) := by
  have hwidth := r.width_nonneg hparts
  rw [List.pairwise_cons]
  constructor
  · intro b hb
    obtain ⟨i, _, rfl⟩ := mem_boundaries.1 hb
    have hmul := Int.mul_nonneg hwidth (Int.natCast_nonneg (i + 1))
    omega
  · rw [boundaries, List.pairwise_map]
    refine List.pairwise_lt_range.imp fun {i j} hij => ?_
    have hij : ((i + 1 : Nat) : Int) ≤ (j + 1 : Nat) := by omega
    have hmul := Int.mul_le_mul_of_nonneg_left hij hwidth
    omega

theorem split_eq (r : TimeRange) {parts : Int} (hparts : 1 ≤ parts) :
    ∃ ranges, r.split parts = .ok ranges ∧ ranges.length = parts.toNat := by
  have hupper : ∀ b ∈ r.boundaries parts, b ≤ r.upper := by
    intro b hb
    have hle := r.boundaries_le hparts b hb
    have hwidth := r.width_nonneg hparts
    omega
  obtain ⟨ranges, hranges, hlength⟩ :=
    cut_eq r r.lower_le_upper (r.boundaries_ascending hparts) hupper
  refine ⟨ranges, (r.split_eq_splitAtBoundaries hparts).trans hranges, ?_⟩
  rw [hlength, boundaries, List.length_map, List.length_range]
  omega

/-- Does a scan of the range go through a document of this time? -/
def admitsTime (r : TimeRange) (time : Option Int) : Bool := r.coversAll || r.contains time

theorem coversAll_eq_false {r : TimeRange} (h : r.upper < unlimited) : r.coversAll = false := by
  have hupper : r.upper ≠ unlimited := Int.ne_of_lt h
  rw [coversAll, decide_eq_false hupper, Bool.and_false]

theorem contains_some_iff (r : TimeRange) (x : Int) :
    r.contains (some x) = true ↔ r.lower ≤ x ∧ x < r.upper := by
  rw [contains, decide_eq_true_iff, mem_def]

theorem contains_adjacent {lower b upper : Int} (h : lower ≤ b) (h' : b ≤ upper)
    (time : Option Int) :
    ((if contains ⟨b, upper, h'⟩ time = true then 1 else 0) +
        if contains ⟨lower, b, h⟩ time = true then 1 else 0) =
      if contains ⟨lower, upper, Int.le_trans h h'⟩ time = true then 1 else 0 := by
  cases time with
  | none => rfl
  | some x =>
    simp only [contains_some_iff]
    split <;> split <;> split <;> omega

theorem of_cut_cons_eq_ok {r : TimeRange} {lower b : Int} {hl : lower ≤ r.upper} {rest : List Int}
    {parts : List TimeRange} (h : cut r lower hl (b :: rest) = .ok parts) :
    ∃ (hb : lower ≤ b ∧ b ≤ r.upper) (tail : List TimeRange), cut r b hb.2 rest = .ok tail ∧
      ⟨lower, b, hb.1⟩ :: tail = parts := by
  rw [cut] at h
  split at h
  · rename_i hb
    cases htail : cut r b hb.2 rest with
    | error e =>
      rw [htail] at h
      cases h
    | ok tail =>
      rw [htail] at h
      exact ⟨hb, tail, htail, Except.ok.inj h⟩
  · cases h

/-- Ranges that follow each other from one limit to another: the first begins at the lower limit,
each one where the one before it ends, and the last one ends at the upper limit. -/
inductive Spans : Int → Int → List TimeRange → Prop
  | single (range : TimeRange) : Spans range.lower range.upper [range]
  | cons (range : TimeRange) {upper : Int} {rest : List TimeRange}
    (h : Spans range.upper upper rest) : Spans range.lower upper (range :: rest)

theorem Spans.le {lower upper : Int} {ranges : List TimeRange} (h : Spans lower upper ranges) :
    lower ≤ upper := by
  induction h with
  | single range => exact range.lower_le_upper
  | cons range _ ih => exact Int.le_trans range.lower_le_upper ih

/-- What lies between the limits lies in one of the ranges. -/
theorem Spans.countP_contains {lower upper : Int} {ranges : List TimeRange}
    (h : Spans lower upper ranges) (time : Option Int) :
    ranges.countP (contains · time) =
      if contains ⟨lower, upper, h.le⟩ time = true then 1 else 0 := by
  induction h with
  | single range => exact List.countP_singleton
  | cons range h ih =>
    rw [List.countP_cons, ih]
    exact contains_adjacent range.lower_le_upper h.le time

theorem spans_cut {r : TimeRange} {boundaries : List Int} {lower : Int} {hl : lower ≤ r.upper}
    {parts : List TimeRange} (h : cut r lower hl boundaries = .ok parts) :
    Spans lower r.upper parts := by
  induction boundaries generalizing lower parts with
  | nil =>
    cases h
    exact Spans.single ⟨lower, r.upper, hl⟩
  | cons b rest ih =>
    obtain ⟨hb, tail, htail, rfl⟩ := of_cut_cons_eq_ok h
    exact Spans.cons ⟨lower, b, hb.1⟩ (ih htail)

/-- Of the parts of an unlimited range one goes through what lies in the range. What does not is
gone through only if all boundaries are 0, so that the last part is the range of all times. -/
theorem countP_cut {r : TimeRange} (hr : r.upper = unlimited) {boundaries : List Int} {lower : Int}
    (hl : lower ≤ r.upper) (hlower : 0 ≤ lower) (hboundaries : ∀ b ∈ boundaries, b < unlimited)
    {parts : List TimeRange} (h : cut r lower hl boundaries = .ok parts) (time : Option Int) :
    parts.countP (admitsTime · time) =
      if (lower = 0 ∧ ∀ b ∈ boundaries, b = 0) ∨ contains ⟨lower, r.upper, hl⟩ time = true then 1
      else 0 := by
  induction boundaries generalizing lower parts with
  | nil =>
    cases h
    rw [List.countP_singleton]
    simp [admitsTime, coversAll, hr]
  | cons b rest ih =>
    obtain ⟨hb, tail, htail, rfl⟩ := of_cut_cons_eq_ok h
    have hrest : ∀ x ∈ rest, x < unlimited :=
      fun x hx => hboundaries x (List.mem_cons_of_mem b hx)
    have hcount := ih hb.2 (Int.le_trans hlower hb.1) hrest htail
    have hfirst : (⟨lower, b, hb.1⟩ : TimeRange).coversAll = false :=
      coversAll_eq_false (hboundaries b List.mem_cons_self)
    have hzero : (lower = 0 ∧ ∀ x ∈ b :: rest, x = 0) ↔ b = 0 ∧ ∀ x ∈ rest, x = 0 := by
      rw [List.forall_mem_cons]
      exact ⟨And.right, fun h => ⟨by omega, h⟩⟩
    rw [List.countP_cons, hcount, admitsTime, hfirst, Bool.false_or]
    by_cases hz : b = 0 ∧ ∀ x ∈ rest, x = 0
    · -- The last part is the range of all times, and the first part is empty.
      have hempty : contains ⟨lower, b, hb.1⟩ time ≠ true := by
        cases time with
        | none => exact Bool.false_ne_true
        | some x =>
          rw [Ne, contains_some_iff]
          simp only
          omega
      rw [if_pos (.inl hz), if_neg hempty, if_pos (.inl (hzero.2 hz))]
    · simp only [hz, hzero, false_or]
      exact contains_adjacent hb.1 hb.2 time

theorem boundaries_all_eq_zero_iff {parts : Int} (hparts : 1 ≤ parts) :
    (∀ b ∈ all.boundaries parts, b = 0) ↔ parts = 1 ∨ unlimited < parts := by
  constructor
  · intro hzero
    refine Decidable.byContradiction fun hnot => ?_
    have hmem : 0 + (unlimited - 0) / parts * (0 + 1 : Nat) ∈ all.boundaries parts :=
      mem_boundaries.2 ⟨0, by omega, rfl⟩
    have hwidth : 1 ≤ (unlimited - 0) / parts := Int.le_ediv_of_mul_le (by omega) (by omega)
    have := hzero _ hmem
    omega
  · rintro (rfl | hlt) b hb
    · obtain ⟨i, hi, _⟩ := mem_boundaries.1 hb
      omega
    · obtain ⟨i, _, rfl⟩ := mem_boundaries.1 hb
      have hwidth : (all.upper - all.lower) / parts = 0 :=
        Int.ediv_eq_zero_of_lt (by decide) hlt
      rw [hwidth, Int.zero_mul]
      rfl

/-- Of the parts of the range of all times one goes through every time from 0 on. The others, and
documents without a time, are in none, unless there is one part only or no part has any width. -/
theorem countP_split {parts : Int} (hparts : 1 ≤ parts) {ranges : List TimeRange}
    (h : all.split parts = .ok ranges) (time : Option Int) :
    ranges.countP (admitsTime · time) =
      if (parts = 1 ∨ unlimited < parts) ∨ all.contains time = true then 1 else 0 := by
  rw [all.split_eq_splitAtBoundaries hparts] at h
  have hboundaries : ∀ b ∈ all.boundaries parts, b < unlimited := by
    intro b hb
    rcases Int.le_iff_eq_or_lt.1 (all.width_nonneg hparts) with hwidth | hwidth
    · obtain ⟨i, _, rfl⟩ := mem_boundaries.1 hb
      rw [← hwidth, Int.zero_mul]
      decide
    · have hle : b + (all.upper - all.lower) / parts ≤ unlimited := all.boundaries_le hparts b hb
      omega
  have hzero : (all.lower = 0 ∧ ∀ b ∈ all.boundaries parts, b = 0) ↔
      parts = 1 ∨ unlimited < parts := by
    rw [boundaries_all_eq_zero_iff hparts]
    exact and_iff_right rfl
  rw [countP_cut rfl all.lower_le_upper (Int.le_refl 0) hboundaries h time]
  simp only [hzero]

end VersionedTree.TimeRange
