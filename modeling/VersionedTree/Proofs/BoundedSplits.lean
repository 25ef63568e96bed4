import VersionedTree.Proofs.Splitting

/-! # Splitting a bounded range

A range that is not that of all times goes through the documents whose time it contains. If it is
split and no part is the range of all times, every such document lies in one part. So the parts
together deliver what the range does, and each is counted under its own label, in whatever order
they finish.
-/

namespace VersionedTree

namespace TimeRange

variable {r : TimeRange} {ranges : List TimeRange}

/-- The range was cut at boundaries, or into parts of equal width. -/
def IsCutInto (r : TimeRange) (ranges : List TimeRange) : Prop :=
  (∃ parts, r.split parts = .ok ranges) ∨
    ∃ boundaries, r.splitAtBoundaries boundaries = .ok ranges

theorem positive_of_split {parts : Int} (h : r.split parts = .ok ranges) : 1 ≤ parts := by
  by_cases hparts : parts ≤ 0
  · rw [split, if_pos hparts] at h
    cases h
  · omega

theorem IsCutInto.spans (h : r.IsCutInto ranges) : Spans r.lower r.upper ranges := by
  obtain ⟨parts, h⟩ | ⟨boundaries, h⟩ := h
  · rw [r.split_eq_splitAtBoundaries (positive_of_split h)] at h
    exact spans_cut h
  · exact spans_cut h

end TimeRange

namespace DocumentStore

variable {r range : TimeRange} {ranges : List TimeRange}

theorem inRange_of_bounded (hrange : range.coversAll = false) (d : Document) :
    inRange range d = range.contains (d.modified.bind Modified.time?) := by
  rw [inRange, hrange, Bool.false_or]

theorem flatMap_select_perm_of_bounded (hr : r.coversAll = false)
    (hranges : r.IsCutInto ranges) (hbounded : ∀ range ∈ ranges, range.coversAll = false)
    (s : DocumentStore) : (ranges.flatMap s.select).Perm (s.select r) := by
  refine flatMap_filter_perm fun item _ => ?_
  have hcount := hranges.spans.countP_contains (item.document.modified.bind Modified.time?)
  rw [inRange_of_bounded hr, ← hcount]
  refine List.countP_congr fun range hrange => ?_
  rw [inRange_of_bounded (hbounded range hrange)]

end DocumentStore

namespace Workspace

/-- The documents that a cursor goes through if it is opened now. -/
def streamed {υ : Type} (w : Workspace υ) (range : TimeRange) : List Stored :=
  match (openCursor range w).1 with
  | .ok (_, stream) => stream
  | .error _ => []

theorem streamed_eq {υ : Type} {w : Workspace υ} {range : TimeRange}
    (ha : w.store.available = true) (htimes : w.store.requireTimes range = .ok ()) :
    w.streamed range = w.store.select range := by
  rw [streamed, openCursor_of_ok (DocumentStore.scannable_eq_ok ha htimes)]

end Workspace

namespace Traverser

variable {t : Traverser (List Entry)} {accepts : String → Bool} {roots : List String}
  {v : RevisionVector} {w w' : Workspace (List Entry)}

/-- Makes a traverser, hands all its entries to the caller and closes it. -/
def traverse (t : Traverser (List Entry)) (v : RevisionVector) (roots : List String) :
    Action (Workspace (List Entry)) Unit := do
  let t ← t.create (some v) roots
  Action.guarded t.collect t.close

theorem of_traverse_eq_ok (ht : t.IsPlain accepts fun _ u => u) (hs : w.store.Sound)
    (h : t.traverse v roots w = (.ok (), w')) :
    Traversable w.store v accepts roots t.range ∧
      w'.caller = w.caller ++ share w.store v accepts roots t.range := by
  obtain ⟨t', w₁, hcreate, hcollect⟩ := Action.of_bind_eq_ok h
  exact of_guarded_created_eq_ok ht hs hcreate hcollect

theorem traverse_eq (ht : t.IsPlain accepts fun _ u => u)
    (hs : Traversable w.store v accepts roots t.range) :
    ∃ w', t.traverse v roots w = (.ok (), w') ∧
      w'.caller = w.caller ++ share w.store v accepts roots t.range := by
  obtain ⟨w', hcollect, hcaller⟩ :=
    created_serves ht hs.sound hs.available hs.times (create_eq t v roots w)
  rw [hs.visits_select] at hcollect hcaller
  refine ⟨w', ?_, hcaller⟩
  rw [traverse, Action.bind_apply, create_eq]
  exact hcollect

theorem share_parts_perm {r : TimeRange} {ranges : List TimeRange} (hr : r.coversAll = false)
    (hranges : r.IsCutInto ranges) (hbounded : ∀ range ∈ ranges, range.coversAll = false)
    (s : DocumentStore) (v : RevisionVector) (accepts : String → Bool) (roots : List String) :
    (ranges.flatMap (share s v accepts roots)).Perm (share s v accepts roots r) := by
  have hselect := s.flatMap_select_perm_of_bounded hr hranges hbounded
  have hperm := hselect.flatMap_right (visited s v accepts roots)
  rwa [List.flatMap_assoc] at hperm

theorem Traversable.parts {s : DocumentStore} {r : TimeRange} {ranges : List TimeRange}
    (hr : r.coversAll = false) (hranges : r.IsCutInto ranges)
    (hbounded : ∀ range ∈ ranges, range.coversAll = false)
    (h : Traversable s v accepts roots r) :
    ∀ range ∈ ranges, Traversable s v accepts roots range := by
  intro range hrange
  refine h.part (s.timed_of_requireTimes hr h.times) fun item hitem => ?_
  have hselect := s.flatMap_select_perm_of_bounded hr hranges hbounded
  exact hselect.subset (List.mem_flatMap.2 ⟨range, hrange, hitem⟩)

/-- What a parallel run over the parts of a range hands to the caller, and how it counts. -/
theorem parallel_parts {t : Traverser (List Entry)} (ht : t.IsPlain accepts fun _ u => u)
    {ranges : List TimeRange} {parts : Int} (hranges : t.range.split parts = .ok ranges)
    (hs : ∀ range ∈ ranges, Traversable w.store v accepts roots range) :
    ∃ ts w₁, t.createPartitioned parts (some v) roots w = (.ok ts, w₁) ∧
      ts.length = ranges.length ∧ w₁.caller = w.caller ∧
      ∀ maxWorkers : Option Int, maxWorkers.any (· < 0) = false → ∀ order, order.Perm ts →
        ∃ counts w₂, parallel order Workspace.take maxWorkers w₁ = (.ok counts, w₂) ∧
          counts.size = ranges.length ∧
          (∀ (i : Nat) range, ranges[i]? = some range →
            counts.get? (t.label ++ "-" ++ toString i) =
              some (share w.store v accepts roots range).length) ∧
          counts.total + w.caller.length = w₂.caller.length ∧
          w₂.caller.Perm (w.caller ++ ranges.flatMap (share w.store v accepts roots)) := by
  obtain ⟨ranges', ts, w₁, hranges', _, hts, hmade⟩ :=
    createPartitioned_eq ht (TimeRange.positive_of_split hranges) v roots w
  obtain rfl : ranges' = ranges := Except.ok.inj (hranges'.symm.trans hranges)
  obtain ⟨hlabels, hsplit⟩ := hmade.map_label
  have hlength : ts.length = ranges'.length := by rw [← hsplit, List.length_map]
  refine ⟨ts, w₁, hts, hlength, hmade.caller, fun maxWorkers hmax order horder => ?_⟩
  have hstore : w₁.store = w.store := congrArg Repository.store hmade.repository
  have hagrees : w.store.Agrees w₁.store := by
    rw [hstore]
    exact .refl _
  have htraversable : ∀ t ∈ order, Traversable w.store v accepts roots t.range := by
    intro t ht
    refine hs t.range ?_
    rw [← hsplit]
    exact List.mem_map_of_mem (horder.subset ht)
  obtain ⟨counts, w₂, hrun, hcounts, hcaller⟩ := parallel_delivers
    (fun t ht => hmade.pinned t (horder.subset ht)) htraversable hagrees
    (hmade.tidy w.tidy_lengths) (fun t ht => hmade.numbers t (horder.subset ht))
    ((horder.map label).nodup_iff.2 hlabels) hmax
  rw [hmade.caller] at hcaller
  refine ⟨counts, w₂, hrun, ?_, fun i range hrange => ?_, ?_, ?_⟩
  · rw [OrderedMap.size, hcounts, List.length_map, horder.length_eq, hlength]
  · -- The traverser of a part bears the part's number in its label.
    have hmem : (t.label ++ "-" ++ toString i, range) ∈ ts.map fun t => (t.label, t.range) := by
      rw [hmade.parts]
      exact List.mem_map.2 ⟨(range, i), List.mem_zipIdx_iff_getElem?.2 hrange, rfl⟩
    obtain ⟨t', ht', heq⟩ := List.mem_map.1 hmem
    obtain ⟨hlabel, rfl⟩ := Prod.mk.inj heq
    rw [← hlabel]
    refine OrderedMap.get?_of_mem ?_
    rw [hcounts]
    exact List.mem_map.2 ⟨t', horder.symm.subset ht', rfl⟩
  · rw [OrderedMap.total, hcounts, total_lengths, hcaller, List.length_append]
    omega
  · rw [hcaller, ← hsplit, List.flatMap_map]
    exact (horder.flatMap_right _).append_left _

/-- If the traversal of a bounded range comes to its end, so do those of its parts. Together they
go through no document twice and deliver the same entries, and a parallel run over the parts counts
what each of them delivers, in whatever order they finish. -/
theorem traverse_parts_perm {w w' : Workspace (List Entry)} (hs : w.store.Sound)
    (hcaller : w.caller = []) (label : String) {r : TimeRange} (hr : r.coversAll = false)
    (accepts : String → Bool) (roots : List String) (v : RevisionVector)
    (hwhole : (plain label r accepts fun _ u => u).traverse v roots w = (.ok (), w'))
    {ranges : List TimeRange} (hranges : r.IsCutInto ranges)
    (hbounded : ∀ range ∈ ranges, range.coversAll = false) :
    let t : Traverser (List Entry) := plain label r accepts fun _ u => u
    let part (range : TimeRange) := { t with range }.traverse v roots w
    (∀ range ∈ ranges, (part range).1 = .ok ()) ∧
      (ranges.flatMap fun range => (part range).2.caller).Perm w'.caller ∧
      ((ranges.flatMap w.streamed).map Stored.id).Nodup ∧
      ∀ parts, r.split parts = .ok ranges →
        ∃ ts w₁, t.createPartitioned parts (some v) roots w = (.ok ts, w₁) ∧
          ts.length = ranges.length ∧
          ∀ maxWorkers : Option Int, maxWorkers.any (· < 0) = false → ∀ order, order.Perm ts →
            ∃ counts w₂, parallel order Workspace.take maxWorkers w₁ = (.ok counts, w₂) ∧
              counts.size = ranges.length ∧
              (∀ (i : Nat) range, ranges[i]? = some range →
                counts.get? (label ++ "-" ++ toString i) = some (part range).2.caller.length) ∧
              counts.total = w₂.caller.length ∧ w₂.caller.Perm w'.caller := by
  intro t part
  have ht (range : TimeRange) : { t with range }.IsPlain accepts fun _ u => u :=
    ⟨rfl, rfl, rfl, rfl⟩
  obtain ⟨htraversable, hdelivered⟩ := of_traverse_eq_ok (ht r) hs hwhole
  have hparts : ∀ range ∈ ranges, Traversable w.store v accepts roots range :=
    htraversable.parts hr hranges hbounded
  have hpart : ∀ range ∈ ranges, (part range).1 = .ok () ∧
      (part range).2.caller = share w.store v accepts roots range := by
    intro range hrange
    obtain ⟨w₁, hrun, hentries⟩ := traverse_eq (t := { t with range }) (ht range)
      (hparts range hrange)
    rw [hcaller, List.nil_append] at hentries
    rw [show part range = (.ok (), w₁) from hrun]
    exact ⟨rfl, hentries⟩
  have hshared := share_parts_perm hr hranges hbounded w.store v accepts roots
  rw [hcaller, List.nil_append] at hdelivered
  refine ⟨fun range hrange => (hpart range hrange).1, ?_, ?_, fun parts hsplit => ?_⟩
  · rw [List.flatMap_congr fun range hrange => (hpart range hrange).2, hdelivered]
    exact hshared
  · have hstreamed : ∀ range ∈ ranges, w.streamed range = w.store.select range :=
      fun range hrange => Workspace.streamed_eq htraversable.available (hparts range hrange).times
    have hselect := w.store.flatMap_select_perm_of_bounded hr hranges hbounded
    rw [List.flatMap_congr hstreamed, (hselect.map Stored.id).nodup_iff]
    exact (List.filter_sublist.map Stored.id).nodup w.store.catalog.ids_nodup
  · obtain ⟨ts, w₁, hts, hlength, -, hrun⟩ := parallel_parts (ht r) hsplit hparts
    refine ⟨ts, w₁, hts, hlength, fun maxWorkers hmax order horder => ?_⟩
    obtain ⟨counts, w₂, hrun, hsize, hcounts, htotal, hperm⟩ := hrun maxWorkers hmax order horder
    rw [hcaller] at htotal hperm
    rw [List.nil_append] at hperm
    refine ⟨counts, w₂, hrun, hsize, fun i range hrange => ?_, htotal, ?_⟩
    · rw [(hpart range (List.mem_of_getElem? hrange)).2]
      exact hcounts i range hrange
    · rw [hdelivered]
      exact hperm.trans hshared

theorem traverse_parts_perm_of_three :
    let commits : List Commit := [{ revision := ⟨1, 0, 1⟩, properties := some [] }]
    let a : Document := { Document.forPath "/a" with modified := some (.time (-2)), commits }
    let b : Document := { Document.forPath "/b" with modified := some (.time 3), commits }
    let c : Document := { Document.forPath "/c" with commits }
    let w : Workspace (List Entry) :=
      { repository := { store := ((DocumentStore.written {} a).written b).written c }
        caller := [] }
    let r : TimeRange := { lower := -2, upper := 5 }
    let ranges : List TimeRange :=
      [{ lower := -2, upper := 0 }, { lower := 0, upper := 2 }, { lower := 2, upper := 5 }]
    let v : RevisionVector := .ofList [⟨1, 0, 1⟩]
    let t : Traverser (List Entry) := plain "part" r (fun _ => true) fun _ u => u
    let part (range : TimeRange) := { t with range }.traverse v ["/c"] w
    ∃ w', t.traverse v ["/c"] w = (.ok (), w') ∧ w'.caller.length = 2 ∧
      (∀ range ∈ ranges, (part range).1 = .ok ()) ∧
      (ranges.flatMap fun range => (part range).2.caller).Perm w'.caller ∧
      ((ranges.flatMap w.streamed).map Stored.id).Nodup ∧
      ∀ parts, r.split parts = .ok ranges →
        ∃ ts w₁, t.createPartitioned parts (some v) ["/c"] w = (.ok ts, w₁) ∧
          ts.length = ranges.length ∧
          ∀ maxWorkers : Option Int, maxWorkers.any (· < 0) = false → ∀ order, order.Perm ts →
            ∃ counts w₂, parallel order Workspace.take maxWorkers w₁ = (.ok counts, w₂) ∧
              counts.size = ranges.length ∧
              (∀ (i : Nat) range, ranges[i]? = some range →
                counts.get? ("part" ++ "-" ++ toString i) = some (part range).2.caller.length) ∧
              counts.total = w₂.caller.length ∧ w₂.caller.Perm w'.caller := by
  intro commits a b c w r ranges v t part
  have hwhole : t.traverse v ["/c"] w = (.ok (), (t.traverse v ["/c"] w).2) :=
    Action.eq_ok_of_isOk (by decide +kernel)
  have hsound : w.store.Sound := DocumentStore.sound_written (DocumentStore.sound_written
    (DocumentStore.sound_written
      (DocumentStore.sound_create (c := { enabled := false }) rfl) a) b) c
  have hcaller : w.caller = [] := rfl
  have htwo : (t.traverse v ["/c"] w).2.caller.length = 2 := by decide +kernel
  refine ⟨_, hwhole, htwo, ?_⟩
  -- What is in the store does not matter any more.
  clear_value w
  exact traverse_parts_perm hsound hcaller "part" (by decide) (fun _ => true) ["/c"] v hwhole
    (.inl ⟨3, rfl⟩) (by decide)

end Traverser

end VersionedTree
