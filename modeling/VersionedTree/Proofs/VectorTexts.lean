import VersionedTree.Proofs.Numerals
import VersionedTree.Proofs.Visibility

/-! # Texts of vectors

A vector made of revisions holds the latest one of each cluster, so the order of the revisions and
how often each comes do not count. Its text is read back to the same vector, and more generally the
joined texts of revisions are read as the vector of the revisions: no comma stands in the text of a
revision.
-/

namespace VersionedTree

namespace RevisionVector

variable {l m : List Revision} {r x : Revision} {c : Nat} {v w : RevisionVector}

/-- Of the revisions of its cluster in the list none is later. -/
structure IsLatest (l : List Revision) (r : Revision) : Prop where
  mem : r ∈ l
  latest : ∀ s ∈ l, s.cluster = r.cluster → s ≤ r

theorem IsLatest.unique (hr : IsLatest l r) (hx : IsLatest l x) (h : r.cluster = x.cluster) :
    r = x :=
  Revision.le_antisymm (hx.latest r hr.mem h) (hr.latest x hx.mem h.symm)

theorem isLatest_congr (h : ∀ r, r ∈ l ↔ r ∈ m) : IsLatest l r ↔ IsLatest m r := by
  constructor
  · rintro ⟨mem, latest⟩
    exact ⟨(h r).1 mem, fun s hs => latest s ((h s).2 hs)⟩
  · rintro ⟨mem, latest⟩
    exact ⟨(h r).2 mem, fun s hs => latest s ((h s).1 hs)⟩

theorem IsLatest.append_of_ne (h : IsLatest l x) (hc : r.cluster ≠ x.cluster) :
    IsLatest (l ++ [r]) x := by
  refine ⟨List.mem_append_left _ h.mem, fun s hs hsx => ?_⟩
  rcases List.mem_append.1 hs with hs | hs
  · exact h.latest s hs hsx
  · exact absurd (List.mem_singleton.1 hs ▸ hsx) hc

theorem isLatest_append (h : ∀ s ∈ l, s.cluster = r.cluster → s ≤ r) :
    IsLatest (l ++ [r]) r := by
  refine ⟨by simp, fun s hs hsr => ?_⟩
  rcases List.mem_append.1 hs with hs | hs
  · exact h s hs hsr
  · rw [List.mem_singleton.1 hs]
    exact Revision.le_refl r

/-- One more revision is the latest unless the latest so far is above it. -/
theorem IsLatest.later {held : Revision} (h : IsLatest l held) (hc : held.cluster = r.cluster) :
    IsLatest (l ++ [r]) (later held r) := by
  rw [RevisionVector.later]
  split
  · rename_i hlt
    refine isLatest_append fun s hs hsr => ?_
    have hle : s ≤ held := h.latest s hs (hsr.trans hc.symm)
    exact Revision.lt_asymm (Revision.lt_of_le_of_lt hle hlt)
  · rename_i hle
    refine ⟨List.mem_append_left _ h.mem, fun s hs hsr => ?_⟩
    rcases List.mem_append.1 hs with hs | hs
    · exact h.latest s hs hsr
    · rw [List.mem_singleton.1 hs]
      exact hle

theorem get?_ofList_concat (l : List Revision) (r : Revision) (c : Nat) :
    (ofList (l ++ [r])).get? c =
      if c = r.cluster then some (((ofList l).get? c).elim r (RevisionVector.later · r))
      else (ofList l).get? c := by
  rw [ofList, List.foldl_concat, ← ofList, get?_add]

theorem get?_ofList_spec (l : List Revision) (c : Nat) :
    (∀ r, (ofList l).get? c = some r → IsLatest l r) ∧
      ((ofList l).get? c = none → ∀ s ∈ l, s.cluster ≠ c) := by
  induction l using List.reverseRecOn with
  | nil => exact ⟨fun r h => (nomatch h), fun _ s hs => (nomatch hs)⟩
  | append_singleton l a ih =>
    obtain ⟨latest, missing⟩ := ih
    rw [get?_ofList_concat]
    by_cases hc : c = a.cluster
    · rw [if_pos hc]
      refine ⟨fun r hr => ?_, fun h => (nomatch h)⟩
      obtain rfl := Option.some.inj hr
      cases hheld : (ofList l).get? c with
      | none =>
        exact isLatest_append fun s hs hsa => absurd (hsa.trans hc.symm) (missing hheld s hs)
      | some held => exact (latest held hheld).later ((cluster_of_get? hheld).trans hc)
    · rw [if_neg hc]
      refine ⟨fun r hr => ?_, fun hnone s hs => ?_⟩
      · have hcluster := cluster_of_get? hr
        exact (latest r hr).append_of_ne fun h => hc (hcluster.symm.trans h.symm)
      · rcases List.mem_append.1 hs with hs | hs
        · exact missing hnone s hs
        · rw [List.mem_singleton.1 hs]
          exact Ne.symm hc

/-- A vector made of revisions holds the latest one of each cluster. -/
theorem mem_ofList : r ∈ ofList l ↔ IsLatest l r := by
  obtain ⟨latest, missing⟩ := get?_ofList_spec l r.cluster
  constructor
  · exact latest r
  · intro hr
    cases hheld : (ofList l).get? r.cluster with
    | none => exact absurd rfl (missing hheld r hr.mem)
    | some held =>
      have hcluster := cluster_of_get? hheld
      rwa [(latest held hheld).unique hr hcluster] at hheld

theorem ofList_eq_iff : ofList l = ofList m ↔ ∀ r, IsLatest l r ↔ IsLatest m r := by
  constructor
  · intro h r
    rw [← mem_ofList, ← mem_ofList, h]
  · intro h
    exact ext_mem fun r => mem_ofList.trans ((h r).trans mem_ofList.symm)

theorem ofList_congr (h : ∀ r, r ∈ l ↔ r ∈ m) : ofList l = ofList m :=
  ofList_eq_iff.2 fun _ => isLatest_congr h

theorem ofList_revisions (v : RevisionVector) : ofList v.revisions = v := by
  refine ext_mem fun r => ?_
  rw [mem_ofList, mem_iff]
  constructor
  · exact IsLatest.mem
  · refine fun hr => ⟨hr, fun s hs hsr => ?_⟩
    rw [List.inj_on_of_nodup_map v.clusters_nodup hs hr hsr]
    exact Revision.le_refl r

/-! ## Reading a text -/

theorem splitOn_joined {rs : List Revision} (h : rs ≠ []) :
    (String.intercalate "," (rs.map Revision.text)).toList.splitOn ',' =
      rs.map fun r => r.text.toList := by
  rw [String.toList_intercalate, List.map_map]
  refine List.splitOn_intercalate ',' ?_ (by simpa using h)
  intro part hpart
  obtain ⟨r, _, rfl⟩ := List.mem_map.1 hpart
  exact r.not_mem_text (by decide) (by decide) (by decide)

theorem joined_ne_empty {rs : List Revision} (h : rs ≠ []) :
    String.intercalate "," (rs.map Revision.text) ≠ "" := by
  intro hempty
  have hsplit := splitOn_joined h
  rw [hempty] at hsplit
  obtain ⟨r, rest, rfl⟩ := List.exists_cons_of_ne_nil h
  have hfirst : [] = r.text.toList := (List.cons.inj hsplit).1
  rw [Revision.toList_text] at hfirst
  cases hfirst

theorem mapM_ofText (rs : List Revision) :
    (rs.map fun r : Revision => r.text.toList).mapM
      (fun part => Revision.ofText (String.ofList part)) = .ok rs := by
  have hpart (r : Revision) : Revision.ofText (String.ofList r.text.toList) = pure r := by
    rw [String.ofList_toList]
    exact r.ofText_text
  rw [List.mapM_map]
  simp only [Function.comp_def, hpart]
  exact (List.mapM_pure (f := id)).trans (congrArg _ (List.map_id _))

/-- The joined texts of revisions are read as the vector of the revisions. -/
theorem ofText_joined (rs : List Revision) :
    ofText (String.intercalate "," (rs.map Revision.text)) = .ok (ofList rs) := by
  by_cases h : rs = []
  · rw [h]
    rfl
  · rw [ofText, String.isEmpty_eq_false_iff.2 (joined_ne_empty h), splitOn_joined h, mapM_ofText]
    rfl

theorem ofText_text (v : RevisionVector) : ofText v.text = .ok v :=
  (ofText_joined v.revisions).trans (congrArg Except.ok v.ofList_revisions)

/-- A vector made of revisions is told by the latest of each cluster, in whatever order they come
and however often. Its text is read back, so that vectors are equal just if their texts are, and
the joined texts of any revisions are read as the vector of the revisions. -/
theorem text_canonical :
    (∀ (l : List Revision) (r : Revision), r ∈ ofList l ↔ IsLatest l r) ∧
    (∀ l m : List Revision, ofList l = ofList m ↔ ∀ r, IsLatest l r ↔ IsLatest m r) ∧
    (∀ l m : List Revision, (∀ r, r ∈ l ↔ r ∈ m) → ofList l = ofList m) ∧
    (∀ v : RevisionVector, ofText v.text = .ok v) ∧
    (∀ v w : RevisionVector, v = w ↔ v.text = w.text) ∧
    ∀ rs : List Revision,
      ofText (String.intercalate "," (rs.map Revision.text)) = .ok (ofList rs) := by
  refine ⟨fun l r => mem_ofList, fun l m => ofList_eq_iff, fun l m => ofList_congr, ofText_text,
    fun v w => ⟨congrArg text, fun h => ?_⟩, ofText_joined⟩
  have hread : ofText v.text = ofText w.text := congrArg ofText h
  rw [ofText_text, ofText_text] at hread
  exact Except.ok.inj hread

/-- Of two clusters that come in turns the later revisions are kept, and read back. -/
theorem text_canonical_of_repeated_revisions :
    let l : List Revision := [⟨3, 0, 2⟩, ⟨10, 0, 1⟩, ⟨2, 9, 2⟩, ⟨3, 0, 2⟩]
    let m : List Revision := [⟨10, 0, 1⟩, ⟨2, 9, 2⟩, ⟨3, 0, 2⟩]
    ofList l = ofList m ∧ ofText "ra-0-1,r2-9-2,r3-0-2" = .ok (ofList l) := by
  intro l m
  obtain ⟨_, _, hcongr, _, _, hread⟩ := text_canonical
  have hlm : ofList l = ofList m := hcongr l m (by simp [l, m])
  exact ⟨hlm, (hread m).trans (congrArg Except.ok hlm.symm)⟩

end RevisionVector

end VersionedTree
