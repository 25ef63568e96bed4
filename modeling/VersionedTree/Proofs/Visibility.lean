import VersionedTree.Proofs.Versions
import Mathlib.Data.List.Nodup

/-! # What a vector sees

A vector is told by the revision that it holds for each cluster, and that by the revisions it sees:
those of the cluster up to the one held. So a vector is not newer than another if the other sees
all that it sees, and this orders vectors partially. Replacing the revision of one cluster leaves
the others alone.
-/

namespace VersionedTree

namespace RevisionVector

variable {v w : RevisionVector} {r s x : Revision} {c : Nat}

/-! ## The revision held for a cluster -/

theorem clusters_nodup (v : RevisionVector) : v.clusters.Nodup :=
  List.pairwise_map.2 (v.sorted.imp Nat.ne_of_lt)

theorem cluster_of_get? (h : v.get? c = some r) : r.cluster = c := by
  simpa using List.find?_some (p := fun r : Revision => r.cluster == c) h

theorem get?_eq_some_iff : v.get? c = some r ↔ r ∈ v.revisions ∧ r.cluster = c := by
  constructor
  · exact fun h => ⟨List.mem_of_find?_eq_some h, cluster_of_get? h⟩
  · rintro ⟨hmem, rfl⟩
    cases hget : v.get? r.cluster with
    | none => simpa using List.find?_eq_none.1 hget r hmem
    | some held =>
      have hheld := List.mem_of_find?_eq_some hget
      rw [List.inj_on_of_nodup_map v.clusters_nodup hheld hmem (cluster_of_get? hget)]

theorem mem_iff : r ∈ v ↔ r ∈ v.revisions :=
  get?_eq_some_iff.trans (and_iff_left rfl)

/-- Vectors that hold the same revisions are equal. -/
theorem ext_mem (h : ∀ r, r ∈ v ↔ r ∈ w) : v = w := by
  have hnodup (u : RevisionVector) : u.revisions.Nodup := u.clusters_nodup.of_map _
  have hperm : v.revisions.Perm w.revisions := by
    rw [List.perm_ext_iff_of_nodup (hnodup v) (hnodup w)]
    exact fun r => mem_iff.symm.trans ((h r).trans mem_iff)
  refine RevisionVector.ext (List.Perm.eq_of_pairwise ?_ v.sorted w.sorted hperm)
  intro r s _ _ hrs hsr
  exact absurd hrs (Nat.lt_asymm hsr)

theorem ext_get? (h : ∀ c, v.get? c = w.get? c) : v = w := by
  refine ext_mem fun r => ?_
  show v.get? r.cluster = some r ↔ w.get? r.cluster = some r
  rw [h]

theorem find?_cons (held : Revision) (rest : List Revision) (c : Nat) :
    (held :: rest).find? (·.cluster == c) =
      if held.cluster = c then some held else rest.find? (·.cluster == c) := by
  rw [List.find?_cons]
  by_cases h : held.cluster = c
  · simp [h]
  · rw [if_neg h, beq_false_of_ne h]

section Placing

variable {merge : Revision → Revision → Revision} {l : List Revision}
  (hm : ∀ held, held.cluster = r.cluster → (merge held r).cluster = r.cluster)

include hm

theorem find?_place_of_ne (hc : r.cluster ≠ c) :
    (place merge r l).find? (·.cluster == c) = l.find? (·.cluster == c) := by
  induction l with
  | nil => rw [place, find?_cons, if_neg hc]
  | cons held rest ih =>
    rw [place]
    split
    · rw [find?_cons r, if_neg hc]
    · split
      · rename_i heq
        have hmerged : (merge held r).cluster ≠ c := by rwa [hm held heq.symm]
        rw [find?_cons, if_neg hmerged, find?_cons, if_neg (heq ▸ hc)]
      · rw [find?_cons, find?_cons, ih]

theorem find?_place_self (h : l.Pairwise fun a b => a.cluster < b.cluster) :
    (place merge r l).find? (·.cluster == r.cluster) =
      some ((l.find? (·.cluster == r.cluster)).elim r (merge · r)) := by
  induction l with
  | nil => rw [place, find?_cons, if_pos rfl, List.find?_nil, Option.elim]
  | cons held rest ih =>
    obtain ⟨above, tail⟩ := List.pairwise_cons.1 h
    rw [place]
    split
    · rename_i hlt
      -- `r` goes in front, and the clusters behind it are all above its own
      have hnone : (held :: rest).find? (·.cluster == r.cluster) = none := by
        rw [List.find?_eq_none]
        intro x hx
        have hle : held.cluster ≤ x.cluster := by
          rcases List.mem_cons.1 hx with rfl | hx
          · exact Nat.le_refl _
          · exact Nat.le_of_lt (above x hx)
        simpa using Nat.ne_of_gt (Nat.lt_of_lt_of_le hlt hle)
      rw [hnone, find?_cons, if_pos rfl, Option.elim]
    · split
      · rename_i heq
        rw [find?_cons, if_pos (hm held heq.symm), find?_cons, if_pos heq.symm, Option.elim]
      · rename_i hne
        rw [find?_cons, if_neg (Ne.symm hne), find?_cons, if_neg (Ne.symm hne)]
        exact ih tail

end Placing

theorem get?_update (v : RevisionVector) (r : Revision) (c : Nat) :
    (v.update r).get? c = if c = r.cluster then some r else v.get? c := by
  by_cases hc : c = r.cluster
  · rw [if_pos hc, hc]
    refine (find?_place_self (fun _ _ => rfl) v.sorted).trans (congrArg some ?_)
    cases v.revisions.find? (·.cluster == r.cluster) <;> rfl
  · rw [if_neg hc]
    exact find?_place_of_ne (fun _ _ => rfl) (Ne.symm hc)

theorem get?_add (v : RevisionVector) (r : Revision) (c : Nat) :
    (v.add r).get? c =
      if c = r.cluster then some ((v.get? c).elim r (later · r)) else v.get? c := by
  by_cases hc : c = r.cluster
  · rw [if_pos hc, hc]
    exact find?_place_self (fun _ h => later_cluster h) v.sorted
  · rw [if_neg hc]
    exact find?_place_of_ne (fun _ h => later_cluster h) (Ne.symm hc)

/-! ## Visible revisions -/

theorem sees_iff : v.sees r = true ↔ ∃ own, v.get? r.cluster = some own ∧ r ≤ own := by
  rw [sees]
  cases v.get? r.cluster <;> simp

theorem sees_of_le (h : v.sees r = true) (hcluster : x.cluster = r.cluster) (hle : x ≤ r) :
    v.sees x = true := by
  obtain ⟨own, hown, hr⟩ := sees_iff.1 h
  rw [← hcluster] at hown
  exact sees_iff.2 ⟨own, hown, Revision.le_trans hle hr⟩

theorem sees_of_mem (h : r ∈ v) : v.sees r = true :=
  sees_iff.2 ⟨r, h, Revision.le_refl r⟩

/-- Not newer than another one is the vector whose own revisions the other sees. -/
theorem isNewer_eq_false_iff : v.isNewer w = false ↔ ∀ r ∈ v, w.sees r = true := by
  simp only [isNewer, List.any_eq_false, mem_iff, sees]
  refine forall₂_congr fun r _ => ?_
  cases w.get? r.cluster <;> simp [Revision.le_def]

/-- What holds of the revisions a vector holds, holds of those it sees. -/
theorem isNewer_eq_false_iff_sees :
    v.isNewer w = false ↔ ∀ r, v.sees r = true → w.sees r = true := by
  rw [isNewer_eq_false_iff]
  constructor
  · intro h r hr
    obtain ⟨own, hown, hle⟩ := sees_iff.1 hr
    have hcluster := cluster_of_get? hown
    have hmem : own ∈ v := mem_iff.2 (get?_eq_some_iff.1 hown).1
    exact sees_of_le (h own hmem) hcluster.symm hle
  · exact fun h r hr => h r (sees_of_mem hr)

theorem exists_get?_of_sees (h : ∀ r, v.sees r = true → w.sees r = true)
    (hr : v.get? c = some r) : ∃ s, w.get? c = some s ∧ r ≤ s := by
  obtain rfl := cluster_of_get? hr
  exact sees_iff.1 (h r (sees_of_mem hr))

/-- A vector is told by what it sees. -/
theorem ext_sees (hvw : ∀ r, v.sees r = true → w.sees r = true)
    (hwv : ∀ r, w.sees r = true → v.sees r = true) : v = w := by
  refine ext_get? fun c => ?_
  cases hv : v.get? c with
  | none =>
    cases hw : w.get? c with
    | none => rfl
    | some s =>
      obtain ⟨r, hr, _⟩ := exists_get?_of_sees hwv hw
      rw [hv] at hr
      cases hr
  | some r =>
    obtain ⟨s, hs, hrs⟩ := exists_get?_of_sees hvw hv
    obtain ⟨r', hr', hsr⟩ := exists_get?_of_sees hwv hs
    rw [hv] at hr'
    cases hr'
    rw [hs, Revision.le_antisymm hrs hsr]

theorem sees_update (v : RevisionVector) (r x : Revision) :
    (v.update r).sees x = if x.cluster = r.cluster then decide (x ≤ r) else v.sees x := by
  rw [sees, get?_update]
  by_cases h : x.cluster = r.cluster
  · rw [if_pos h, if_pos h]
  · rw [if_neg h, if_neg h, sees]

theorem update_comm (h : r.cluster ≠ s.cluster) :
    (v.update r).update s = (v.update s).update r := by
  refine ext_get? fun c => ?_
  simp only [get?_update]
  by_cases hs : c = s.cluster
  · rw [if_pos hs, if_neg (hs ▸ Ne.symm h), if_pos hs]
  · rw [if_neg hs, if_neg hs]

theorem update_update (h : r.cluster = s.cluster) : (v.update r).update s = v.update s := by
  refine ext_get? fun c => ?_
  simp only [get?_update, h]
  split <;> rfl

/-- A vector is not newer than another just if the other sees all that it sees. This is a partial
order, in which the vectors that see the same are equal. Replacing a revision decides what is seen
of its cluster alone: replacements for two clusters change places, and of two for one cluster the
last one counts. -/
theorem ordered_by_visibility :
    (∀ v w : RevisionVector,
      v.isNewer w = false ↔ ∀ r, v.sees r = true → w.sees r = true) ∧
    (∀ v : RevisionVector, v.isNewer v = false) ∧
    (∀ u v w : RevisionVector,
      u.isNewer v = false → v.isNewer w = false → u.isNewer w = false) ∧
    (∀ v w : RevisionVector,
      (v.isNewer w = false ∧ w.isNewer v = false ↔ v = w) ∧
        (v = w ↔ ∀ r, v.sees r = w.sees r)) ∧
    ∀ (v : RevisionVector) (r : Revision),
      (∀ x, (v.update r).sees x = if x.cluster = r.cluster then decide (x ≤ r) else v.sees x) ∧
      (∀ s, r.cluster ≠ s.cluster → (v.update r).update s = (v.update s).update r) ∧
      ∀ s, r.cluster = s.cluster → (v.update r).update s = v.update s := by
  refine ⟨fun v w => isNewer_eq_false_iff_sees, ?_, ?_, ?_, ?_⟩
  · intro v
    exact isNewer_eq_false_iff_sees.2 fun r hr => hr
  · intro u v w huv hvw
    rw [isNewer_eq_false_iff_sees] at huv hvw ⊢
    exact fun r hr => hvw r (huv r hr)
  · intro v w
    rw [isNewer_eq_false_iff_sees, isNewer_eq_false_iff_sees]
    constructor
    · constructor
      · rintro ⟨hvw, hwv⟩
        exact ext_sees hvw hwv
      · rintro rfl
        exact ⟨fun r hr => hr, fun r hr => hr⟩
    · constructor
      · rintro rfl r
        rfl
      · intro h
        exact ext_sees (fun r hr => h r ▸ hr) fun r hr => (h r).symm ▸ hr
  · intro v r
    exact ⟨sees_update v r, fun s h => update_comm h, fun s h => update_update h⟩

/-- A vector that lacks a cluster sees less than one that has it, and an older revision replaces a
newer one as well. -/
theorem ordered_by_visibility_of_missing_cluster :
    let v : RevisionVector := ⟨[⟨4, 0, 1⟩], by decide⟩
    let w : RevisionVector := ⟨[⟨4, 0, 1⟩, ⟨2, 7, 2⟩], by decide⟩
    (v.isNewer w = false ∧ ∀ r, v.sees r = true → w.sees r = true) ∧
      (v.update ⟨3, 0, 1⟩).update ⟨2, 7, 2⟩ = (v.update ⟨2, 7, 2⟩).update ⟨3, 0, 1⟩ ∧
      (w.update ⟨5, 0, 2⟩).update ⟨1, 0, 2⟩ = w.update ⟨1, 0, 2⟩ := by
  intro v w
  obtain ⟨hincluded, _, _, _, hupdate⟩ := ordered_by_visibility
  have hvw : v.isNewer w = false := by decide
  refine ⟨⟨hvw, (hincluded v w).1 hvw⟩, ?_, ?_⟩
  · exact (hupdate v ⟨3, 0, 1⟩).2.1 ⟨2, 7, 2⟩ (by decide)
  · exact (hupdate w ⟨5, 0, 2⟩).2.2 ⟨1, 0, 2⟩ rfl

end RevisionVector

end VersionedTree
