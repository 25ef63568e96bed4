import VersionedTree.Proofs.Versions
import Mathlib.Data.List.Nodup

/-! # What a snapshot resolves to

The version that a snapshot finds is told by the versions as a set: it is the visible one of the
greatest revision, so the order of the history does not count as long as no two revisions are
equal. Where two are equal the first of them counts, and so one more version is found only if it
is above all that were visible before.
-/

namespace VersionedTree

namespace Document

variable {v : RevisionVector} {l m : List Commit} {c : Commit}

/-- Of the versions that a snapshot sees, one of the greatest revision. -/
structure IsNewest (v : RevisionVector) (versions : List Commit) (c : Commit) : Prop where
  mem : c ∈ versions
  seen : v.sees c.revision = true
  newest : ∀ x ∈ versions, v.sees x.revision = true → x.revision ≤ c.revision

/-- A snapshot sees the version, and none of these is visible and as new. -/
def Supersedes (v : RevisionVector) (c : Commit) (versions : List Commit) : Prop :=
  v.sees c.revision = true ∧ ∀ x ∈ versions, v.sees x.revision = true → x.revision < c.revision

instance (v : RevisionVector) (c : Commit) (versions : List Commit) :
    Decidable (Supersedes v c versions) :=
  inferInstanceAs (Decidable (_ ∧ _))

theorem IsNewest.revision_eq {a b : Commit} (ha : IsNewest v l a) (hb : IsNewest v l b) :
    a.revision = b.revision := by
  rcases Revision.lt_trichotomy a.revision b.revision with h | h | h
  · exact absurd h (ha.newest b hb.mem hb.seen)
  · exact h
  · exact absurd h (hb.newest a ha.mem ha.seen)

theorem IsNewest.unique (distinct : (l.map Commit.revision).Nodup) {a b : Commit}
    (ha : IsNewest v l a) (hb : IsNewest v l b) : a = b :=
  List.inj_on_of_nodup_map distinct ha.mem hb.mem (ha.revision_eq hb)

theorem isNewest_congr (h : l.Perm m) : IsNewest v l c ↔ IsNewest v m c := by
  constructor
  · rintro ⟨mem, seen, newest⟩
    exact ⟨h.mem_iff.1 mem, seen, fun x hx => newest x (h.mem_iff.2 hx)⟩
  · rintro ⟨mem, seen, newest⟩
    exact ⟨h.mem_iff.2 mem, seen, fun x hx => newest x (h.mem_iff.1 hx)⟩

theorem isNewest_of_newestAmong (h : newestAmong v l = some c) : IsNewest v l c := by
  obtain ⟨mem, seen, newest⟩ := (newestAmong_spec l).1 c h
  exact ⟨mem, seen, newest⟩

theorem newestAmong_eq_none_iff :
    newestAmong v l = none ↔ ∀ x ∈ l, v.sees x.revision = false := by
  constructor
  · exact (newestAmong_spec l).2
  · exact fun unseen => foldl_newer_of_unseen unseen none

theorem newestAmong_eq_some_iff (distinct : (l.map Commit.revision).Nodup) :
    newestAmong v l = some c ↔ IsNewest v l c := by
  constructor
  · exact isNewest_of_newestAmong
  · intro hc
    cases found : newestAmong v l with
    | none =>
      have unseen := newestAmong_eq_none_iff.1 found c hc.mem
      simp [hc.seen] at unseen
    | some b => rw [(isNewest_of_newestAmong found).unique distinct hc]

theorem newestAmong_perm (distinct : (l.map Commit.revision).Nodup) (h : m.Perm l) :
    newestAmong v m = newestAmong v l := by
  have distinct' : (m.map Commit.revision).Nodup := (h.map _).nodup_iff.2 distinct
  apply Option.ext
  intro c
  rw [newestAmong_eq_some_iff distinct', newestAmong_eq_some_iff distinct, isNewest_congr h]

/-- The comparison with the newest one so far is a comparison with all visible ones. -/
theorem newer_newestAmong (l : List Commit) (c : Commit) :
    newer v (newestAmong v l) c = if Supersedes v c l then some c else newestAmong v l := by
  by_cases seen : v.sees c.revision = true
  · cases found : newestAmong v l with
    | none =>
      have unseen := newestAmong_eq_none_iff.1 found
      have above : Supersedes v c l := ⟨seen, fun x hx hs => by simp [unseen x hx] at hs⟩
      rw [newer_none seen, if_pos above]
    | some b =>
      have hb := isNewest_of_newestAmong found
      rw [newer_some seen]
      by_cases h : b.revision < c.revision
      · have above : Supersedes v c l :=
          ⟨seen, fun x hx hs => Revision.lt_of_le_of_lt (hb.newest x hx hs) h⟩
        rw [if_pos h, if_pos above]
      · rw [if_neg h, if_neg fun above => h (above.2 b hb.mem hb.seen)]
  · have unseen : v.sees c.revision = false := by simpa using seen
    rw [newer_of_unseen unseen, if_neg fun above => seen above.1]

theorem resolve_eq_some_iff {d : Document} (distinct : (d.commits.map Commit.revision).Nodup) :
    d.resolve v = some c ↔ IsNewest v d.commits c ∧ c.isDeletion = false := by
  rw [resolve, Option.filter_eq_some_iff, newestVisible_eq, newestAmong_eq_some_iff distinct]
  simp

theorem resolve_eq_none_iff {d : Document} (distinct : (d.commits.map Commit.revision).Nodup) :
    d.resolve v = none ↔ (∀ c ∈ d.commits, v.sees c.revision = false) ∨
      ∃ c, IsNewest v d.commits c ∧ c.isDeletion = true := by
  simp only [resolve, newestVisible_eq, ← newestAmong_eq_some_iff distinct,
    ← newestAmong_eq_none_iff]
  cases newestAmong v d.commits <;> simp

theorem resolve_perm {d e : Document} (distinct : (d.commits.map Commit.revision).Nodup)
    (h : e.commits.Perm d.commits) : e.resolve v = d.resolve v := by
  rw [resolve, resolve, newestVisible_eq, newestVisible_eq, newestAmong_perm distinct h]

theorem resolve_withCommit (d : Document) (c : Commit) (modified : Option Modified) :
    (d.withCommit c modified).resolve v =
      if Supersedes v c d.commits then (if c.isDeletion then none else some c)
      else d.resolve v := by
  rw [resolve, newestVisible_withCommit, newestVisible_eq, newer_newestAmong]
  split
  · cases hc : c.isDeletion <;> simp [hc]
  · rfl

/-! ## Versions of one revision -/

/-- In a sorted history a new version comes behind all of its own revision. -/
theorem filter_insertStable (h : Ascending l) (r : Revision) :
    (insertStable (fun a b => a.revision < b.revision) c l).filter (·.revision = r) =
      (l ++ [c]).filter (·.revision = r) := by
  induction l with
  | nil => rfl
  | cons a l ih =>
    obtain ⟨above, tail⟩ := List.pairwise_cons.1 h
    rw [insertStable]
    split
    · rename_i hca
      have hca : c.revision < a.revision := by simpa using hca
      by_cases hr : c.revision = r
      · -- none of the versions behind it has its revision
        have none_left : (a :: l).filter (·.revision = r) = [] := by
          rw [List.filter_eq_nil_iff]
          intro x hx
          have hcx : c.revision < x.revision := by
            rcases List.mem_cons.1 hx with rfl | hx
            · exact hca
            · exact Revision.lt_of_lt_of_le hca (above x hx)
          rw [decide_eq_true_eq, ← hr]
          exact fun e => Revision.lt_irrefl _ (e ▸ hcx)
        rw [List.filter_append, List.filter_cons, none_left]
        simp [hr]
      · simp [List.filter_cons, hr]
    · rw [List.cons_append, List.filter_cons, List.filter_cons, ih tail]

theorem filter_sortStable (l : List Commit) (r : Revision) :
    (sortStable (fun a b => a.revision < b.revision) l).filter (·.revision = r) =
      l.filter (·.revision = r) := by
  induction l using List.reverseRecOn with
  | nil => rfl
  | append_singleton l c ih =>
    rw [sortStable, List.foldl_append]
    exact (filter_insertStable (foldl_newer_sortStable (v := default) l).2 r).trans
      (by rw [List.filter_append, List.filter_append]; exact congrArg (· ++ _) ih)

/-- What a document keeps when it gets one more version: every version there was, in the order of
the revisions, those of one revision in the order they came in. -/
structure Extends (d e : Document) (c : Commit) : Prop where
  keeps : e.commits.Perm (d.commits ++ [c])
  ascending : Ascending e.commits
  inTurn : ∀ r, e.commits.filter (·.revision = r) = (d.commits ++ [c]).filter (·.revision = r)

theorem extends_withCommit (d : Document) (c : Commit) (modified : Option Modified) :
    d.Extends (d.withCommit c modified) c where
  keeps := sortStable_perm _ _
  ascending := (foldl_newer_sortStable (v := default) (d.commits ++ [c])).2
  inTurn := filter_sortStable (d.commits ++ [c])

/-- Of distinct revisions the greatest visible one counts, in whatever order the versions stand;
of any revisions, a version that is added counts if it is above all visible ones, and else what
was found before is found. -/
theorem resolution (d : Document) (v : RevisionVector) :
    ((d.commits.map Commit.revision).Nodup →
      (∀ c, d.resolve v = some c ↔ IsNewest v d.commits c ∧ c.isDeletion = false) ∧
      (d.resolve v = none ↔ (∀ c ∈ d.commits, v.sees c.revision = false) ∨
        ∃ c, IsNewest v d.commits c ∧ c.isDeletion = true) ∧
      ∀ e : Document, e.commits.Perm d.commits → e.resolve v = d.resolve v) ∧
    ∀ (c : Commit) (modified : Option Modified),
      ((d.withCommit c modified).resolve v =
        if Supersedes v c d.commits then (if c.isDeletion then none else some c)
        else d.resolve v) ∧
      d.Extends (d.withCommit c modified) c := by
  constructor
  · intro distinct
    refine ⟨fun c => resolve_eq_some_iff distinct, resolve_eq_none_iff distinct, ?_⟩
    intro e h
    exact resolve_perm distinct h
  · intro c modified
    exact ⟨resolve_withCommit d c modified, extends_withCommit d c modified⟩

/-- A removal by another cluster hides an older version, in whatever order they stand; what the
snapshot does not see plays no part. -/
theorem resolution_removed :
    ([⟨5, 0, 1⟩, ⟨3, 0, 2⟩, ⟨2, 0, 1⟩] : List Revision).Nodup ∧
    ∀ e : Document,
      e.commits.Perm [⟨⟨5, 0, 1⟩, some [], .empty⟩, ⟨⟨3, 0, 2⟩, none, .empty⟩,
        ⟨⟨2, 0, 1⟩, some [], .empty⟩] →
      e.resolve ⟨[⟨4, 0, 1⟩, ⟨6, 0, 2⟩], by decide⟩ = none := by
  have distinct : ([⟨5, 0, 1⟩, ⟨3, 0, 2⟩, ⟨2, 0, 1⟩] : List Revision).Nodup := by decide
  refine ⟨distinct, fun e h => ?_⟩
  exact ((resolution
    { id := "0:/", path := "/"
      commits := [⟨⟨5, 0, 1⟩, some [], .empty⟩, ⟨⟨3, 0, 2⟩, none, .empty⟩,
        ⟨⟨2, 0, 1⟩, some [], .empty⟩] }
    ⟨[⟨4, 0, 1⟩, ⟨6, 0, 2⟩], by decide⟩).1 distinct).2.2 e h

end Document

end VersionedTree
