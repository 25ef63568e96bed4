import VersionedTree.Document
import Mathlib.Data.List.Induction

/-! # The newest visible version

Looking for the newest version that a snapshot sees is a fold that keeps the first of the greatest
revision. Two neighbours of different revisions can change places in it, so that sorting the
history of a document does not matter: a document with one more version is read by one more step
of the fold.
-/

namespace VersionedTree

namespace Revision

theorem lt_of_lt_of_le {a b c : Revision} (hab : a < b) (hbc : ¬ c < b) : a < c := by
  rcases lt_trichotomy b c with h | rfl | h
  · exact lt_trans hab h
  · exact hab
  · exact absurd h hbc

theorem lt_of_le_of_lt {a b c : Revision} (hab : ¬ b < a) (hbc : b < c) : a < c := by
  rcases lt_trichotomy a b with h | rfl | h
  · exact lt_trans h hbc
  · exact hbc
  · exact absurd h hab

theorem le_trans {a b c : Revision} (hab : ¬ b < a) (hbc : ¬ c < b) : ¬ c < a :=
  fun h => hbc (lt_of_lt_of_le h hab)

theorem lt_asymm {a b : Revision} (h : a < b) : ¬ b < a := fun h' => lt_irrefl a (lt_trans h h')

theorem le_refl (a : Revision) : a ≤ a := lt_irrefl a

theorem le_antisymm {a b : Revision} (hab : a ≤ b) (hba : b ≤ a) : a = b := by
  rcases lt_trichotomy a b with h | h | h
  · exact absurd h hba
  · exact h
  · exact absurd h hab

end Revision

namespace Document

variable {v : RevisionVector}

theorem newer_of_unseen {c : Commit} (h : v.sees c.revision = false) (best : Option Commit) :
    newer v best c = best := by
  simp [newer, h]

theorem newer_none {c : Commit} (h : v.sees c.revision = true) : newer v none c = some c := by
  simp [newer, h]

theorem newer_some {c : Commit} (h : v.sees c.revision = true) (b : Commit) :
    newer v (some b) c = if b.revision < c.revision then some c else some b := by
  simp [newer, h]

theorem newer_comm {a b : Commit} (hab : a.revision < b.revision) (best : Option Commit) :
    newer v (newer v best a) b = newer v (newer v best b) a := by
  by_cases ha : v.sees a.revision = true
  · by_cases hb : v.sees b.revision = true
    · have hba : ¬ b.revision < a.revision := Revision.lt_asymm hab
      cases best with
      | none => rw [newer_none ha, newer_none hb, newer_some hb, newer_some ha, if_pos hab, if_neg hba]
      | some x =>
        rw [newer_some ha, newer_some hb]
        by_cases hxa : x.revision < a.revision
        · have hxb : x.revision < b.revision := Revision.lt_trans hxa hab
          rw [if_pos hxa, if_pos hxb, newer_some hb, newer_some ha, if_pos hab, if_neg hba]
        · rw [if_neg hxa, newer_some hb]
          by_cases hxb : x.revision < b.revision
          · rw [if_pos hxb, newer_some ha, if_neg hba]
          · rw [if_neg hxb, newer_some ha, if_neg hxa]
    · have hb : v.sees b.revision = false := by simpa using hb
      rw [newer_of_unseen hb, newer_of_unseen hb]
  · have ha : v.sees a.revision = false := by simpa using ha
    rw [newer_of_unseen ha, newer_of_unseen ha]

/-- The newest of these versions that a snapshot sees. -/
def newestAmong (v : RevisionVector) (versions : List Commit) : Option Commit :=
  versions.foldl (newer v) none

theorem newestVisible_eq (d : Document) (v : RevisionVector) :
    d.newestVisible v = newestAmong v d.commits := rfl

@[simp] theorem newestAmong_nil : newestAmong v [] = none := rfl

theorem newestAmong_append (l m : List Commit) :
    newestAmong v (l ++ m) = m.foldl (newer v) (newestAmong v l) := List.foldl_append

theorem newestAmong_concat (l : List Commit) (c : Commit) :
    newestAmong v (l ++ [c]) = newer v (newestAmong v l) c := newestAmong_append l [c]

theorem foldl_newer_of_unseen {l : List Commit} (h : ∀ c ∈ l, v.sees c.revision = false)
    (best : Option Commit) : l.foldl (newer v) best = best := by
  induction l generalizing best with
  | nil => rfl
  | cons c l ih =>
    rw [List.foldl_cons, newer_of_unseen (h c List.mem_cons_self)]
    exact ih (fun x hx => h x (List.mem_cons_of_mem c hx)) best

theorem newestAmong_spec (l : List Commit) :
    (∀ c, newestAmong v l = some c →
      c ∈ l ∧ v.sees c.revision = true ∧
        ∀ x ∈ l, v.sees x.revision = true → ¬ c.revision < x.revision) ∧
    (newestAmong v l = none → ∀ x ∈ l, v.sees x.revision = false) := by
  induction l using List.reverseRecOn with
  | nil => simp
  | append_singleton l a ih =>
    obtain ⟨ihSome, ihNone⟩ := ih
    rw [newestAmong_concat]
    by_cases ha : v.sees a.revision = true
    · cases hl : newestAmong v l with
      | none =>
        have unseen := ihNone hl
        rw [newer_none ha]
        refine ⟨?_, fun h => by cases h⟩
        rintro c ⟨rfl⟩
        refine ⟨by simp, ha, fun x hx hs => ?_⟩
        rcases List.mem_append.1 hx with hx | hx
        · rw [unseen x hx] at hs
          cases hs
        · rw [List.mem_singleton.1 hx]
          exact Revision.lt_irrefl _
      | some b =>
        obtain ⟨hb, hs, hmax⟩ := ihSome b hl
        rw [newer_some ha]
        refine ⟨?_, fun h => by split at h <;> cases h⟩
        intro c hc
        by_cases hba : b.revision < a.revision
        · rw [if_pos hba] at hc
          cases hc
          refine ⟨by simp, ha, fun x hx hxs => ?_⟩
          rcases List.mem_append.1 hx with hx | hx
          · exact fun h => hmax x hx hxs (Revision.lt_trans hba h)
          · rw [List.mem_singleton.1 hx]
            exact Revision.lt_irrefl _
        · rw [if_neg hba] at hc
          cases hc
          refine ⟨List.mem_append_left _ hb, hs, fun x hx hxs => ?_⟩
          rcases List.mem_append.1 hx with hx | hx
          · exact hmax x hx hxs
          · rw [List.mem_singleton.1 hx]
            exact hba
    · have ha : v.sees a.revision = false := by simpa using ha
      rw [newer_of_unseen ha]
      refine ⟨fun c hc => ?_, fun h x hx => ?_⟩
      · obtain ⟨hm, hs, hmax⟩ := ihSome c hc
        refine ⟨List.mem_append_left _ hm, hs, fun x hx hxs => ?_⟩
        rcases List.mem_append.1 hx with hx | hx
        · exact hmax x hx hxs
        · rw [List.mem_singleton.1 hx, ha] at hxs
          cases hxs
      · rcases List.mem_append.1 hx with hx | hx
        · exact ihNone h x hx
        · rw [List.mem_singleton.1 hx]
          exact ha

/-! ## Sorting a history -/

/-- In ascending order of revisions, equal ones next to each other. -/
def Ascending (l : List Commit) : Prop := l.Pairwise fun a b => ¬ b.revision < a.revision

theorem foldl_newer_comm {c : Commit} {l : List Commit} (h : ∀ x ∈ l, c.revision < x.revision)
    (best : Option Commit) :
    l.foldl (newer v) (newer v best c) = newer v (l.foldl (newer v) best) c := by
  induction l generalizing best with
  | nil => rfl
  | cons a l ih =>
    rw [List.foldl_cons, List.foldl_cons, newer_comm (h a List.mem_cons_self)]
    exact ih (fun x hx => h x (List.mem_cons_of_mem a hx)) _

theorem ascending_insertStable {c : Commit} {l : List Commit} (h : Ascending l) :
    Ascending (insertStable (fun a b => a.revision < b.revision) c l) := by
  have hlt (a b : Commit) : decide (a.revision < b.revision) = false ↔ ¬ a.revision < b.revision :=
    decide_eq_false_iff_not
  have hsorted : (insertStable (fun a b : Commit => a.revision < b.revision) c l).Pairwise
      fun a b => decide (b.revision < a.revision) = false := by
    refine pairwise_insertStable (fun a b hab => ?_) (fun a b x hba hxb => ?_)
      (h.imp fun {a b} => (hlt b a).2)
    · exact (hlt b a).2 (Revision.lt_asymm (of_decide_eq_true hab))
    · exact (hlt x a).2 (Revision.le_trans ((hlt b a).1 hba) ((hlt x b).1 hxb))
  exact hsorted.imp fun {a b} => (hlt b a).1

theorem foldl_newer_insertStable {c : Commit} {l : List Commit} (h : Ascending l)
    (best : Option Commit) :
    (insertStable (fun a b => a.revision < b.revision) c l).foldl (newer v) best =
      newer v (l.foldl (newer v) best) c := by
  induction l generalizing best with
  | nil => rfl
  | cons a l ih =>
    obtain ⟨above, tail⟩ := List.pairwise_cons.1 h
    rw [insertStable]
    split
    · rename_i hca
      have hca : c.revision < a.revision := by simpa using hca
      rw [List.foldl_cons]
      refine foldl_newer_comm (fun x hx => ?_) best
      rcases List.mem_cons.1 hx with rfl | hx
      · exact hca
      · exact Revision.lt_of_lt_of_le hca (above x hx)
    · exact ih tail _

theorem foldl_newer_sortStable (l : List Commit) :
    newestAmong v (sortStable (fun a b => a.revision < b.revision) l) = newestAmong v l ∧
      Ascending (sortStable (fun a b => a.revision < b.revision) l) := by
  induction l using List.reverseRecOn with
  | nil => exact ⟨rfl, .nil⟩
  | append_singleton l c ih =>
    obtain ⟨same, ascending⟩ := ih
    have hsort : sortStable (fun a b : Commit => a.revision < b.revision) (l ++ [c]) =
        insertStable (fun a b => a.revision < b.revision) c
          (sortStable (fun a b => a.revision < b.revision) l) := List.foldl_append
    rw [hsort, newestAmong_concat, ← same]
    exact ⟨foldl_newer_insertStable ascending none, ascending_insertStable ascending⟩

theorem newestVisible_withCommit (d : Document) (c : Commit) (m : Option Modified)
    (v : RevisionVector) :
    (d.withCommit c m).newestVisible v = newer v (d.newestVisible v) c :=
  (foldl_newer_sortStable (d.commits ++ [c])).1.trans (newestAmong_concat d.commits c)

theorem resolve_withCommit_of_unseen (d : Document) {c : Commit} (m : Option Modified)
    (h : v.sees c.revision = false) : (d.withCommit c m).resolve v = d.resolve v := by
  rw [resolve, newestVisible_withCommit, newer_of_unseen h, resolve]

theorem mem_commits_withCommit {d : Document} {c x : Commit} {m : Option Modified} :
    x ∈ (d.withCommit c m).commits ↔ x ∈ d.commits ∨ x = c := by
  rw [withCommit, (sortStable_perm _ _).mem_iff, List.mem_append, List.mem_singleton]

@[simp] theorem withCommit_id (d : Document) (c : Commit) (m : Option Modified) :
    (d.withCommit c m).id = d.id := rfl

@[simp] theorem withCommit_path (d : Document) (c : Commit) (m : Option Modified) :
    (d.withCommit c m).path = d.path := rfl

@[simp] theorem withCommit_split (d : Document) (c : Commit) (m : Option Modified) :
    (d.withCommit c m).split = d.split := rfl

end Document

end VersionedTree
