import VersionedTree.Proofs.Clients

/-! # The journal of a workspace

The journal is the writer together with the revisions that, by the log, were written. Commits and
removals are all that changes it. A write that succeeds takes the next tick of the clock and becomes
what the head holds; one that fails only moves the clock.
-/

namespace VersionedTree

/-- The revision whose writing an event reports. -/
def Event.written? : Event → Option Revision
  | commitApplied _ revision _ => some revision
  | _ => none

structure Journal where
  writer : Writer
  /-- The revisions that were written, oldest first. -/
  written : List Revision

namespace Journal

variable {j : Journal}

def wrote (j : Journal) (x : Revision) : Journal where
  writer := { j.writer with clock := j.writer.clock + 1, head := j.writer.head.update x }
  written := j.written ++ [x]

def ticked (j : Journal) : Journal :=
  { j with writer := { j.writer with clock := j.writer.clock + 1 } }

/-- The revision is the writer's at the next tick of its clock. -/
def IsNext (j : Journal) (x : Revision) : Prop :=
  (x.cluster : Int) = j.writer.cluster ∧ x.timestamp = j.writer.clock + 1

/-- The revisions were written by this writer, each after the ones before it, and the head holds the
last of them and nothing else. -/
structure Faithful (j : Journal) : Prop where
  own : ∀ x ∈ j.written, (x.cluster : Int) = j.writer.cluster
  past : ∀ x ∈ j.written, x.timestamp ≤ j.writer.clock
  ascending : j.written.Pairwise (· < ·)
  head_eq : j.writer.head.revisions = j.written.getLast?.toList

theorem Faithful.newer (h : j.Faithful) {x : Revision} (hx : j.IsNext x) :
    ∀ y ∈ j.written, y < x := by
  intro y hy
  have hy := h.past y hy
  have hx := hx.2
  rw [Revision.lt_def]
  omega

theorem Faithful.ticked (h : j.Faithful) : j.ticked.Faithful :=
  ⟨h.own, fun x hx => Nat.le_succ_of_le (h.past x hx), h.ascending, h.head_eq⟩

theorem Faithful.wrote (h : j.Faithful) {x : Revision} (hx : j.IsNext x) :
    (j.wrote x).Faithful where
  own y hy := by
    rcases List.mem_append.1 hy with hy | hy
    · exact h.own y hy
    · rw [List.mem_singleton.1 hy]
      exact hx.1
  past y hy := by
    show y.timestamp ≤ j.writer.clock + 1
    rcases List.mem_append.1 hy with hy | hy
    · exact Nat.le_succ_of_le (h.past y hy)
    · rw [List.mem_singleton.1 hy]
      exact Nat.le_of_eq hx.2
  ascending := by
    apply List.pairwise_append.2
    refine ⟨h.ascending, List.pairwise_singleton _ _, fun y hy z hz => ?_⟩
    rw [List.mem_singleton.1 hz]
    exact h.newer hx y hy
  head_eq := by
    have hlast : (j.written ++ [x]).getLast? = some x := by simp
    show RevisionVector.place (fun _ new => new) x j.writer.head.revisions =
      (j.written ++ [x]).getLast?.toList
    rw [hlast, h.head_eq]
    cases hheld : j.written.getLast? with
    | none => rfl
    | some y =>
      -- the head holds a revision of the same cluster, which makes room
      have hcluster : x.cluster = y.cluster := by
        have hy := h.own y (List.mem_of_getLast? hheld)
        have hx := hx.1
        omega
      show RevisionVector.place (fun _ new => new) x [y] = [x]
      simp [RevisionVector.place, hcluster]

end Journal

namespace Workspace

variable {υ α : Type} {w : Workspace υ}

def journal (w : Workspace υ) : Journal := ⟨w.repository.writer, w.log.filterMap Event.written?⟩

/-- What a write does to the journal, given its answer. -/
inductive Entered (j : Journal) : Except Failure Revision → Journal → Prop where
  | wrote (x : Revision) (hx : j.IsNext x) : Entered j (.ok x) (j.wrote x)
  | ticked (e : Failure) : Entered j (.error e) j.ticked

section

variable (w : Workspace υ) (path : String) (properties : Option Properties) (bundled : Bundle)
  (modified : Option Modified) (deletion : Bool)

/-- What commits and removals do: they write a version and report it. -/
def write : Action (Workspace υ) Revision := do
  let revision ← onRepository (Repository.writeVersion path properties bundled modified)
  note (.commitApplied path revision deletion)
  pure revision

variable {w path properties bundled modified}

theorem write_of_ok {x : Revision} {r : Repository}
    (h : Repository.writeVersion path properties bundled modified w.repository = (.ok x, r)) :
    write path properties bundled modified deletion w =
      (.ok x, noted (.commitApplied path x deletion) { w with repository := r }) := by
  simp only [write, onRepository, Action.bind_apply, Action.zoom, h]
  rfl

theorem write_of_error {e : Failure} {r : Repository}
    (h : Repository.writeVersion path properties bundled modified w.repository = (.error e, r)) :
    write path properties bundled modified deletion w = (.error e, { w with repository := r }) := by
  simp only [write, onRepository, Action.bind_apply, Action.zoom, h]

variable (w path properties bundled modified)

theorem entered_write :
    Entered w.journal (write path properties bundled modified deletion w).1
      (write path properties bundled modified deletion w).2.journal := by
  rcases Repository.cluster_nat_or_negative w.repository.writer with ⟨n, hn⟩ | hn
  · cases ha : w.repository.store.available with
    | true =>
      rw [write_of_ok deletion
        (Repository.writeVersion_of_available path properties bundled modified hn ha)]
      have hjournal (x : Revision) (s : DocumentStore) :
          (noted (.commitApplied path x deletion) { w with
            repository :=
              { store := s
                writer := { w.repository.writer with
                  clock := w.repository.writer.clock + 1
                  head := w.repository.writer.head.update x } } }).journal =
            w.journal.wrote x := by
        simp [journal, noted, Journal.wrote, Event.written?]
      rw [hjournal]
      exact .wrote _ ⟨hn.symm, rfl⟩
    | false =>
      rw [write_of_error deletion
        (Repository.writeVersion_of_unavailable path properties bundled modified hn ha)]
      exact .ticked _
  · obtain ⟨e, he⟩ := Repository.writeVersion_of_negative path properties bundled modified hn
    rw [write_of_error deletion he]
    exact .ticked e

end

theorem entered_commit (w : Workspace υ) (path : String) (properties : Properties)
    (bundled : Bundle) (modified : Option Modified) :
    Entered w.journal (commit path properties bundled modified w).1
      (commit path properties bundled modified w).2.journal :=
  entered_write w path (some properties) bundled modified false

theorem entered_remove (w : Workspace υ) (path : String) (modified : Option Modified) :
    Entered w.journal (remove path modified w).1 (remove path modified w).2.journal :=
  entered_write w path none .empty modified true

theorem journal_onStore (x : Action DocumentStore α) (w : Workspace υ) :
    (onStore x w).2.journal = w.journal := rfl

theorem writer_onStore (x : Action DocumentStore α) (writer : Writer) :
    Action.Maintains (fun r => r.writer = writer) (Repository.onStore x) := fun _ h => h

theorem journal_onRepository {x : Action Repository α}
    (hx : ∀ writer, Action.Maintains (fun r => r.writer = writer) x) (w : Workspace υ) :
    (onRepository x w).2.journal = w.journal := by
  have hwriter : (x w.repository).2.writer = w.repository.writer := hx _ w.repository rfl
  show Journal.mk (x w.repository).2.writer (w.log.filterMap Event.written?) = w.journal
  rw [hwriter]
  rfl

theorem journal_addPrevious (w : Workspace υ) (path : String) (height : Int)
    (modified : Option Modified) (split : SplitKind) :
    (onRepository (Repository.addPrevious path height modified split) w).2.journal = w.journal :=
  journal_onRepository (fun writer => Repository.maintains_addPrevious
    (fun _ => writer_onStore _ writer) (fun _ => writer_onStore _ writer) path height modified
    split) w

theorem journal_node (w : Workspace υ) (path : String) (v : RevisionVector) :
    (node path v w).2.journal = w.journal :=
  journal_onRepository (fun writer => Repository.maintains_node
    (fun _ => writer_onStore _ writer) path v) w

theorem journal_openCursor (w : Workspace υ) (range : TimeRange) :
    (openCursor range w).2.journal = w.journal := by
  cases hscan : w.store.scannable range with
  | error e => rw [openCursor_of_error hscan]
  | ok items =>
    rw [openCursor_of_ok hscan]
    simp [journal, cursorOpened, Event.written?]

theorem journal_released (r : Release) (w : Workspace υ) : (released r w).journal = w.journal := by
  rw [released]
  split <;> rfl

theorem journal_closeCursor (w : Workspace υ) (n : Nat) :
    (closeCursor n w).2.journal = w.journal := by
  have hfold (releases : List Release) (w : Workspace υ) :
      (releases.foldl (fun w r => released r w) w).journal = w.journal := by
    induction releases generalizing w with
    | nil => rfl
    | cons r releases ih =>
      rw [List.foldl_cons, ih]
      exact journal_released r w
  simp only [closeCursor, Action.bind_apply, Action.get_apply, Action.modify_apply]
  cases Cursor.outcome (w.cursor n).close.1 <;> exact hfold _ _

section

variable {P : Journal → Prop}

theorem maintains_of_journal {x : Action (Workspace υ) α} (h : ∀ w, (x w).2.journal = w.journal) :
    Action.Maintains (fun w => P w.journal) x := by
  intro w hw
  rwa [h w]

theorem Entered.keeps {j j' : Journal} {result : Except Failure Revision}
    (h : Entered j result j') (hwrote : ∀ j x, P j → j.IsNext x → P (j.wrote x))
    (hticked : ∀ j, P j → P j.ticked) (hj : P j) : P j' := by
  cases h with
  | wrote x hx => exact hwrote j x hj hx
  | ticked e => exact hticked j hj

/-- What holds of the journal is kept by clients, if writing and ticking keep it. -/
theorem invariant_journal (hwrote : ∀ j x, P j → j.IsNext x → P (j.wrote x))
    (hticked : ∀ j, P j → P j.ticked) : Invariant fun w : Workspace υ => P w.journal where
  request r := by
    cases r with
    | write d => exact (maintains_of_journal (journal_onStore _)).map _
    | delete id => exact (maintains_of_journal (journal_onStore _)).map _
    | find id => exact (maintains_of_journal (journal_onStore _)).map _
    | estimatedSize range =>
      exact Action.maintains_get.bind fun w => (Action.maintains_ofExcept _).map _
    | setAvailable available => exact (maintains_of_journal (journal_onStore _)).map _
    | commit path properties bundled modified =>
      have hcommit : Action.Maintains (fun w : Workspace υ => P w.journal)
          (commit path properties bundled modified) :=
        fun w => (entered_commit w path properties bundled modified).keeps hwrote hticked
      exact hcommit.map _
    | remove path modified =>
      have hremove : Action.Maintains (fun w : Workspace υ => P w.journal) (remove path modified) :=
        fun w => (entered_remove w path modified).keeps hwrote hticked
      exact hremove.map _
    | addPrevious path height modified split =>
      exact (maintains_of_journal fun w => journal_addPrevious w _ _ _ _).map _
    | node path v => exact (maintains_of_journal fun w => journal_node w path v).map _
  replace _ _ := maintains_of_journal (journal_onStore _)
  record _ _ h := h
  opening range := maintains_of_journal fun w => journal_openCursor w range
  available := maintains_of_journal (journal_onStore _)
  remember _ := maintains_of_journal (journal_onStore _)
  close n := maintains_of_journal fun w => journal_closeCursor w n

end

theorem invariant_faithful : Invariant fun w : Workspace υ => w.journal.Faithful :=
  invariant_journal (fun _ _ h hx => h.wrote hx) fun _ h => h.ticked

/-- The journal only grows. -/
theorem invariant_written (earlier : List Revision) :
    Invariant fun w : Workspace υ => earlier <+: w.journal.written :=
  invariant_journal (P := fun j => earlier <+: j.written)
    (fun _ _ h _ => h.trans (List.prefix_append _ _)) fun _ h => h

end Workspace

namespace Client

variable {υ : Type}

theorem faithful_start (store : DocumentStore) (cluster : Int) (caller : υ) :
    (start store cluster caller).workspace.journal.Faithful where
  own x hx := by cases hx
  past x hx := by cases hx
  ascending := .nil
  head_eq := rfl

theorem faithful_run (store : DocumentStore) (cluster : Int) (caller : υ)
    (operations : List (Operation υ)) :
    ((start store cluster caller).run operations).2.workspace.journal.Faithful :=
  Workspace.invariant_faithful.run (faithful_start store cluster caller) operations

end Client

end VersionedTree
