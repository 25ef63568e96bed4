import VersionedTree.Proofs.Histories
import VersionedTree.Proofs.Scans

/-! # Scans are isolated from writes

A repository is later than another one for a snapshot when it came from it by reads and by writes
that the snapshot cannot see. What a scan at the snapshot has still to deliver then stays as it was.
A scan that is yet to be opened may find other modification times, and documents that were not
there before: those have nothing to deliver.
-/

namespace VersionedTree

theorem Catalog.flatMap_place {β : Type} {f : Stored → Yield β} {s : Stored} {l : List Stored}
    (hsorted : l.Pairwise fun a b => a.id < b.id) (hsame : ∀ x ∈ l, x.id = s.id → f s = f x)
    (hnew : (∀ x ∈ l, x.id ≠ s.id) → f s = {}) :
    Yield.flatMap f (place s l) = Yield.flatMap f l := by
  induction l with
  | nil =>
    rw [place, Yield.flatMap_cons, hnew fun x hx => by cases hx]
    rfl
  | cons y l ih =>
    obtain ⟨above, tail⟩ := List.pairwise_cons.1 hsorted
    rw [place]
    split
    · rename_i hlt
      have habove (x : Stored) (hx : x ∈ y :: l) : s.id < x.id := by
        rcases List.mem_cons.1 hx with rfl | hx
        · exact hlt
        · exact String.lt_trans hlt (above x hx)
      have hempty : f s = {} := by
        apply hnew
        intro x hx heq
        have hx := habove x hx
        rw [heq] at hx
        exact String.lt_irrefl _ hx
      rw [Yield.flatMap_cons, hempty, Yield.empty_append]
    · split
      · rename_i heq
        rw [Yield.flatMap_cons, Yield.flatMap_cons, hsame y List.mem_cons_self heq.symm]
      · rename_i hne
        rw [Yield.flatMap_cons, Yield.flatMap_cons]
        rw [ih tail (fun x hx => hsame x (List.mem_cons_of_mem y hx))]
        intro hl
        apply hnew
        intro x hx
        rcases List.mem_cons.1 hx with rfl | hx
        · exact fun h => hne h.symm
        · exact hl x hx

namespace DocumentStore

variable {s : DocumentStore} {v : RevisionVector} {accepts : String → Bool}

/-- What a traversal of all documents yields. -/
def fullYield (s : DocumentStore) (v : RevisionVector) (accepts : String → Bool) : Yield Entry :=
  s.yields v accepts s.catalog.items

theorem Agrees.fullYield {s' : DocumentStore} (h : s.Agrees s') (v : RevisionVector)
    (accepts : String → Bool) : s'.fullYield v accepts = s.fullYield v accepts := by
  rw [DocumentStore.fullYield, h.yields, h.catalog]
  rfl

theorem yieldOf_congr {s' : DocumentStore} {item : Stored}
    (h : s'.nodeAt item.document.path v = s.nodeAt item.document.path v ∨
      item.document.IsSplitOff) :
    s'.yieldOf v accepts item = s.yieldOf v accepts item := by
  rcases h with hnode | hsplit
  · rw [yieldOf, yieldOf, hnode]
  · have hsplit : item.document.isSplit = true := hsplit.isSplit
    rw [yieldOf_of_isSplit hsplit, yieldOf_of_isSplit hsplit]

theorem map_seen_yieldOf {a b : Stored} (hsplit : a.document.split = b.document.split)
    (hpath : a.document.path = b.document.path) :
    (s.yieldOf v accepts a).map Entry.seen = (s.yieldOf v accepts b).map Entry.seen := by
  have hisSplit : a.document.isSplit = b.document.isSplit := by
    rw [Document.isSplit, Document.isSplit, hsplit]
  rw [yieldOf, yieldOf, hisSplit, hpath]
  split
  · cases s.nodeAt b.document.path v with
    | error e => rfl
    | ok n =>
      cases n with
      | none => rfl
      | some n =>
        have hseen (m : Option Modified) : Entry.seen ∘ Entry.ofState m = fun n => (n.path, n) := rfl
        simp only [yieldOfNode, unfolded, Yield.map, List.map_map, hseen]
  · rfl

end DocumentStore

namespace Repository

variable {r r' r'' : Repository} {v : RevisionVector}

/-- The repository came from another one by reads and by writes that the snapshot cannot see. -/
structure Later (v : RevisionVector) (r r' : Repository) : Prop where
  kept : r.Kept → r'.Kept
  behind : v.Behind r.writer → v.Behind r'.writer
  issued : ∀ item, r.store.Issued item → r'.store.Issued item
  nodeAt : v.Behind r.writer → ∀ p, Path.isAbsolute p = true → r.store.Owns p →
    r'.store.Owns p ∧ r'.store.nodeAt p v = r.store.nodeAt p v
  seen : r.Kept → v.Behind r.writer → ∀ accepts,
    (r'.store.fullYield v accepts).map Entry.seen = (r.store.fullYield v accepts).map Entry.seen

theorem Later.trans (h : Later v r r') (h' : Later v r' r'') : Later v r r'' where
  kept hk := h'.kept (h.kept hk)
  behind hv := h'.behind (h.behind hv)
  issued item hi := h'.issued item (h.issued item hi)
  nodeAt hv p hp ho := by
    obtain ⟨ho', hnode⟩ := h.nodeAt hv p hp ho
    obtain ⟨ho'', hnode'⟩ := h'.nodeAt (h.behind hv) p hp ho'
    exact ⟨ho'', hnode'.trans hnode⟩
  seen hk hv accepts :=
    (h'.seen (h.kept hk) (h.behind hv) accepts).trans (h.seen hk hv accepts)

theorem Agrees.later (h : r.Agrees r') (v : RevisionVector) : Later v r r' where
  kept := h.kept
  behind hv := by rwa [h.2]
  issued _ hi := h.1.issued hi
  nodeAt _ p _ ho := ⟨h.1.owns ho, h.1.nodeAt p v⟩
  seen _ _ accepts := by rw [h.1.fullYield]

theorem yieldOf_of_fresh {s : DocumentStore} {item : Stored} (accepts : String → Bool)
    (hpath : s.stored? (DocumentId.ofPath item.document.path) = some item.document)
    (hnone : item.document.stateAt v = none) : s.yieldOf v accepts item = {} := by
  rw [DocumentStore.yieldOf, DocumentStore.nodeAt_of_stored hpath rfl, hnone]
  split
  · rfl
  · rfl

/-- A version that the snapshot cannot see changes nothing of what is seen of the documents. -/
theorem flatMap_seen_version (hk : r.store.Arranged) {x : Version}
    (hx : Path.isAbsolute x.path = true) (hunseen : v.sees x.revision = false)
    (accepts : String → Bool) :
    let s := r.store.written (x.onto (r.store.stored? x.id))
    Yield.flatMap (fun y => (s.yieldOf v accepts y).map Entry.seen) s.catalog.items =
      Yield.flatMap (fun y => (s.yieldOf v accepts y).map Entry.seen) r.store.catalog.items := by
  intro s
  apply Catalog.flatMap_place r.store.catalog.sorted
  · intro y hy hid
    have hid : y.id = x.id := hid.trans (onto_id r x)
    have hstored : r.store.stored? x.id = some y.document := by
      rw [← hid]
      exact DocumentStore.stored?_of_mem hy
    apply DocumentStore.map_seen_yieldOf
    · simp only [Version.onto, hstored, Option.getD_some, Document.withCommit_split]
    · simp only [Version.onto, hstored, Option.getD_some, Document.withCommit_path]
  · intro hfresh
    have hstored : r.store.stored? x.id = none := by
      rw [DocumentStore.stored?, Catalog.find?_eq_none_iff.2]
      · rfl
      · intro y hy hid
        exact hfresh y hy (hid.trans (onto_id r x).symm)
    have honto : x.onto (r.store.stored? x.id) =
        (Document.forPath x.path).withCommit x.commit (some x.modified) := by
      rw [hstored]
      rfl
    rw [yieldOf_of_fresh]
    · rfl
    · show DocumentStore.stored? _ (DocumentId.ofPath (x.onto (r.store.stored? x.id)).path) = _
      rw [(isMain_onto hk hx).id_eq.symm]
      exact DocumentStore.stored?_written_self _ _
    · show (x.onto (r.store.stored? x.id)).stateAt v = none
      rw [honto, Document.stateAt_withCommit_of_unseen _ _ hunseen]
      exact Document.stateAt_forPath _ _

/-- A document that was split off yields nothing, nor does one of its id that it replaces. -/
theorem flatMap_seen_splitOff {s : DocumentStore} (hs : s.Arranged) {d : Document}
    (hd : d.IsSplitOff) (accepts : String → Bool) :
    Yield.flatMap (fun y => ((s.written d).yieldOf v accepts y).map Entry.seen)
        (s.written d).catalog.items =
      Yield.flatMap (fun y => ((s.written d).yieldOf v accepts y).map Entry.seen)
        s.catalog.items := by
  have hempty {item : Stored} (h : item.document.IsSplitOff) :
      ((s.written d).yieldOf v accepts item).map Entry.seen = {} := by
    rw [DocumentStore.yieldOf_of_isSplit h.isSplit]
    rfl
  apply Catalog.flatMap_place s.catalog.sorted
  · intro y hy hid
    rcases hs y hy with hmain | hsplit
    · have hprevious : DocumentId.isPrevious d.id = true := hd.previous
      have hid : d.id = DocumentId.ofPath y.document.path := hid.symm.trans hmain.id_eq
      rw [hid, DocumentId.isPrevious_ofPath hmain.absolute] at hprevious
      cases hprevious
    · rw [hempty hd, hempty hsplit]
  · intro _
    exact hempty hd

/-- Writes that the snapshot cannot see leave the paths and states of a full traversal. -/
theorem Step.seen {call : WriteCall} {result : Except Failure (Option Revision)}
    (h : Step r call result r') (hk : r.Kept) (hv : v.Behind r.writer) (hcall : call.Admissible)
    (accepts : String → Bool) :
    (r'.store.fullYield v accepts).map Entry.seen =
      (r.store.fullYield v accepts).map Entry.seen := by
  have hold : Yield.flatMap (fun x => (r'.store.yieldOf v accepts x).map Entry.seen)
        r.store.catalog.items =
      Yield.flatMap (fun x => (r.store.yieldOf v accepts x).map Entry.seen)
        r.store.catalog.items := by
    apply Yield.flatMap_congr
    intro item hitem
    rw [DocumentStore.yieldOf_congr]
    exact (hk.arranged item hitem).imp_left fun hmain =>
      (h.nodeAt hv hmain.absolute (DocumentStore.owns_of_mem hitem hmain)).2
  rw [DocumentStore.fullYield, DocumentStore.yields, Yield.map_flatMap,
    DocumentStore.fullYield, DocumentStore.yields, Yield.map_flatMap, ← hold]
  cases h with
  | version n x hcluster hrevision hversion ha =>
    have hx : Path.isAbsolute x.path = true := by
      rw [path_of_version? hversion]
      exact hcall.isAbsolute
    exact flatMap_seen_version hk.arranged hx
      (RevisionVector.sees_of_behind hv hcluster hrevision) accepts
  | previous s path height modified split revision hs heq =>
    subst heq
    have hsplit : Document.IsSplitOff
        { id := DocumentId.previous path revision height, path, modified, split
          commits := ((r.store.stored? (DocumentId.ofPath path)).map Document.commits).getD [] } :=
      ⟨hcall.2, DocumentId.isPrevious_previous path revision height⟩
    have hseen := flatMap_seen_splitOff (v := v) (hs.arranged hk.arranged) hsplit accepts
    have hcatalog : s.catalog = r.store.catalog := hs.catalog
    rw [hcatalog] at hseen
    exact hseen
  | refused e s clock hs => rw [hs.catalog]

theorem Step.later {call : WriteCall} {result : Except Failure (Option Revision)}
    (h : Step r call result r') (hcall : call.Admissible) (v : RevisionVector) : Later v r r' where
  kept hk := h.kept hk hcall
  behind := h.behind
  issued _ := h.issued
  nodeAt hv _ := h.nodeAt hv
  seen hk hv := h.seen hk hv hcall

end Repository

/-! ## Calls and answers -/

namespace WriteCall

variable {υ : Type}

/-- Makes the call in a workspace. -/
def make : WriteCall → Action (Workspace υ) Unit
  | commit path properties bundled modified => do
    let _ ← Workspace.commit path properties bundled modified
  | remove path modified => do
    let _ ← Workspace.remove path modified
  | addPrevious path height modified split => do
    let _ ← Workspace.onRepository (Repository.addPrevious path height modified split)

/-- Makes calls one after the other, whatever becomes of each. -/
def makeAll : List WriteCall → Action (Workspace υ) Unit
  | [] => pure ()
  | call :: rest => do
    let _ ← Action.attempt call.make
    makeAll rest

theorem make_eq (call : WriteCall) (w : Workspace υ) :
    ∃ result log, call.make w =
      (result, { w with repository := (call.perform w.repository).2, log }) := by
  cases call with
  | commit path properties bundled modified =>
    simp only [make, perform, Workspace.commit, Workspace.onRepository, Action.bind_apply,
      Action.zoom, Action.map_apply]
    rcases Repository.commit path properties bundled modified w.repository with ⟨e | r, r'⟩
    · exact ⟨_, _, rfl⟩
    · exact ⟨_, _, rfl⟩
  | remove path modified =>
    simp only [make, perform, Workspace.remove, Workspace.onRepository, Action.bind_apply,
      Action.zoom, Action.map_apply]
    rcases Repository.remove path modified w.repository with ⟨e | r, r'⟩
    · exact ⟨_, _, rfl⟩
    · exact ⟨_, _, rfl⟩
  | addPrevious path height modified split =>
    simp only [make, perform, Workspace.onRepository, Action.bind_apply, Action.zoom,
      Action.map_apply]
    rcases Repository.addPrevious path height modified split w.repository with ⟨e | d, r'⟩
    · exact ⟨_, _, rfl⟩
    · exact ⟨_, _, rfl⟩

theorem makeAll_eq (calls : List WriteCall) (w : Workspace υ) :
    ∃ log, makeAll calls w =
      (.ok (), { w with repository := (performAll calls w.repository).2, log }) := by
  induction calls generalizing w with
  | nil => exact ⟨w.log, rfl⟩
  | cons call calls ih =>
    obtain ⟨result, log, hmake⟩ := call.make_eq w
    rw [makeAll, Action.bind_apply, Action.attempt, hmake]
    exact ih _

end WriteCall

namespace Workspace

variable {υ : Type} {report : String → υ → υ} {w w' w'' : Workspace υ} {v : RevisionVector}
  {quiet : Prop}

/-- The workspace came from another one by reads and by writes that the snapshot cannot see; if it
was quiet meanwhile, by reads alone. -/
structure Later (v : RevisionVector) (quiet : Prop) (w w' : Workspace υ) : Prop where
  repository : w.repository.Later v w'.repository
  cursors : w.cursors <+: w'.cursors
  configs : w'.traversers.map TraverserState.config = w.traversers.map TraverserState.config
  unwritten : quiet → w.store.Agrees w'.store

theorem Later.trans (h : w.Later v quiet w') (h' : w'.Later v quiet w'') : w.Later v quiet w'' :=
  ⟨h.repository.trans h'.repository, h.cursors.trans h'.cursors, h'.configs.trans h.configs,
    fun hq => (h.unwritten hq).trans (h'.unwritten hq)⟩

instance : Trans (@Later υ v quiet) (@Later υ v quiet) (@Later υ v quiet) := ⟨Later.trans⟩

theorem Reads.later (h : w.Reads report w') : w.Later v quiet w' :=
  ⟨h.repository.later v, h.cursors, h.configs, fun _ => h.store⟩

theorem Later.refl (w : Workspace υ) : w.Later v quiet w :=
  ⟨(Repository.Agrees.refl w.repository).later v, List.prefix_refl _, rfl, fun _ => .refl _⟩

theorem Later.seen (h : w.Later v quiet w') (hk : w.repository.Kept)
    (hv : v.Behind w.repository.writer) (accepts : String → Bool) :
    (w'.store.fullYield v accepts).map Entry.seen = (w.store.fullYield v accepts).map Entry.seen :=
  h.repository.seen hk hv accepts

theorem ends_make (hk : w.repository.Kept) {call : WriteCall} (hcall : call.Admissible)
    (hquiet : ¬ quiet) : ∃ result, Action.Ends (Later v quiet) call.make w result := by
  obtain ⟨result, log, hmake⟩ := call.make_eq w
  refine ⟨result, _, hmake, ?_, List.prefix_refl _, rfl, fun h => absurd h hquiet⟩
  exact (Repository.step_perform hk.sound call).later hcall v

theorem ends_makeAll (hk : w.repository.Kept) {calls : List WriteCall}
    (hcalls : ∀ call ∈ calls, call.Admissible ∧ ¬ quiet) :
    Action.Ends (Later v quiet) (WriteCall.makeAll calls) w (.ok ()) := by
  induction calls generalizing w with
  | nil => exact Action.ends_pure (.refl w) ()
  | cons call calls ih =>
    obtain ⟨hcall, hquiet⟩ := hcalls call List.mem_cons_self
    obtain ⟨result, hmake⟩ := ends_make (v := v) hk hcall hquiet
    refine hmake.attempt.bind_ok fun w₁ h₁ => ?_
    exact ih (h₁.repository.kept hk) fun x hx => hcalls x (List.mem_cons_of_mem call hx)

end Workspace

namespace Yield

variable {α β : Type}

/-- The answers to asking so many times for what is yielded; the end and a failure are told once. -/
def answers : Nat → Yield α → List (Except Failure (Option α))
  | 0, _ => []
  | n + 1, ⟨a :: rest, failure⟩ => .ok (some a) :: answers n ⟨rest, failure⟩
  | _ + 1, ⟨[], some e⟩ => [.error e]
  | _ + 1, ⟨[], none⟩ => [.ok none]

theorem answers_map (f : α → β) (n : Nat) (y : Yield α) :
    (y.map f).answers n = (y.answers n).map (Except.map (Option.map f)) := by
  induction n generalizing y with
  | zero => rfl
  | succ n ih =>
    obtain ⟨items, failure⟩ := y
    cases items with
    | cons a rest =>
      rw [answers, List.map_cons, ← ih]
      rfl
    | nil =>
      cases failure with
      | some e => rfl
      | none => rfl

end Yield

/-- What can happen between two iterations of a traverser. -/
inductive Turn where
  | calls (calls : List WriteCall)
  /-- An iteration that is asked for entries, with calls made before each time. -/
  | iteration (batches : List (List WriteCall))

namespace Turn

/-- All calls that are made. -/
def allCalls : Turn → List WriteCall
  | calls made => made
  | iteration batches => batches.flatten

end Turn

namespace Traverser

variable {υ : Type} {t : Traverser υ} {accepts : String → Bool} {report : String → υ → υ}
  {w w' : Workspace υ} {scan : Scan} {v : RevisionVector} {quiet : Prop}

/-- Asks an iteration for entries, with some calls made before each time, until it ends or fails. -/
def answers (t : Traverser υ) : List (List WriteCall) → Iteration →
    Action (Workspace υ) (List (Except Failure (Option Entry)))
  | [], _ => pure []
  | calls :: batches, it => do
    WriteCall.makeAll calls
    match ← Action.attempt (t.next it) with
    | .ok (some (e, it)) => return .ok (some e) :: (← t.answers batches it)
    | .ok none => pure [.ok none]
    | .error e => pure [.error e]

/-- Begins an iteration and asks it for entries. -/
def session (t : Traverser υ) (batches : List (List WriteCall)) :
    Action (Workspace υ) (List (Except Failure (Option Entry))) := do
  t.answers batches (.entering (← t.iterate))

/-- Goes through turns one after the other. -/
def run (t : Traverser υ) : List Turn → Action (Workspace υ) Unit
  | [] => pure ()
  | .calls calls :: turns => do
    WriteCall.makeAll calls
    t.run turns
  | .iteration batches :: turns => do
    let _ ← t.session batches
    t.run turns

theorem ready_later (hr : scan.Ready w) (h : w.Later v quiet w')
    (hv : v.Behind w.repository.writer) :
    scan.Ready w' := by
  refine ⟨hr.isOpen.mono h.cursors,
    fun item hitem => h.repository.issued item (hr.issued item hitem), hr.arranged,
    fun item hitem hmain => ?_⟩
  exact (h.repository.nodeAt hv _ hmain.absolute (hr.owns item hitem hmain)).1

/-- What a scan has still to deliver is not changed by writes that its snapshot cannot see. -/
theorem due_later (hr : scan.Ready w) (h : w.Later v quiet w') (hv : v.Behind w.repository.writer)
    (hsnapshot : scan.snapshot = v) (accepts : String → Bool) :
    scan.due w'.store accepts = scan.due w.store accepts := by
  have hyields : w'.store.yields v (allows accepts scan.hiddenRoots) scan.remaining =
      w.store.yields v (allows accepts scan.hiddenRoots) scan.remaining := by
    apply Yield.flatMap_congr
    intro item hitem
    apply DocumentStore.yieldOf_congr
    refine (hr.arranged item hitem).imp_left fun hmain => ?_
    exact (h.repository.nodeAt hv _ hmain.absolute (hr.owns item hitem hmain)).2
  rw [Scan.due, hsnapshot, hyields, Scan.due, hsnapshot]

/-- An iteration that takes the first entry off `y` answers as `y` does, if the scan that it goes on
with answers as what is due of it. -/
theorem ends_answers_of_takes {it : Iteration} {calls : List WriteCall}
    {batches : List (List WriteCall)} {y : Yield Entry} {result : Except Failure Step}
    {w₁ w₂ : Workspace υ} (hmake : WriteCall.makeAll calls w = (.ok (), w₁)) (h₁ : w.Later v quiet w₁)
    (hnext : t.next it w₁ = (result.map Step.entry?, w₂)) (h₂ : w₁.Reads report w₂)
    (htakes : Takes w₁.store accepts scan y result)
    (hrest : ∀ scan', scan.Continues scan' →
      Action.Ends (Workspace.Later v quiet) (t.answers batches (.scanning scan')) w₂
        (.ok ((scan'.due w₂.store accepts).answers batches.length))) :
    Action.Ends (Workspace.Later v quiet) (t.answers (calls :: batches) it) w
      (.ok (y.answers (batches.length + 1))) := by
  rw [answers]
  refine Action.ends_bind hmake h₁ ?_
  have hattempt : Action.attempt (t.next it) w₁ = (.ok (result.map Step.entry?), w₂) := by
    rw [Action.attempt, hnext]
  refine Action.ends_bind hattempt h₂.later ?_
  cases htakes with
  | entry e rest scan' hscan hdue =>
    have hdue₂ : scan'.due w₂.store accepts = rest := by
      rw [← hdue, Scan.due, h₂.store.yields, Scan.due]
    have hrest := hrest scan' hscan
    rw [hdue₂] at hrest
    exact hrest.bind_ok fun w₃ _ => Action.ends_pure (.refl w₃) _
  | failed e => exact Action.ends_pure (.refl w₂) _
  | finished => exact Action.ends_pure (.refl w₂) _

theorem ends_answers_scanning (ht : t.IsPlain accepts report) (hk : w.repository.Kept)
    (hv : v.Behind w.repository.writer) (hr : scan.Ready w) (hsnapshot : scan.snapshot = v)
    {batches : List (List WriteCall)} (hbatches : ∀ call ∈ batches.flatten, call.Admissible ∧ ¬ quiet) :
    Action.Ends (Workspace.Later v quiet) (t.answers batches (.scanning scan)) w
      (.ok ((scan.due w.store accepts).answers batches.length)) := by
  induction batches generalizing scan w with
  | nil => exact Action.ends_pure (.refl w) _
  | cons calls batches ih =>
    rw [List.flatten_cons] at hbatches
    obtain ⟨w₁, hmake, h₁⟩ := Workspace.ends_makeAll (v := v) hk fun call hcall =>
      hbatches call (List.mem_append_left _ hcall)
    have hk₁ : w₁.repository.Kept := h₁.repository.kept hk
    have hr₁ : scan.Ready w₁ := ready_later hr h₁ hv
    obtain ⟨result, ⟨w₂, hadvance, h₂⟩, htakes⟩ := ends_advanceScan ht hk₁ hr₁
    rw [due_later hr h₁ hv hsnapshot] at htakes
    have hnext : t.next (.scanning scan) w₁ = (result.map Step.entry?, w₂) := by
      have hadvance : t.advance false (.scanning scan) w₁ = (result, w₂) := hadvance
      rw [next_eq, hadvance]
    refine ends_answers_of_takes hmake h₁ hnext h₂ htakes fun scan' hscan => ?_
    exact ih (h₂.kept hk₁) ((h₁.trans h₂.later).repository.behind hv)
      (hscan.ready (hr₁.of_looks h₂.toLooks)) (hscan.snapshot.trans hsnapshot)
      fun call hcall => hbatches call (List.mem_append_right _ hcall)

/-- An iteration over the full range yields what there is to be yielded at its first step. -/
theorem ends_answers_entering (ht : t.IsPlain accepts report) (hrange : t.range = .all)
    (hk : w.repository.Kept) (hv : v.Behind w.repository.writer) (hpin : (t.state w).pin = .of v)
    {calls : List WriteCall} {batches : List (List WriteCall)}
    (hcalls : ∀ call ∈ (calls :: batches).flatten, call.Admissible ∧ ¬ quiet) (ticket : Nat) :
    ∃ w₁, WriteCall.makeAll calls w = (.ok (), w₁) ∧ w.Later v quiet w₁ ∧
      Action.Ends (Workspace.Later v quiet) (t.answers (calls :: batches) (.entering ticket)) w
        (.ok ((w₁.store.fullYield v (allows accepts (t.state w).hiddenRoots)).answers
          (batches.length + 1))) := by
  rw [List.flatten_cons] at hcalls
  obtain ⟨w₁, hmake, h₁⟩ := Workspace.ends_makeAll (v := v) hk fun call hcall =>
    hcalls call (List.mem_append_left _ hcall)
  refine ⟨w₁, hmake, h₁, ?_⟩
  have hk₁ : w₁.repository.Kept := h₁.repository.kept hk
  have hconfig : (t.state w₁).config = (t.state w).config := Workspace.map_traverser h₁.configs _
  have hpin₁ : (t.state w₁).pin = .of v := (congrArg Prod.fst hconfig).trans hpin
  have hroots : (t.state w₁).hiddenRoots = (t.state w).hiddenRoots := congrArg Prod.snd hconfig
  have htimes : w₁.store.requireTimes t.range = .ok () := by
    rw [hrange, DocumentStore.requireTimes_all]
  have hselect : w₁.store.select t.range = w₁.store.catalog.items := by
    rw [hrange, DocumentStore.select_all]
  obtain ⟨scan, w₂, h₂, hopened, hready, hadvance⟩ :=
    advance_entering ht hk₁ hpin₁ htimes ticket
  obtain ⟨result, ⟨w₃, hstep, h₃⟩, htakes⟩ := ends_advanceScan ht (h₂.kept hk₁) hready
  rw [hopened.due, hroots, hselect] at htakes
  have hnext : t.next (.entering ticket) w₁ = (result.map Step.entry?, w₃) := by
    rw [next_eq, hadvance, hstep]
  refine ends_answers_of_takes hmake h₁ hnext (h₂.trans h₃) (htakes.of_reads h₂)
    fun scan' hscan => ?_
  have h : w.Later v quiet w₃ := h₁.trans (h₂.trans h₃).later
  exact ends_answers_scanning ht (h.repository.kept hk) (h.repository.behind hv)
    (hscan.ready (hready.of_looks h₃.toLooks)) (hscan.snapshot.trans hopened.snapshot)
    fun call hcall => hcalls call (List.mem_append_right _ hcall)

/-- What a traversal of all documents that a traverser allows yields by now. -/
def fullYield (t : Traverser υ) (v : RevisionVector) (accepts : String → Bool)
    (w : Workspace υ) : Yield Entry :=
  w.store.fullYield v (allows accepts (t.state w).hiddenRoots)

theorem map_seen_fullYield (h : w.Later v quiet w') (hk : w.repository.Kept)
    (hv : v.Behind w.repository.writer) :
    (t.fullYield v accepts w').map Entry.seen = (t.fullYield v accepts w).map Entry.seen := by
  have hroots : (t.state w').hiddenRoots = (t.state w).hiddenRoots :=
    congrArg Prod.snd (Workspace.map_traverser h.configs _)
  rw [fullYield, fullYield, hroots]
  exact h.seen hk hv _

theorem fullYield_of_unwritten (h : w.Later v quiet w') (hquiet : quiet) :
    t.fullYield v accepts w' = t.fullYield v accepts w := by
  have hroots : (t.state w').hiddenRoots = (t.state w).hiddenRoots :=
    congrArg Prod.snd (Workspace.map_traverser h.configs _)
  rw [fullYield, fullYield, hroots]
  exact (h.unwritten hquiet).fullYield _ _

theorem ends_session (ht : t.IsPlain accepts report) (hrange : t.range = .all)
    (hk : w.repository.Kept) (hv : v.Behind w.repository.writer) (hpin : (t.state w).pin = .of v)
    {batches : List (List WriteCall)}
    (hbatches : ∀ call ∈ batches.flatten, call.Admissible ∧ ¬ quiet) :
    ∃ y : Yield Entry,
      Action.Ends (Workspace.Later v quiet) (t.session batches) w
        (.ok (y.answers batches.length)) ∧
      y.map Entry.seen = (t.fullYield v accepts w).map Entry.seen ∧
      (batches.head?.getD [] = [] → y = t.fullYield v accepts w) := by
  obtain ⟨w₁, hiterate, h₁⟩ := ends_iterate report t w
  have h₁' : w.Later v quiet w₁ := h₁.later
  have hpin₁ : (t.state w₁).pin = .of v := (pin_state h₁ t).trans hpin
  have hfull : t.fullYield v accepts w₁ = t.fullYield v accepts w :=
    fullYield_of_unwritten (show w.Later v True w₁ from h₁.later) trivial
  cases batches with
  | nil =>
    refine ⟨t.fullYield v accepts w, Action.ends_bind hiterate h₁' ?_, rfl, fun _ => rfl⟩
    exact Action.ends_pure (.refl w₁) _
  | cons calls batches =>
    obtain ⟨w₂, hmake, h₂, hanswers⟩ := ends_answers_entering ht hrange (h₁.kept hk)
      (h₁'.repository.behind hv) hpin₁ hbatches (t.state w).iterations
    have hroots : (t.state w₁).hiddenRoots = (t.state w₂).hiddenRoots :=
      (congrArg Prod.snd (Workspace.map_traverser h₂.configs _)).symm
    rw [hroots] at hanswers
    refine ⟨t.fullYield v accepts w₂, Action.ends_bind hiterate h₁' hanswers, ?_, ?_⟩
    · rw [map_seen_fullYield h₂ (h₁.kept hk) (h₁'.repository.behind hv), hfull]
    · intro hcalls
      have hcalls : calls = [] := hcalls
      subst hcalls
      have hw₂ : w₁ = w₂ := congrArg Prod.snd hmake
      rw [← hw₂, hfull]

theorem ends_run (ht : t.IsPlain accepts report) (hrange : t.range = .all)
    (hk : w.repository.Kept) (hv : v.Behind w.repository.writer) (hpin : (t.state w).pin = .of v)
    {turns : List Turn}
    (hturns : ∀ turn ∈ turns, ∀ call ∈ turn.allCalls, call.Admissible ∧ ¬ quiet) :
    Action.Ends (Workspace.Later v quiet) (t.run turns) w (.ok ()) := by
  induction turns generalizing w with
  | nil => exact Action.ends_pure (.refl w) ()
  | cons turn turns ih =>
    have hturn := hturns turn List.mem_cons_self
    have hrest (w₁ : Workspace υ) (h₁ : w.Later v quiet w₁) :
        Action.Ends (Workspace.Later v quiet) (t.run turns) w₁ (.ok ()) := by
      refine ih (h₁.repository.kept hk) (h₁.repository.behind hv) ?_
        fun x hx => hturns x (List.mem_cons_of_mem turn hx)
      exact (congrArg Prod.fst (Workspace.map_traverser h₁.configs _)).trans hpin
    cases turn with
    | calls made => exact (Workspace.ends_makeAll hk hturn).bind_ok hrest
    | iteration batches =>
      obtain ⟨y, hsession, _⟩ := ends_session ht hrange hk hv hpin hturn
      exact hsession.bind_ok hrest

end Traverser

/-! ## Isolation -/

namespace Repository

variable {r r' : Repository}

/-- The writer's clock has passed all that its head sees. -/
def Headed (r : Repository) : Prop := r.head.Behind r.writer

theorem Step.headed {call : WriteCall} {result : Except Failure (Option Revision)}
    (h : Step r call result r') (hr : r.Headed) : r'.Headed := by
  cases h with
  | version n x hcluster hrevision hversion ha =>
    intro own hown
    have hself := RevisionVector.held?_update_self r.writer.head x.revision
    have hx : r.writer.cluster = (x.revision.cluster : Int) := by
      rw [hcluster, hrevision]
    have hown : (r.writer.head.update x.revision).held? r.writer.cluster = some own := hown
    rw [hx, hself] at hown
    cases hown
    exact Nat.le_of_eq (congrArg Revision.timestamp hrevision)
  | previous => exact hr
  | refused e s clock hs hclock => exact hr.mono rfl hclock

theorem headed_of_empty (store : DocumentStore) (cluster : Int) :
    Headed ⟨store, { cluster }⟩ := by
  intro own hown
  have hnone : RevisionVector.empty.held? cluster = none := by
    rw [RevisionVector.held?]
    exact ite_self _
  have hown : RevisionVector.empty.held? cluster = some own := hown
  rw [hnone] at hown
  cases hown

theorem headed_performAll {r : Repository} (hk : r.Kept) (hr : r.Headed) {calls : List WriteCall}
    (hcalls : ∀ call ∈ calls, call.Admissible) :
    (WriteCall.performAll calls r).2.Kept ∧ (WriteCall.performAll calls r).2.Headed := by
  induction calls generalizing r with
  | nil => exact ⟨hk, hr⟩
  | cons call calls ih =>
    have hstep := step_perform hk.sound call
    rw [WriteCall.performAll]
    exact ih (hstep.kept hk (hcalls call List.mem_cons_self)) (hstep.headed hr)
      fun x hx => hcalls x (List.mem_cons_of_mem call hx)

end Repository

namespace Workspace

variable {υ : Type}

/-- A workspace around a store, before a writer of this cluster has written. -/
def start (store : DocumentStore) (cluster : Int) (caller : υ) : Workspace υ :=
  { repository := { store, writer := { cluster } }, caller }

theorem headed_makeAll {w : Workspace υ} (hk : w.repository.Kept) (hr : w.repository.Headed)
    {calls : List WriteCall} (hcalls : ∀ call ∈ calls, call.Admissible) :
    (WriteCall.makeAll calls w).2.repository.Kept ∧
      (WriteCall.makeAll calls w).2.repository.Headed := by
  obtain ⟨log, hmake⟩ := WriteCall.makeAll_eq calls w
  rw [hmake]
  exact Repository.headed_performAll hk hr hcalls

end Workspace

namespace Traverser

variable {υ : Type}

theorem create_eq (t : Traverser υ) (v : RevisionVector) (roots : List String)
    (w : Workspace υ) :
    t.create (some v) roots w = (.ok { t with number := w.traversers.length },
      { w with traversers := w.traversers ++ [{ pin := .of v, hiddenRoots := roots }] }) := rfl

theorem create_snapshot {t : Traverser υ} (ht : t.backend = .memory)
    (snapshot : Option RevisionVector) (roots : List String) (w : Workspace υ) :
    t.create snapshot roots w = t.create (some (snapshot.getD w.head)) roots w := by
  cases snapshot with
  | some v => rfl
  | none =>
    rw [create, create, ht]
    rfl

theorem state_create (t : Traverser υ) (x : TraverserState) (w : Workspace υ) :
    { t with number := w.traversers.length }.state
      { w with traversers := w.traversers ++ [x] } = x := by
  rw [state, Workspace.traverser, List.getD_eq_getElem?_getD]
  simp

/-- An iteration of a new traverser, after some turns, answers with what a full traversal would have
yielded when the traverser was made. -/
theorem session_created {w : Workspace υ} {v : RevisionVector} (hk : w.repository.Kept)
    (hv : v.Behind w.repository.writer) {turns : List Turn} {batches : List (List WriteCall)}
    (hturns : ∀ turn ∈ turns, ∀ call ∈ turn.allCalls, call.Admissible)
    (hbatches : ∀ call ∈ batches.flatten, call.Admissible) (label : String)
    (accepts : String → Bool) (report : String → υ → υ) (roots : List String) :
    ∃ t w₁, (plain label .all accepts report).create (some v) roots w = (.ok t, w₁) ∧
      ∃ y : Yield Entry,
        (t.session batches (t.run turns w₁).2).1 = .ok (y.answers batches.length) ∧
        y.map Entry.seen = (w.store.fullYield v (allows accepts roots)).map Entry.seen ∧
        ((∀ turn ∈ turns, turn.allCalls = []) → batches.head?.getD [] = [] →
          y = w.store.fullYield v (allows accepts roots)) := by
  let quiet : Prop := ∀ turn ∈ turns, turn.allCalls = []
  let x : TraverserState := { pin := .of v, hiddenRoots := roots }
  let t : Traverser υ := { plain label .all accepts report with number := w.traversers.length }
  let w₁ : Workspace υ := { w with traversers := w.traversers ++ [x] }
  have hstate : t.state w₁ = x := state_create (plain label .all accepts report) x w
  have hpin : (t.state w₁).pin = .of v := congrArg TraverserState.pin hstate
  have hplain : t.IsPlain accepts report := isPlain_plain _ _ _ _ _
  have hfull : t.fullYield v accepts w₁ = w.store.fullYield v (allows accepts roots) := by
    rw [fullYield, hstate]
    rfl
  have hturns' : ∀ turn ∈ turns, ∀ call ∈ turn.allCalls, call.Admissible ∧ ¬ quiet := by
    intro turn hturn call hcall
    refine ⟨hturns turn hturn call hcall, fun hquiet => ?_⟩
    rw [hquiet turn hturn] at hcall
    cases hcall
  obtain ⟨w₂, hrun, h₂⟩ := ends_run (w := w₁) hplain rfl hk hv hpin hturns'
  have hpin₂ : (t.state w₂).pin = .of v :=
    (congrArg Prod.fst (Workspace.map_traverser h₂.configs _)).trans hpin
  have hbatches' : ∀ call ∈ batches.flatten, call.Admissible ∧ ¬ False :=
    fun call hcall => ⟨hbatches call hcall, not_false⟩
  obtain ⟨y, hsession, hseen, hexact⟩ := ends_session hplain rfl
    (h₂.repository.kept hk) (h₂.repository.behind hv) hpin₂ hbatches'
  refine ⟨t, w₁, create_eq _ v roots w, y, ?_, ?_, ?_⟩
  · rw [hrun]
    exact hsession.answer
  · rw [hseen, map_seen_fullYield h₂ hk hv, hfull]
  · intro hquiet hfirst
    rw [hexact hfirst, fullYield_of_unwritten h₂ hquiet, hfull]

/-- What an iteration pinned at the head answers does not depend on writes that come later, nor on
when they come: `since` before the traverser is made, `turns` before or between its iterations, and
`batches` before the steps of one iteration. Only modification times can differ, and they do not if
all writes come after the iteration's first step. -/
theorem session_isolated {settings : CacheSettings} {store : DocumentStore}
    (hstore : DocumentStore.create settings = .ok store) (cluster : Int) (caller : υ)
    {before since : List WriteCall} {turns : List Turn} {batches : List (List WriteCall)}
    (hbefore : ∀ call ∈ before, call.Admissible) (hsince : ∀ call ∈ since, call.Admissible)
    (hturns : ∀ turn ∈ turns, ∀ call ∈ turn.allCalls, call.Admissible)
    (hbatches : ∀ call ∈ batches.flatten, call.Admissible) (label : String)
    (accepts : String → Bool) (report : String → υ → υ) (roots : List String) :
    let w := (WriteCall.makeAll before (.start store cluster caller)).2
    let create := (plain label .all accepts report).create (some w.head) roots
    ∃ t w₁ t' w₂, create w = (.ok t, w₁) ∧
      create (WriteCall.makeAll since w).2 = (.ok t', w₂) ∧
      ∃ undisturbed answers,
        (t.session (batches.map fun _ => []) w₁).1 = .ok undisturbed ∧
        (t'.session batches (t'.run turns w₂).2).1 = .ok answers ∧
        answers.map (Except.map (Option.map Entry.seen)) =
          undisturbed.map (Except.map (Option.map Entry.seen)) ∧
        (since = [] → (∀ turn ∈ turns, turn.allCalls = []) → batches.head?.getD [] = [] →
          answers = undisturbed) := by
  intro w create
  obtain ⟨hk, hv⟩ : w.repository.Kept ∧ w.repository.Headed :=
    Workspace.headed_makeAll (Repository.kept_create hstore _).1
      (Repository.headed_of_empty _ _) hbefore
  have hwritten : ∀ call ∈ since, call.Admissible ∧ ¬ since = [] :=
    fun call hcall => ⟨hsince call hcall, List.ne_nil_of_mem hcall⟩
  obtain ⟨w', hmake, hlater⟩ := Workspace.ends_makeAll (v := w.head) hk hwritten
  have hnone : ∀ call ∈ (batches.map fun _ => ([] : List WriteCall)).flatten,
      call.Admissible := by simp
  have hfirst : (batches.map fun _ => ([] : List WriteCall)).head?.getD [] = [] := by
    cases batches with
    | nil => rfl
    | cons calls batches => rfl
  have hunturned : ∀ turn ∈ ([] : List Turn), ∀ call ∈ turn.allCalls, call.Admissible := by simp
  obtain ⟨t, w₁, hcreate, y, hsession, _, hexact⟩ :=
    session_created (v := w.head) hk hv hunturned hnone label accepts report roots
  obtain ⟨t', w₂, hcreate', y', hsession', hseen', hexact'⟩ :=
    session_created (hlater.repository.kept hk) (hlater.repository.behind hv) hturns hbatches
      label accepts report roots
  have hy := hexact (by simp) hfirst
  rw [List.length_map] at hsession
  refine ⟨t, w₁, t', w₂, hcreate, ?_, y.answers batches.length, y'.answers batches.length,
    hsession, hsession', ?_, ?_⟩
  · rw [hmake]
    exact hcreate'
  · rw [← Yield.answers_map, ← Yield.answers_map, hseen', hlater.seen hk hv, hy]
  · intro hsince₀ hturns₀ hfirst'
    rw [hexact' hturns₀ hfirst', hy, (hlater.unwritten hsince₀).fullYield]

theorem session_isolated_from_removal :
    let before : List WriteCall := [.commit "/a" [("x", .number 1)] .empty none]
    let since : List WriteCall := [.commit "/b" [] .empty (some (.time 7))]
    let turns : List Turn := [.calls [.addPrevious "/a" 0 none .ordinary], .iteration [[], []]]
    let batches : List (List WriteCall) := [[.remove "/a" none], []]
    let w := (WriteCall.makeAll before
      (.start { cache := some { limit := some 10000 } } 1 ())).2
    let create := (plain "all" .all (fun _ => true) fun _ u => u).create (some w.head) []
    ∃ t w₁ t' w₂, create w = (.ok t, w₁) ∧
      create (WriteCall.makeAll since w).2 = (.ok t', w₂) ∧
      ∃ undisturbed answers,
        (t.session (batches.map fun _ => []) w₁).1 = .ok undisturbed ∧
        (t'.session batches (t'.run turns w₂).2).1 = .ok answers ∧
        answers.map (Except.map (Option.map Entry.seen)) =
          undisturbed.map (Except.map (Option.map Entry.seen)) ∧
        (since = [] → (∀ turn ∈ turns, turn.allCalls = []) → batches.head?.getD [] = [] →
          answers = undisturbed) :=
  session_isolated (show DocumentStore.create {} = .ok _ from rfl) 1 () (by decide) (by decide)
    (by decide) (by decide) "all" (fun _ => true) (fun _ u => u) []

end Traverser

end VersionedTree
