import VersionedTree.Proofs.Enumeration
import VersionedTree.Proofs.Splitting

/-! # Traversals since a moment

A writer that leaves modification times open puts down its clock, so that a document tells when its
path was written last. A traversal of the documents modified after a moment then goes through the
paths that were written after it, whatever was written before. What a path that was not written
since holds is the same at the head of that moment and at the head of now.
-/

namespace VersionedTree

namespace WriteCall

/-- The modification time that a call puts down, if it puts one down. -/
def modified? : WriteCall → Option Modified
  | commit _ _ _ modified | remove _ modified | addPrevious _ _ modified _ => modified

theorem modified_of_version? {call : WriteCall} (h : call.modified? = none) {revision : Revision}
    {x : Version} (hx : call.version? revision = some x) :
    x.revision = revision ∧ x.modified = .time revision.timestamp := by
  cases call with
  | commit path properties bundled modified =>
    cases hx
    rw [modified?] at h
    rw [h]
    exact ⟨rfl, rfl⟩
  | remove path modified =>
    cases hx
    rw [modified?] at h
    rw [h]
    exact ⟨rfl, rfl⟩
  | addPrevious => cases hx

theorem performAll_append (before after : List WriteCall) (r : Repository) :
    performAll (before ++ after) r =
      ((performAll before r).1 ++ (performAll after (performAll before r).2).1,
        (performAll after (performAll before r).2).2) := by
  induction before generalizing r with
  | nil => rfl
  | cons call before ih => simp only [List.cons_append, performAll, ih, List.append_assoc]

end WriteCall

/-- The state, whatever the snapshot it was read at. -/
def NodeState.content (n : NodeState) : NodeState := { n with snapshot := none }

theorem Document.newestAmong_congr {v v' : RevisionVector} {versions : List Commit}
    (h : ∀ c ∈ versions, v.sees c.revision = v'.sees c.revision) :
    newestAmong v versions = newestAmong v' versions := by
  induction versions using List.reverseRecOn with
  | nil => rfl
  | append_singleton versions c ih =>
    have hc : v.sees c.revision = v'.sees c.revision := h c (by simp)
    rw [newestAmong_concat, newestAmong_concat, ih fun x hx => h x (List.mem_append_left _ hx)]
    simp only [newer, hc]

/-- Two snapshots that see the same versions of a path find the same there. -/
theorem Version.content_nodeIn {history : List Version} {path : String} {v v' : RevisionVector}
    (h : ∀ x ∈ history, x.path = path → v.sees x.revision = v'.sees x.revision) :
    (nodeIn history path v).map NodeState.content =
      (nodeIn history path v').map NodeState.content := by
  have hsame : ∀ c ∈ (history.filter fun x => x.path == path).map commit,
      v.sees c.revision = v'.sees c.revision := by
    intro c hc
    obtain ⟨x, hx, rfl⟩ := List.mem_map.1 hc
    obtain ⟨hx, hpath⟩ := List.mem_filter.1 hx
    exact h x hx (by simpa using hpath)
  rw [nodeIn, nodeIn, Document.newestAmong_congr hsame, Option.map_map, Option.map_map]
  rfl

namespace Repository

variable {r r' : Repository} {history earlier later : List Version} {x : Version}

/-- The timestamp of the writer's own revision in its head, 0 before its first write. -/
def ownTime (r : Repository) : Nat :=
  ((r.head.held? r.writer.cluster).map Revision.timestamp).getD 0

/-- The versions of the history came one after the other at the ticks of the writer's clock, which
they have as modification times, and the head holds the last one. -/
structure Ticked (history : List Version) (r : Repository) : Prop where
  own : r.head.held? r.writer.cluster = history.getLast?.map Version.revision
  revisions : ∀ x ∈ history, (x.revision.cluster : Int) = r.writer.cluster ∧
    x.revision.counter = 0 ∧ 0 < x.revision.timestamp
  ascending : history.Pairwise fun x y => x.revision.timestamp < y.revision.timestamp
  modified : ∀ x ∈ history, x.modified = .time x.revision.timestamp
  timed : r.store.Timed

theorem Step.ticked {call : WriteCall} {result : Except Failure (Option Revision)}
    (h : Step r call result r') (hcall : call.modified? = none) (ht : r.Ticked history)
    (hclocked : Version.Clocked r.writer history) :
    r'.Ticked (history ++ call.recorded result) := by
  cases h with
  | version n x hcluster hrevision hversion ha =>
    obtain ⟨-, hmodified⟩ := WriteCall.modified_of_version? hcall hversion
    have hown : (x.revision.cluster : Int) = r.writer.cluster := by rw [hcluster, hrevision]
    rw [WriteCall.recorded_of_version? hversion]
    refine ⟨?_, ?_, ?_, ?_, ?_⟩
    · show (r.writer.head.update x.revision).held? r.writer.cluster = _
      rw [← hown, RevisionVector.held?_update_self, List.getLast?_concat]
      rfl
    · rw [List.forall_mem_append, List.forall_mem_singleton]
      refine ⟨ht.revisions, hown, ?_⟩
      rw [hrevision]
      exact ⟨rfl, Nat.succ_pos _⟩
    · refine List.pairwise_append.2 ⟨ht.ascending, List.pairwise_singleton _ _, ?_⟩
      intro y hy z hz
      obtain rfl := List.mem_singleton.1 hz
      have hle := hclocked y hy (ht.revisions y hy).1
      rw [hrevision]
      exact Nat.lt_succ_of_le hle
    · rw [List.forall_mem_append, List.forall_mem_singleton]
      exact ⟨ht.modified, hmodified⟩
    · refine DocumentStore.timed_written ht.timed ?_
      rintro m ⟨⟩
      rw [hmodified]
      exact Option.some_ne_none _
  | previous s path height modified split revision hs heq =>
    subst heq
    rw [WriteCall.modified?] at hcall
    rw [WriteCall.recorded, List.append_nil]
    refine ⟨ht.own, ht.revisions, ht.ascending, ht.modified, ?_⟩
    refine DocumentStore.timed_written (hs.timed ht.timed) fun m hm => ?_
    rw [hcall] at hm
    cases hm
  | refused e s clock hs hclock =>
    rw [WriteCall.recorded, List.append_nil]
    exact ⟨ht.own, ht.revisions, ht.ascending, ht.modified, hs.timed ht.timed⟩

theorem ticked_performAll (hr : r.Recorded history) (ht : r.Ticked history)
    {calls : List WriteCall}
    (hcalls : ∀ call ∈ calls, call.Admissible ∧ call.modified? = none) :
    (WriteCall.performAll calls r).2.Ticked (history ++ (WriteCall.performAll calls r).1) := by
  induction calls generalizing r history with
  | nil =>
    rw [WriteCall.performAll, List.append_nil]
    exact ht
  | cons call calls ih =>
    obtain ⟨⟨hadmissible, hmodified⟩, hrest⟩ := List.forall_mem_cons.1 hcalls
    rw [WriteCall.performAll, ← List.append_assoc]
    have hstep := step_perform hr.kept.sound call
    exact ih (recorded_perform hr hadmissible) (hstep.ticked hmodified ht hr.clocked) hrest

theorem ticked_create {settings : CacheSettings} {store : DocumentStore}
    (hstore : DocumentStore.create settings = .ok store) (cluster : Int) :
    Ticked [] ⟨store, { cluster }⟩ := by
  obtain ⟨-, hempty⟩ := kept_create hstore { cluster }
  refine ⟨?_, List.forall_mem_nil _, .nil, List.forall_mem_nil _, ?_⟩
  · show RevisionVector.empty.held? cluster = none
    rw [RevisionVector.held?]
    exact ite_self _
  · rw [DocumentStore.Timed, hempty]
    exact List.forall_mem_nil _

theorem timestamp_le_last (h : history.Pairwise fun x y =>
    x.revision.timestamp < y.revision.timestamp) {last : Version}
    (hlast : history.getLast? = some last) (hx : x ∈ history) :
    x.revision.timestamp ≤ last.revision.timestamp := by
  cases history using List.reverseRecOn with
  | nil => cases hx
  | append_singleton init y =>
    rw [List.getLast?_concat] at hlast
    cases hlast
    rcases List.mem_append.1 hx with hx | hx
    · exact Nat.le_of_lt ((List.pairwise_append.1 h).2.2 x hx _ List.mem_cons_self)
    · exact Nat.le_of_eq (congrArg (·.revision.timestamp) (List.mem_singleton.1 hx))

theorem Ticked.timestamp_le (h : r.Ticked history) (hx : x ∈ history) :
    x.revision.timestamp ≤ r.ownTime := by
  obtain ⟨last, hlast⟩ : ∃ last, history.getLast? = some last :=
    Option.isSome_iff_exists.1 (List.getLast?_isSome.2 (List.ne_nil_of_mem hx))
  rw [ownTime, h.own, hlast]
  exact timestamp_le_last h.ascending hlast hx

theorem Ticked.sees (h : r.Ticked history) (hx : x ∈ history) :
    r.head.sees x.revision = true := by
  have hle := h.timestamp_le hx
  obtain ⟨hcluster, hcounter, -⟩ := h.revisions x hx
  obtain ⟨last, hlast⟩ : ∃ last, history.getLast? = some last :=
    Option.isSome_iff_exists.1 (List.getLast?_isSome.2 (List.ne_nil_of_mem hx))
  have hown := h.own
  obtain ⟨hcluster', hcounter', -⟩ := h.revisions last (List.mem_of_getLast? hlast)
  rw [hlast, ← hcluster, Option.map_some, RevisionVector.held?, if_neg (by omega)] at hown
  rw [ownTime, h.own, hlast] at hle
  refine RevisionVector.sees_iff.2 ⟨last.revision, hown, ?_⟩
  simp only [Option.map_some, Option.getD_some] at hle
  have hsame : x.revision.cluster = last.revision.cluster := by omega
  rw [Revision.le_def, Revision.lt_def]
  omega

/-! ## What was written since a moment -/

/-- From one moment of the repository to a later one `later` was written, on top of `earlier`. -/
structure Increment (earlier later : List Version) (r r' : Repository) : Prop where
  before : r.Ticked earlier
  ticked : r'.Ticked (earlier ++ later)
  documents : r'.Documents (earlier ++ later)
  apart : ∀ x ∈ earlier ++ later, ∀ y ∈ earlier ++ later, DocumentId.Apart x.path y.path

theorem increment_performAll {settings : CacheSettings} {store : DocumentStore}
    (hstore : DocumentStore.create settings = .ok store) (cluster : Int)
    {before after : List WriteCall}
    (hcalls : ∀ call ∈ before ++ after,
      call.Admissible ∧ call.IsNormal ∧ call.modified? = none)
    (hapart : ∀ a ∈ before ++ after, ∀ b ∈ before ++ after, DocumentId.Apart a.path b.path) :
    let earlier := WriteCall.performAll before ⟨store, { cluster }⟩
    let later := WriteCall.performAll after earlier.2
    Increment earlier.1 later.1 earlier.2 later.2 ∧
      ∀ x ∈ earlier.1 ++ later.1, ∃ call ∈ before ++ after, call.path = x.path := by
  intro earlier later
  have hstart : Recorded [] ⟨store, { cluster }⟩ := recorded_create hstore cluster
  have hticked {calls : List WriteCall} (h : ∀ call ∈ calls, call ∈ before ++ after) :
      (WriteCall.performAll calls ⟨store, { cluster }⟩).2.Ticked
        (WriteCall.performAll calls ⟨store, { cluster }⟩).1 :=
    ticked_performAll hstart (ticked_create hstore cluster)
      fun call hcall => ⟨(hcalls call (h call hcall)).1, (hcalls call (h call hcall)).2.2⟩
  have hdocuments := documents_performAll hstart
    fun call hcall => ⟨(hcalls call hcall).1, (hcalls call hcall).2.1⟩
  have hwhole := hticked fun _ => id
  have hhistory : ∀ x ∈ (WriteCall.performAll (before ++ after) ⟨store, { cluster }⟩).1,
      ∃ call ∈ before ++ after, call.path = x.path := by
    intro x hx
    obtain ⟨call, hcall, _, hversion⟩ := WriteCall.version?_of_performAll hx
    exact ⟨call, hcall, (path_of_version? hversion).symm⟩
  rw [WriteCall.performAll_append] at hdocuments hwhole hhistory
  refine ⟨⟨hticked fun _ => List.mem_append_left after, hwhole, hdocuments, ?_⟩, hhistory⟩
  intro x hx y hy
  obtain ⟨a, ha, hxa⟩ := hhistory x hx
  obtain ⟨b, hb, hyb⟩ := hhistory y hy
  rw [← hxa, ← hyb]
  exact hapart a ha b hb

/-- If the writer's cluster has revisions, then what was written by one moment and what was written
since are, one by one, what the calls write. -/
theorem wrote_performAll_append {settings : CacheSettings} {store : DocumentStore}
    (hstore : DocumentStore.create settings = .ok store) {cluster : Int} (hcluster : 0 ≤ cluster)
    {before after : List WriteCall} (hcalls : ∀ call ∈ before ++ after, call.Admissible) :
    let earlier := WriteCall.performAll before ⟨store, { cluster }⟩
    let later := WriteCall.performAll after earlier.2
    List.Forall₂ WriteCall.Wrote (before.filter WriteCall.writes) earlier.1 ∧
      List.Forall₂ WriteCall.Wrote (after.filter WriteCall.writes) later.1 := by
  intro earlier later
  have hstart := recorded_create hstore cluster
  obtain ⟨hbefore, hafter⟩ := List.forall_mem_append.1 hcalls
  have hcluster' : 0 ≤ earlier.2.writer.cluster := by
    rw [cluster_performAll hstart.kept hbefore]
    exact hcluster
  exact ⟨wrote_performAll hstart.kept hcluster hbefore,
    wrote_performAll (recorded_performAll hstart hbefore).kept hcluster' hafter⟩

namespace Increment

/-- What was written since is newer than the own revision of the earlier head. -/
theorem lt_timestamp (h : Increment earlier later r r') (hx : x ∈ later) :
    r.ownTime < x.revision.timestamp := by
  rw [ownTime, h.before.own]
  cases hlast : earlier.getLast? with
  | none => exact (h.ticked.revisions x (List.mem_append_right earlier hx)).2.2
  | some last =>
    exact (List.pairwise_append.1 h.ticked.ascending).2.2 last (List.mem_of_getLast? hlast) x hx

theorem mem_later_iff (h : Increment earlier later r r') (hx : x ∈ earlier ++ later) :
    x ∈ later ↔ r.ownTime < x.revision.timestamp := by
  refine ⟨h.lt_timestamp, fun hlt => ?_⟩
  rcases List.mem_append.1 hx with hx | hx
  · exact absurd (h.before.timestamp_le hx) (Nat.not_le.2 hlt)
  · exact hx

theorem timestamp_le_clock (h : Increment earlier later r r') (hx : x ∈ earlier ++ later) :
    x.revision.timestamp ≤ r'.writer.clock :=
  h.documents.clocked x hx (h.ticked.revisions x hx).1

theorem ownTime_le (h : Increment earlier later r r') : r.ownTime ≤ r'.writer.clock := by
  rw [ownTime, h.before.own]
  cases hlast : earlier.getLast? with
  | none => exact Nat.zero_le _
  | some last =>
    exact h.timestamp_le_clock (List.mem_append_left later (List.mem_of_getLast? hlast))

variable {range : TimeRange}

/-- A scan of the times since the earlier moment goes through a main document if its path was
written since. -/
theorem inRange_iff (h : Increment earlier later r r') (hlower : range.lower = r.ownTime + 1)
    (hupper : (r'.writer.clock : Int) < range.upper) {item : Stored}
    (hitem : item ∈ r'.store.catalog.items) (hmain : item.document.IsMain) :
    DocumentStore.inRange range item.document = true ↔
      ∃ x ∈ later, x.path = item.document.path := by
  obtain ⟨last, hlast, hmodified⟩ := last_version h.documents h.apart hitem hmain
  obtain ⟨hmem, hpath⟩ := List.mem_filter.1 (List.mem_of_getLast? hlast)
  have hclock := h.timestamp_le_clock hmem
  have hcovers : range.coversAll = false := by
    rw [TimeRange.coversAll, decide_eq_false (by omega), Bool.false_and]
  have htime : (some last.modified).bind Modified.time? = some (last.revision.timestamp : Int) := by
    rw [h.ticked.modified last hmem]
    rfl
  rw [DocumentStore.inRange, hcovers, hmodified, htime, Bool.false_or, TimeRange.contains_some_iff]
  constructor
  · intro hbounds
    exact ⟨last, (h.mem_later_iff hmem).2 (by omega), by simpa using hpath⟩
  · rintro ⟨x, hx, hxpath⟩
    have hx' : x ∈ (earlier ++ later).filter fun y => y.path == item.document.path :=
      List.mem_filter.2 ⟨List.mem_append_right earlier hx, by simpa using hxpath⟩
    have hlt := h.lt_timestamp hx
    have hle := timestamp_le_last (h.ticked.ascending.filter _) hlast hx'
    omega

theorem mem_paths_select (h : Increment earlier later r r') (hlower : range.lower = r.ownTime + 1)
    (hupper : (r'.writer.clock : Int) < range.upper) {p : String} :
    p ∈ paths (r'.store.select range) ↔ ∃ x ∈ later, x.path = p := by
  have hmain {item : Stored} (hitem : item ∈ r'.store.catalog.items)
      (hlive : (!item.document.isSplit) = true) : item.document.IsMain :=
    h.documents.kept.arranged.isMain_of_not_isSplit hitem (by simpa using hlive)
  constructor
  · intro hp
    obtain ⟨item, hitem, rfl⟩ := List.mem_map.1 hp
    obtain ⟨hitem, hlive⟩ := List.mem_filter.1 hitem
    obtain ⟨hitem, hrange⟩ := List.mem_filter.1 hitem
    exact (h.inRange_iff hlower hupper hitem (hmain hitem hlive)).1 hrange
  · rintro ⟨x, hx, rfl⟩
    obtain ⟨item, hitem, hpath⟩ := List.mem_map.1
      ((mem_paths h.documents h.apart).2 ⟨x, List.mem_append_right earlier hx, rfl⟩)
    obtain ⟨hitem, hlive⟩ := List.mem_filter.1 hitem
    have hrange := (h.inRange_iff hlower hupper hitem (hmain hitem hlive)).2 ⟨x, hx, hpath.symm⟩
    exact List.mem_map.2
      ⟨item, List.mem_filter.2 ⟨List.mem_filter.2 ⟨hitem, hrange⟩, hlive⟩, hpath⟩

/-- A path that was not written since holds at the later head what it held at the earlier one. -/
theorem written_of_changed (h : Increment earlier later r r') {p : String} (hp : Path.IsNormal p)
    (hapart : ∀ x ∈ earlier ++ later, DocumentId.Apart x.path p) {found n : Option NodeState}
    (hfound : r'.store.nodeAt p r.head = .ok found) (hn : r'.store.nodeAt p r'.head = .ok n)
    (hchanged : found.map NodeState.content ≠ n.map NodeState.content) :
    ∃ x ∈ later, x.path = p := by
  by_contra hnone
  have hnode (v : RevisionVector) : r'.store.nodeAt p v =
      .ok (Version.nodeIn (earlier ++ later) p v) :=
    DocumentStore.nodeAt_of_records h.documents.records hp fun x hx =>
      ⟨h.documents.normal x hx, hapart x hx⟩
  rw [hnode] at hfound hn
  cases hfound
  cases hn
  refine hchanged (Version.content_nodeIn fun x hx hpath => ?_)
  rw [h.ticked.sees hx]
  rcases List.mem_append.1 hx with hx | hx
  · exact h.before.sees hx
  · exact absurd ⟨x, hx, hpath⟩ hnone

end Increment

end Repository

namespace DocumentStore

variable {s : DocumentStore} {v : RevisionVector} {allowed : String → Bool}

/-- What documents yield that can all be unfolded has an entry for each node that is found at the
path of a document. -/
theorem mem_yields {items : List Stored} {entries : List Entry}
    (h : s.yields v allowed items = ⟨entries, none⟩) {p : String} (hp : p ∈ Repository.paths items)
    (hallowed : allowed p = true) {n : NodeState} (hn : s.nodeAt p v = .ok (some n)) :
    ∃ e ∈ entries, e.path = p ∧ e.state = n := by
  obtain ⟨item, hitem, rfl⟩ := List.mem_map.1 hp
  obtain ⟨hitem, hlive⟩ := List.mem_filter.1 hitem
  have hcomplete := Yield.complete_of_flatMap (congrArg Yield.failure h)
  rw [yields, Yield.flatMap_of_complete hcomplete] at h
  obtain rfl := congrArg Yield.items h
  refine ⟨.ofState item.document.modified n, List.mem_flatMap.2 ⟨item, hitem, ?_⟩,
    path_of_nodeAt hn, rfl⟩
  rw [yieldOf_of_accepted (by simpa using hlive) hallowed, hn]
  exact List.mem_cons_self

end DocumentStore

namespace Traverser

/-- The traverser that settings make for the times from one on. -/
theorem create_incremental (label : Option String) {since : Int}
    (hsince : since ≤ TimeRange.unlimited) (accepts : String → Bool) (roots : List String)
    (v : RevisionVector) (w : Workspace (List Entry)) :
    let range : TimeRange := ⟨since, TimeRange.unlimited, hsince⟩
    let settings : TraversalSettings (Workspace (List Entry)) :=
      { label, range, hiddenRoots := roots, predicate := some fun path => pure (accepts path) }
    let created : Except Failure (Traverser (List Entry)) × Workspace (List Entry) :=
      (.ok { described settings .nodes .memory with number := w.traversers.length },
        { w with traversers := w.traversers ++ [{ pin := .of v, hiddenRoots := roots }] })
    TraversalSettings.incremental label since =
        .ok ({ label, range } : TraversalSettings (Workspace (List Entry))) ∧
      (described settings .nodes .memory).create (some v) roots w = created ∧
      (settings.problems = .ok [] →
        ofSettings settings .nodes .memory (some v) w = created) := by
  intro range settings created
  have hcreate : (described settings .nodes .memory).create (some v) roots w = created := rfl
  refine ⟨?_, hcreate, fun hsound => ?_⟩
  · rw [TraversalSettings.incremental, Option.getD_none, TimeRange.ofLimits, dif_pos hsince]
    rfl
  · rw [ofSettings, Action.bind_apply, TraversalSettings.check, hsound]
    exact hcreate

/-- A traversal since the own revision of an earlier head, at the head of now, goes through the
paths that were written after that moment, in the order of their ids, and delivers for each of them
what is listed there. So it delivers what every path holds now that held something else before. A
writer whose cluster has revisions writes with every commit and every removal. -/
theorem collect_increment {cacheSettings : CacheSettings} {store : DocumentStore}
    (hstore : DocumentStore.create cacheSettings = .ok store) (cluster : Int)
    {before after : List WriteCall}
    (hcalls : ∀ call ∈ before ++ after,
      call.Admissible ∧ call.IsNormal ∧ call.modified? = none)
    (hapart : ∀ a ∈ before ++ after, ∀ b ∈ before ++ after, DocumentId.Apart a.path b.path)
    (hclock : ((WriteCall.performAll after
      (WriteCall.performAll before ⟨store, { cluster }⟩).2).2.writer.clock : Int) <
        TimeRange.unlimited)
    (label : Option String) (accepts : String → Bool) (roots : List String) :
    let earlier := WriteCall.performAll before ⟨store, { cluster }⟩
    let later := WriteCall.performAll after earlier.2
    let w : Workspace (List Entry) := { repository := later.2, caller := [] }
    (0 ≤ cluster → List.Forall₂ WriteCall.Wrote (before.filter WriteCall.writes) earlier.1 ∧
      List.Forall₂ WriteCall.Wrote (after.filter WriteCall.writes) later.1) ∧
    ∃ since settings t w₁ w₂,
      TraversalSettings.incremental label (earlier.2.ownTime + 1) = .ok since ∧
      settings = { since with
        hiddenRoots := roots, predicate := some fun path => pure (accepts path) } ∧
      (described settings .nodes .memory).create (some later.2.head) roots w = (.ok t, w₁) ∧
      (settings.problems = .ok [] →
        ofSettings settings .nodes .memory (some later.2.head) w = (.ok t, w₁)) ∧
      t.collect w₁ = (.ok (), w₂) ∧
      (∃ paths blocks, w₂.caller = blocks.flatten ∧
        (paths.Pairwise fun p q => DocumentId.ofPath p < DocumentId.ofPath q) ∧
        (∀ p, p ∈ paths ↔ ∃ x ∈ later.1, x.path = p) ∧
        (0 ≤ cluster → ∀ p, p ∈ paths ↔ ∃ call ∈ after, call.writes = true ∧ call.path = p) ∧
        List.Forall₂ (Version.Listed (earlier.1 ++ later.1) later.2.head (allows accepts roots))
          paths blocks) ∧
      ∀ p found n, Path.IsNormal p → (∀ call ∈ before ++ after, DocumentId.Apart call.path p) →
        allows accepts roots p = true →
        (Repository.node p earlier.2.head later.2).1 = .ok found →
        (Repository.node p later.2.head later.2).1 = .ok (some n) →
        found.map NodeState.content ≠ some n.content →
        ∃ e ∈ w₂.caller, e.path = p ∧ e.state = n := by
  intro earlier later w
  obtain ⟨hincrement, hhistory⟩ := Repository.increment_performAll hstore cluster hcalls hapart
  have hwrote (hcluster : 0 ≤ cluster) :=
    Repository.wrote_performAll_append hstore hcluster fun call hcall => (hcalls call hcall).1
  have hclock : (later.2.writer.clock : Int) < TimeRange.unlimited := hclock
  have hsince : (earlier.2.ownTime : Int) + 1 ≤ TimeRange.unlimited := by
    have hle : earlier.2.ownTime ≤ later.2.writer.clock := hincrement.ownTime_le
    omega
  let range : TimeRange := ⟨earlier.2.ownTime + 1, TimeRange.unlimited, hsince⟩
  have hlower : range.lower = earlier.2.ownTime + 1 := rfl
  let settings : TraversalSettings (Workspace (List Entry)) :=
    { label, range, hiddenRoots := roots, predicate := some fun path => pure (accepts path) }
  let t : Traverser (List Entry) :=
    { described settings .nodes .memory with number := w.traversers.length }
  let w₁ : Workspace (List Entry) :=
    { w with traversers := w.traversers ++ [{ pin := .of later.2.head, hiddenRoots := roots }] }
  obtain ⟨hincremental, hcreate, hchecked⟩ :=
    create_incremental label hsince accepts roots later.2.head w
  obtain ⟨w₂, blocks, hcollect, hcaller, hyields, hblocks⟩ := collect_listed (t := t) (w := w₁)
    ⟨rfl, rfl, rfl, rfl⟩ (state_create (described settings .nodes .memory) _ w)
    hincrement.documents hincrement.apart (hincrement.ticked.timed.requireTimes range)
  have hmem (p : String) : p ∈ Repository.paths (w₁.store.select t.range) ↔
      ∃ x ∈ later.1, x.path = p := hincrement.mem_paths_select hlower hclock
  have hascending : (Repository.paths (w₁.store.select t.range)).Pairwise fun p q =>
      DocumentId.ofPath p < DocumentId.ofPath q :=
    (Repository.ascending_paths hincrement.documents).sublist
      ((List.filter_sublist.filter _).map _)
  refine ⟨hwrote, { label, range }, settings, t, w₁, w₂, hincremental, rfl, hcreate, hchecked,
    hcollect, ⟨Repository.paths (w₁.store.select t.range), blocks, hcaller, hascending, hmem,
      fun hcluster p => (hmem p).trans (Repository.exists_path_iff (hwrote hcluster).2),
      hblocks⟩, ?_⟩
  intro p found n hp hpapart hallowed hfound hn hchanged
  have hkept : later.2.Kept := hincrement.documents.kept
  have hnode (v : RevisionVector) : (Repository.node p v later.2).1 = later.2.store.nodeAt p v :=
    (Repository.ends_node hkept.sound hkept.available p v).answer
  rw [hnode] at hfound hn
  have hpaths : ∀ x ∈ earlier.1 ++ later.1, DocumentId.Apart x.path p := by
    intro x hx
    obtain ⟨call, hcall, hpath⟩ := hhistory x hx
    rw [← hpath]
    exact hpapart call hcall
  have hwritten := hincrement.written_of_changed hp hpaths hfound hn hchanged
  rw [hcaller]
  exact DocumentStore.mem_yields hyields ((hmem p).2 hwritten) hallowed hn

theorem collect_increment_after_removal :
    let before : List WriteCall :=
      [.commit "/b" [("x", .number 1)] .empty none, .commit "/a" [] .empty none,
        .commit "/c" [] .empty none]
    let after : List WriteCall :=
      [.commit "/b" [("x", .number 2)] (.ofList [("u", [])]) none,
        .addPrevious "/a" 0 none .ordinary, .remove "/c" none, .commit "/d/e" [] .empty none,
        .commit "/f" [] .empty none]
    let store : DocumentStore := { cache := some { limit := some 2 } }
    let earlier := WriteCall.performAll before ⟨store, { cluster := 1 }⟩
    let later := WriteCall.performAll after earlier.2
    let w : Workspace (List Entry) := { repository := later.2, caller := [] }
    (List.Forall₂ WriteCall.Wrote (before.filter WriteCall.writes) earlier.1 ∧
      List.Forall₂ WriteCall.Wrote (after.filter WriteCall.writes) later.1) ∧
    ∃ since settings t w₁ w₂,
      TraversalSettings.incremental (some "since") (earlier.2.ownTime + 1) = .ok since ∧
      settings = { since with
        hiddenRoots := ["/d"], predicate := some fun path => pure (path != "/e") } ∧
      (described settings .nodes .memory).create (some later.2.head) ["/d"] w = (.ok t, w₁) ∧
      (settings.problems = .ok [] →
        ofSettings settings .nodes .memory (some later.2.head) w = (.ok t, w₁)) ∧
      t.collect w₁ = (.ok (), w₂) ∧
      (∃ paths blocks, w₂.caller = blocks.flatten ∧
        (paths.Pairwise fun p q => DocumentId.ofPath p < DocumentId.ofPath q) ∧
        (∀ p, p ∈ paths ↔ ∃ call ∈ after, call.writes = true ∧ call.path = p) ∧
        List.Forall₂ (Version.Listed (earlier.1 ++ later.1) later.2.head
          (allows (fun path => path != "/e") ["/d"])) paths blocks) ∧
      (∀ p found n, Path.IsNormal p → (∀ call ∈ before ++ after, DocumentId.Apart call.path p) →
        allows (fun path => path != "/e") ["/d"] p = true →
        (Repository.node p earlier.2.head later.2).1 = .ok found →
        (Repository.node p later.2.head later.2).1 = .ok (some n) →
        found.map NodeState.content ≠ some n.content →
        ∃ e ∈ w₂.caller, e.path = p ∧ e.state = n) ∧
      (w₂.caller.map fun e => (e.path, e.state.lastRevision)) =
        [("/b", some ⟨4, 0, 1⟩), ("/b/u", some ⟨4, 0, 1⟩), ("/f", some ⟨7, 0, 1⟩)] := by
  intro before after store earlier later w
  have hstore : DocumentStore.create { maxEntries := some 2 } = .ok store := rfl
  obtain ⟨hwrote, since, settings, t, w₁, w₂, hsince, hsettings, hcreate, hchecked, hcollect,
      ⟨paths, blocks, hcaller, hascending, -, hpaths, hblocks⟩, hchanged⟩ :=
    @collect_increment _ store hstore 1 before after (by decide) (by decide) (by decide +kernel)
      (some "since") (fun path => path != "/e") ["/d"]
  refine ⟨hwrote (by decide), since, settings, t, w₁, w₂, hsince, hsettings, hcreate, hchecked,
    hcollect, ⟨paths, blocks, hcaller, hascending, hpaths (by decide), hblocks⟩, hchanged, ?_⟩
  obtain ⟨hincremental, -⟩ := @create_incremental (some "since") (earlier.2.ownTime + 1)
    (by decide +kernel) (fun path => path != "/e") ["/d"] later.2.head w
  obtain rfl := Except.ok.inj (hsince.symm.trans hincremental)
  subst hsettings
  have hran := (Action.bind_of_eq_ok hcreate (f := collect)).trans hcollect
  have hw₂ : w₂ = _ := (congrArg Prod.snd hran).symm
  rw [hw₂]
  decide +kernel

end Traverser

end VersionedTree
