import VersionedTree.Proofs.Closing
import VersionedTree.Proofs.Histories
import VersionedTree.Proofs.Isolation

/-! # Fleets of writers

Several writers share one store, each with its own cluster, clock and head. Whatever the order of
their calls, and whatever is looked up and scanned between them, each path has at each snapshot the
state of the newest version that the snapshot sees.
-/

namespace VersionedTree

/-- Writers that share a store. -/
structure Fleet where
  /-- The workspace of the shared store, with the cursors opened on it. -/
  shared : Workspace Unit
  writers : List Writer
  /-- What each cursor has still to stream. -/
  streams : List (List Stored) := []
  /-- The versions that were written, oldest first. -/
  history : List Version := []

/-- What can happen to a fleet. -/
inductive Move where
  /-- The writer of a number makes a call. -/
  | call (writer : Nat) (call : WriteCall)
  | find (id : String)
  | openCursor (range : TimeRange)
  /-- A cursor reads on, to the next id that is accepted. -/
  | fetch (cursor : Nat) (accepts : String → Bool)
  | closeCursor (cursor : Nat)

namespace Move

/-- The call that is made, if one is. -/
def call? : Move → Option WriteCall
  | call _ made => some made
  | find _ | openCursor _ | fetch _ _ | closeCursor _ => none

/-- The call of a move that is to write a version, and the cluster it is to be written in: the
writers have these clusters, and one whose cluster has no revisions cannot write. -/
def write? (clusters : List Int) : Move → Option (Int × WriteCall)
  | call writer made =>
    (clusters[writer]?.filter fun cluster => 0 ≤ cluster ∧ made.writes = true).map (·, made)
  | find _ | openCursor _ | fetch _ _ | closeCursor _ => none

theorem call?_of_write? {clusters : List Int} {move : Move} {made : Int × WriteCall}
    (h : move.write? clusters = some made) : move.call? = some made.2 := by
  cases move with
  | call writer call =>
    obtain ⟨cluster, -, rfl⟩ := Option.map_eq_some_iff.1 h
    rfl
  | find | openCursor | fetch | closeCursor => cases h

/-- The version is the one that the call writes, and its revision is of the cluster. -/
def Wrote (made : Int × WriteCall) (x : Version) : Prop :=
  (x.revision.cluster : Int) = made.1 ∧ made.2.Wrote x

theorem exists_made {made : List (Int × WriteCall)} {versions : List Version}
    (h : List.Forall₂ Wrote made versions) {x : Version} (hx : x ∈ versions) :
    ∃ m ∈ made, Wrote m x := by
  induction h with
  | nil => cases hx
  | @cons m y made versions hwrote _ ih =>
    rcases List.mem_cons.1 hx with rfl | hx
    · exact ⟨m, List.mem_cons_self, hwrote⟩
    · obtain ⟨m', hm', hwrote'⟩ := ih hx
      exact ⟨m', List.mem_cons_of_mem m hm', hwrote'⟩

end Move

namespace Workspace

variable {υ : Type} {w : Workspace υ}

theorem openScan_agrees {s : DocumentStore} (ha : s.available = true) (range : TimeRange) :
    ∃ result s', DocumentStore.openScan range s = (result, s') ∧ s.Agrees s' ∧
      ∀ stream, result = .ok stream → ∀ item ∈ stream, item ∈ s.catalog.items := by
  obtain ⟨s', hscan, hs'⟩ := DocumentStore.ends_openScan ha range
  refine ⟨_, s', hscan, hs', fun stream hstream item hitem => ?_⟩
  cases htimes : s.requireTimes range with
  | error e =>
    rw [htimes] at hstream
    cases hstream
  | ok =>
    rw [htimes] at hstream
    cases hstream
    exact List.mem_of_mem_filter hitem

theorem openCursor_agrees (ha : w.store.available = true) (range : TimeRange) :
    ∃ result w', openCursor range w = (result, w') ∧ w.store.Agrees w'.store ∧
      ∀ n stream, result = .ok (n, stream) → ∀ item ∈ stream, item ∈ w.store.catalog.items := by
  obtain ⟨result, s', hscan, hs', hitems⟩ := openScan_agrees ha range
  let w₁ : Workspace υ := { w with repository := { w.repository with store := s' } }
  have hstore : onStore (DocumentStore.openScan range) w = (result, w₁) := by
    have hscan : DocumentStore.openScan range w.repository.store = (result, s') := hscan
    rw [onStore, onRepository, Action.zoom, Repository.onStore, Action.zoom, hscan]
  cases result with
  | error e =>
    refine ⟨.error e, w₁, ?_, hs', fun n stream hstream => by cases hstream⟩
    rw [openCursor, Action.bind_apply, hstore]
  | ok stream =>
    let cursor : Cursor :=
      { description := "nodes " ++ range.text, releases := [⟨.stream, none⟩, ⟨.count, none⟩] }
    refine ⟨.ok (w.cursors.length, stream),
      { noted (.queryOpened range stream.length) w₁ with cursors := w.cursors ++ [cursor] }, ?_,
      hs', fun n stream' hstream => ?_⟩
    · rw [openCursor, Action.bind_apply, hstore]
      rfl
    · cases hstream
      exact hitems stream rfl

theorem nextAccepted_agrees (ha : w.store.available = true) (accepts : String → Bool)
    {stream : List Stored} (hstream : ∀ item ∈ stream, w.store.Issued item) :
    ∃ found, Action.Ends (Reads fun _ u => u)
        (nextAccepted (fun id => pure (accepts id)) stream) w (.ok found) ∧
      ∀ d rest, found = some (d, rest) → rest <:+ stream := by
  induction stream generalizing w with
  | nil => exact ⟨none, Action.ends_pure (.refl w) _, fun d rest h => by cases h⟩
  | cons item stream ih =>
    obtain ⟨w₁, hoffer, h₁⟩ : Action.Ends (Reads fun _ u => u)
        (offer (fun id => pure (accepts id)) item) w (.ok (accepts item.id)) :=
      ends_offer ha (hstream item List.mem_cons_self) fun w' _ => Action.ends_pure (.refl w') _
    cases haccepts : accepts item.id with
    | true =>
      rw [haccepts] at hoffer
      refine ⟨some (item.document, stream),
        Action.ends_bind hoffer h₁ (Action.ends_pure (.refl w₁) _), fun d rest h => ?_⟩
      cases h
      exact List.suffix_cons item stream
    | false =>
      rw [haccepts] at hoffer
      obtain ⟨found, hnext, hrest⟩ := ih (h₁.store.available.trans ha)
        fun x hx => h₁.store.issued (hstream x (List.mem_cons_of_mem item hx))
      exact ⟨found, Action.ends_bind hoffer h₁ hnext,
        fun d rest h => (hrest d rest h).trans (List.suffix_cons item stream)⟩

theorem fetch_agrees (ha : w.store.available = true) (n : Nat) (accepts : String → Bool)
    {stream : List Stored} (hstream : ∀ item ∈ stream, w.store.Issued item) :
    ∃ outcome rest w', fetch n (fun id => pure (accepts id)) stream w =
      (.ok (outcome, rest), w') ∧ w.store.Agrees w'.store ∧ rest <:+ stream := by
  have hopen : ∃ r, requireOpen n w = (r, w) := by
    simp only [requireOpen, Action.bind_apply, Action.get_apply]
    cases (w.cursor n).requireOpen with
    | ok => exact ⟨_, rfl⟩
    | error e => exact ⟨_, rfl⟩
  obtain ⟨r, hr⟩ := hopen
  rw [fetch, Action.bind_apply, Action.attempt, hr]
  cases r with
  | error e => exact ⟨.error e, stream, w, rfl, .refl _, List.suffix_refl _⟩
  | ok =>
    obtain ⟨found, ⟨w', hnext, h'⟩, hrest⟩ := nextAccepted_agrees ha accepts hstream
    simp only [Action.bind_apply, Action.attempt, hnext]
    cases found with
    | none => exact ⟨_, _, w', rfl, h'.store, List.nil_suffix⟩
    | some found => exact ⟨_, _, w', rfl, h'.store, hrest _ _ rfl⟩

theorem closeCursor_agrees (n : Nat) (w : Workspace υ) :
    w.store.Agrees (closeCursor n w).2.store := by
  obtain ⟨store, hstore, hclose⟩ := closeCursor_eq n w
  rw [hclose]
  exact hstore

end Workspace

namespace Fleet

variable {f : Fleet}

/-- The store, of all whose documents none is written yet, and its writers. -/
def start (store : DocumentStore) (clusters : List Int) : Fleet where
  shared := { repository := { store }, caller := () }
  writers := clusters.map fun cluster => { cluster }

def store (f : Fleet) : DocumentStore := f.shared.store

def step (f : Fleet) : Move → Fleet
  | .call i call =>
    match f.writers[i]? with
    | none => f
    | some writer =>
      let (answer, r) := call.perform ⟨f.store, writer⟩
      { f with
        shared := { f.shared with repository := r }
        writers := f.writers.set i r.writer
        history := f.history ++ call.recorded answer }
  | .find id => { f with shared := (Workspace.onStore (DocumentStore.find id) f.shared).2 }
  | .openCursor range =>
    match Workspace.openCursor range f.shared with
    | (.ok (_, stream), w) => { f with shared := w, streams := f.streams ++ [stream] }
    | (.error _, w) => { f with shared := w }
  | .fetch n accepts =>
    match Workspace.fetch n (fun id => pure (accepts id)) (f.streams.getD n []) f.shared with
    | (.ok (_, rest), w) => { f with shared := w, streams := f.streams.set n rest }
    | (.error _, w) => { f with shared := w }
  | .closeCursor n => { f with shared := (Workspace.closeCursor n f.shared).2 }

def run (f : Fleet) (moves : List Move) : Fleet := moves.foldl step f

def clusters (f : Fleet) : List Int := f.writers.map Writer.cluster

theorem clusters_start (store : DocumentStore) (clusters : List Int) :
    (start store clusters).clusters = clusters := by
  have hid : Writer.cluster ∘ (fun cluster : Int => ({ cluster } : Writer)) = id := rfl
  rw [Fleet.clusters, start, List.map_map, hid, List.map_id]

/-- What every move keeps. -/
structure Coherent (f : Fleet) : Prop where
  sound : f.store.Sound
  available : f.store.available = true
  issued : ∀ stream ∈ f.streams, ∀ item ∈ stream, f.store.Issued item
  records : f.store.Records f.history
  clusters : f.clusters.Nodup
  clocked : ∀ w ∈ f.writers, Version.Clocked w f.history
  nodup : (f.history.map Version.revision).Nodup

theorem Coherent.of_agrees (hf : f.Coherent) {w : Workspace Unit} {streams : List (List Stored)}
    (hw : f.store.Agrees w.store)
    (hstreams : ∀ stream ∈ streams, ∀ item ∈ stream, f.store.Issued item) :
    Coherent { f with shared := w, streams := streams } where
  sound := hw.sound hf.sound
  available := hw.available.trans hf.available
  issued stream hstream item hitem := hw.issued (hstreams stream hstream item hitem)
  records := hw.records hf.records
  clusters := hf.clusters
  clocked := hf.clocked
  nodup := hf.nodup

theorem coherent_start {settings : CacheSettings} {store : DocumentStore}
    (hstore : DocumentStore.create settings = .ok store) {clusters : List Int}
    (hclusters : clusters.Nodup) : (start store clusters).Coherent where
  sound := (Repository.kept_create hstore {}).1.sound
  available := (Repository.kept_create hstore {}).1.available
  issued stream hstream := by cases hstream
  records := DocumentStore.records_of_empty (Repository.kept_create hstore {}).2
  clusters := by
    rw [clusters_start]
    exact hclusters
  clocked _ _ _ hx := by cases hx
  nodup := .nil

theorem clocked_set {writers : List Writer} {i : Nat} {w w' : Writer} {history later : List Version}
    (hclusters : (writers.map Writer.cluster).Nodup) (hi : writers[i]? = some w)
    (hclocked : ∀ x ∈ writers, Version.Clocked x history)
    (hw' : Version.Clocked w' (history ++ later))
    (hlater : ∀ x ∈ later, (x.revision.cluster : Int) = w.cluster) :
    ∀ x ∈ writers.set i w', Version.Clocked x (history ++ later) := by
  intro x hx
  obtain ⟨j, hj⟩ := List.mem_iff_getElem?.1 hx
  rw [List.getElem?_set] at hj
  by_cases hij : i = j
  · rw [if_pos hij, if_pos (List.getElem?_eq_some_iff.1 hi).1] at hj
    cases hj
    exact hw'
  · rw [if_neg hij] at hj
    intro y hy hcluster
    rcases List.mem_append.1 hy with hy | hy
    · exact hclocked x (List.mem_of_getElem? hj) y hy hcluster
    · have hsame : (writers.map Writer.cluster)[i]? = (writers.map Writer.cluster)[j]? := by
        rw [List.getElem?_map, List.getElem?_map, hi, hj, Option.map_some, Option.map_some,
          ← hcluster, hlater y hy]
      have hlt : i < (writers.map Writer.cluster).length := by
        rw [List.length_map]
        exact (List.getElem?_eq_some_iff.1 hi).1
      exact absurd ((List.getElem?_inj hlt hclusters).1 hsame) hij

theorem map_cluster_set {writers : List Writer} {i : Nat} {w w' : Writer}
    (hi : writers[i]? = some w) (hw' : w'.cluster = w.cluster) :
    (writers.set i w').map Writer.cluster = writers.map Writer.cluster := by
  apply List.ext_getElem?
  intro j
  rw [List.getElem?_map, List.getElem?_map, List.getElem?_set]
  by_cases hij : i = j
  · subst hij
    rw [if_pos rfl, if_pos (List.getElem?_eq_some_iff.1 hi).1, hi, Option.map_some,
      Option.map_some, hw']
  · rw [if_neg hij]

theorem Coherent.call (hf : f.Coherent) {i : Nat} {writer : Writer}
    (hi : f.writers[i]? = some writer) {call : WriteCall}
    (hcall : Path.isAbsolute call.path = true) : (f.step (.call i call)).Coherent := by
  have hstep := Repository.step_perform (r := ⟨f.store, writer⟩) hf.sound call
  have hclocked : Version.Clocked writer f.history :=
    hf.clocked writer (List.mem_of_getElem? hi)
  rw [Fleet.step, hi]
  exact {
    sound := hstep.sound hf.sound
    available := hstep.available.trans hf.available
    issued := fun stream hstream item hitem => hstep.issued (hf.issued stream hstream item hitem)
    records := hstep.records hf.records hcall
    clusters := by
      show ((f.writers.set i (call.perform ⟨f.store, writer⟩).2.writer).map Writer.cluster).Nodup
      rw [map_cluster_set hi hstep.cluster]
      exact hf.clusters
    clocked := clocked_set hf.clusters hi hf.clocked (hstep.clocked hclocked)
      fun x hx => (hstep.recorded hx).1
    nodup := hstep.nodup hclocked hf.nodup }

theorem Coherent.issued_getD (hf : f.Coherent) (n : Nat) :
    ∀ item ∈ f.streams.getD n [], f.store.Issued item := by
  intro item hitem
  rw [List.getD_eq_getElem?_getD] at hitem
  cases hn : f.streams[n]? with
  | none =>
    rw [hn] at hitem
    cases hitem
  | some stream =>
    rw [hn] at hitem
    exact hf.issued stream (List.mem_of_getElem? hn) item hitem

theorem Coherent.step (hf : f.Coherent) {move : Move}
    (hmove : ∀ call, move.call? = some call → Path.isAbsolute call.path = true) :
    (f.step move).Coherent := by
  cases move with
  | call i call =>
    cases hi : f.writers[i]? with
    | none =>
      rw [Fleet.step, hi]
      exact hf
    | some writer => exact hf.call hi (hmove call rfl)
  | find id =>
    obtain ⟨w, hfind, hw⟩ : Action.Ends (Workspace.Reads fun _ u => u)
        (Workspace.onStore (DocumentStore.find id)) f.shared (.ok (f.shared.store.stored? id)) :=
      Workspace.ends_onStore (DocumentStore.ends_find hf.sound hf.available id)
    rw [Fleet.step, hfind]
    exact hf.of_agrees hw.store hf.issued
  | openCursor range =>
    obtain ⟨result, w, hopen, hw, hitems⟩ := Workspace.openCursor_agrees hf.available range
    rw [Fleet.step, hopen]
    cases result with
    | error e => exact hf.of_agrees hw hf.issued
    | ok opened =>
      refine hf.of_agrees hw fun stream hstream item hitem => ?_
      rcases List.mem_append.1 hstream with hstream | hstream
      · exact hf.issued stream hstream item hitem
      · rw [List.mem_singleton.1 hstream] at hitem
        exact DocumentStore.issued_of_mem hf.sound (hitems _ _ rfl item hitem)
  | fetch n accepts =>
    obtain ⟨outcome, rest, w, hfetch, hw, hrest⟩ :=
      Workspace.fetch_agrees hf.available n accepts (hf.issued_getD n)
    rw [Fleet.step, hfetch]
    refine hf.of_agrees hw fun stream hmem item hitem => ?_
    rcases List.mem_or_eq_of_mem_set hmem with hmem | rfl
    · exact hf.issued stream hmem item hitem
    · exact hf.issued_getD n item (hrest.subset hitem)
  | closeCursor n => exact hf.of_agrees (Workspace.closeCursor_agrees n f.shared) hf.issued

/-- No writer can write any more what the snapshot sees. -/
def Frozen (f : Fleet) (v : RevisionVector) : Prop := ∀ w ∈ f.writers, v.Behind w

instance (f : Fleet) (v : RevisionVector) : Decidable (f.Frozen v) :=
  inferInstanceAs (Decidable (∀ w ∈ f.writers, v.Behind w))

/-- What moves add to the history: one by one the versions that their calls write, which no
snapshot sees that was frozen before. -/
structure Adds (f : Fleet) (moves : List Move) (f' : Fleet) (later : List Version) : Prop where
  history : f'.history = f.history ++ later
  clusters : f'.clusters = f.clusters
  wrote : List.Forall₂ Move.Wrote (moves.filterMap (Move.write? f.clusters)) later
  unseen : ∀ v, f.Frozen v → ∀ x ∈ later, v.sees x.revision = false
  frozen : ∀ v, f.Frozen v → f'.Frozen v

theorem Adds.nothing {f' : Fleet} {moves : List Move} (hhistory : f'.history = f.history)
    (hwriters : f'.writers = f.writers) (hmoves : moves.filterMap (Move.write? f.clusters) = []) :
    f.Adds moves f' [] where
  history := by rw [hhistory, List.append_nil]
  clusters := congrArg (List.map Writer.cluster) hwriters
  wrote := by
    rw [hmoves]
    exact .nil
  unseen v _ x hx := by cases hx
  frozen v hv := by rwa [Frozen, hwriters]

theorem Adds.append {f' f'' : Fleet} {moves moves' : List Move} {first later : List Version}
    (h : f.Adds moves f' first) (h' : f'.Adds moves' f'' later) :
    f.Adds (moves ++ moves') f'' (first ++ later) where
  history := by rw [h'.history, h.history, List.append_assoc]
  clusters := h'.clusters.trans h.clusters
  wrote := by
    rw [List.filterMap_append]
    exact List.rel_append h.wrote (h.clusters ▸ h'.wrote)
  unseen v hv x hx := by
    rcases List.mem_append.1 hx with hx | hx
    · exact h.unseen v hv x hx
    · exact h'.unseen v (h.frozen v hv) x hx
  frozen v hv := h'.frozen v (h.frozen v hv)

/-- What is added is added at the paths that are called. -/
theorem Adds.path {f' : Fleet} {moves : List Move} {later : List Version}
    (h : f.Adds moves f' later) {x : Version} (hx : x ∈ later) :
    ∃ call ∈ moves.filterMap Move.call?, x.path = call.path := by
  obtain ⟨made, hmade, -, hwrote⟩ := Move.exists_made h.wrote hx
  obtain ⟨move, hmove, hwrite⟩ := List.mem_filterMap.1 hmade
  exact ⟨made.2, List.mem_filterMap.2 ⟨move, hmove, Move.call?_of_write? hwrite⟩,
    Repository.path_of_version? hwrote⟩

theorem write?_call {i : Nat} {writer : Writer} (hi : f.writers[i]? = some writer)
    (call : WriteCall) : (Move.call i call).write? f.clusters =
      if 0 ≤ writer.cluster ∧ call.writes = true then some (writer.cluster, call) else none := by
  have hcluster : f.clusters[i]? = some writer.cluster := by
    rw [Fleet.clusters, List.getElem?_map, hi, Option.map_some]
  rw [Move.write?, hcluster, Option.filter_some]
  by_cases h : 0 ≤ writer.cluster ∧ call.writes = true
  · simp [h]
  · simp [h]

theorem Coherent.adds (hf : f.Coherent) (move : Move) :
    ∃ later, f.Adds [move] (f.step move) later := by
  cases move with
  | call i call =>
    cases hi : f.writers[i]? with
    | none =>
      have hcluster : f.clusters[i]? = none := by
        rw [Fleet.clusters, List.getElem?_map, hi, Option.map_none]
      rw [Fleet.step, hi]
      exact ⟨[], .nothing rfl rfl (by simp [Move.write?, hcluster])⟩
    | some writer =>
      have hstep := Repository.step_perform (r := ⟨f.store, writer⟩) hf.sound call
      have hwriter : writer ∈ f.writers := List.mem_of_getElem? hi
      rw [Fleet.step, hi]
      refine ⟨call.recorded (call.perform ⟨f.store, writer⟩).1, rfl,
        map_cluster_set hi hstep.cluster, ?_,
        fun v hv x hx => hstep.unseen (hv writer hwriter) hx, fun v hv w hw => ?_⟩
      · rw [List.filterMap_cons, write?_call hi]
        by_cases hcall : 0 ≤ writer.cluster ∧ call.writes = true
        · obtain ⟨x, hrecorded, hx⟩ := hstep.wrote hf.available hcall.1 hcall.2
          obtain ⟨hcluster, -⟩ := hstep.recorded (x := x) (by simp [hrecorded])
          rw [if_pos hcall, hrecorded]
          exact .cons ⟨hcluster, hx⟩ .nil
        · -- A call of `addPrevious`, or one that the writer is refused for its cluster.
          rw [if_neg hcall, hstep.recorded_eq_nil hcall]
          exact .nil
      · rcases List.mem_or_eq_of_mem_set hw with hw | rfl
        · exact hv w hw
        · exact hstep.behind (hv writer hwriter)
  | find id => exact ⟨[], .nothing rfl rfl rfl⟩
  | openCursor range =>
    obtain ⟨result, w, hopen, _⟩ := Workspace.openCursor_agrees hf.available range
    rw [Fleet.step, hopen]
    cases result with
    | error e => exact ⟨[], .nothing rfl rfl rfl⟩
    | ok opened => exact ⟨[], .nothing rfl rfl rfl⟩
  | fetch n accepts =>
    rw [Fleet.step]
    split
    · exact ⟨[], .nothing rfl rfl rfl⟩
    · exact ⟨[], .nothing rfl rfl rfl⟩
  | closeCursor n => exact ⟨[], .nothing rfl rfl rfl⟩

theorem Coherent.run (hf : f.Coherent) {moves : List Move}
    (hmoves : ∀ call ∈ moves.filterMap Move.call?, Path.isAbsolute call.path = true) :
    (f.run moves).Coherent ∧ ∃ later, f.Adds moves (f.run moves) later := by
  induction moves generalizing f with
  | nil => exact ⟨hf, [], .nothing rfl rfl rfl⟩
  | cons move moves ih =>
    obtain ⟨first, hfirst⟩ := hf.adds move
    have hstep : (f.step move).Coherent := hf.step fun call hcall =>
      hmoves call (List.mem_filterMap.2 ⟨move, List.mem_cons_self, hcall⟩)
    obtain ⟨hrun, rest, hrest⟩ := ih hstep fun call hcall => by
      obtain ⟨m, hm, hcall⟩ := List.mem_filterMap.1 hcall
      exact hmoves call (List.mem_filterMap.2 ⟨m, List.mem_cons_of_mem move hm, hcall⟩)
    exact ⟨hrun, first ++ rest, hfirst.append hrest⟩

theorem Coherent.node_eq (hf : f.Coherent) {path : String} (hpath : Path.IsNormal path)
    (hhistory : ∀ x ∈ f.history, Path.IsNormal x.path ∧ DocumentId.Apart x.path path)
    (v : RevisionVector) (writer : Writer) :
    (Repository.node path v ⟨f.store, writer⟩).1 = .ok (Version.nodeIn f.history path v) := by
  have hnode := Repository.ends_node (r := ⟨f.store, writer⟩) hf.sound hf.available path v
  rw [hnode.answer]
  exact DocumentStore.nodeAt_of_records hf.records hpath hhistory

/-- In a fleet's store each path has at each snapshot the state of the newest version that the
snapshot sees; later moves do not change it if the snapshot is frozen. The versions are, one by one,
what the writers wrote: every commit and every removal, of a writer whose cluster has revisions. -/
theorem node_run {settings : CacheSettings} {store : DocumentStore}
    (hstore : DocumentStore.create settings = .ok store) {clusters : List Int}
    (hclusters : clusters.Nodup) {moves later : List Move} {path : String}
    (hpath : Path.IsNormal path)
    (hcalls : ∀ call ∈ (moves ++ later).filterMap Move.call?,
      Path.IsNormal call.path ∧ DocumentId.Apart call.path path)
    (v : RevisionVector) (writer : Writer) :
    let f := (start store clusters).run moves
    List.Forall₂ Move.Wrote (moves.filterMap (Move.write? clusters)) f.history ∧
    (∃ found, (Repository.node path v ⟨f.store, writer⟩).1 = .ok found ∧
      Version.Found f.history path v found) ∧
    (f.Frozen v → (Repository.node path v ⟨(f.run later).store, writer⟩).1 =
      (Repository.node path v ⟨f.store, writer⟩).1) := by
  intro f
  rw [List.filterMap_append] at hcalls
  have hmoves : ∀ call ∈ moves.filterMap Move.call?,
      Path.IsNormal call.path ∧ DocumentId.Apart call.path path :=
    fun call hcall => hcalls call (List.mem_append_left _ hcall)
  have hlater : ∀ call ∈ later.filterMap Move.call?,
      Path.IsNormal call.path ∧ DocumentId.Apart call.path path :=
    fun call hcall => hcalls call (List.mem_append_right _ hcall)
  obtain ⟨hf, first, hfirst⟩ := (coherent_start hstore hclusters).run fun call hcall =>
    Path.isAbsolute_of_isNormal (hmoves call hcall).1
  have hhistory : f.history = first := hfirst.history
  have hwrote := hfirst.wrote
  rw [clusters_start, ← hhistory] at hwrote
  have hpaths : ∀ x ∈ f.history, Path.IsNormal x.path ∧ DocumentId.Apart x.path path := by
    rw [hhistory]
    intro x hx
    obtain ⟨call, hcall, hx⟩ := hfirst.path hx
    rw [hx]
    exact hmoves call hcall
  have hnode := hf.node_eq hpath hpaths v writer
  refine ⟨hwrote, ⟨_, hnode, Version.found_nodeIn hf.nodup path v⟩, fun hfrozen => ?_⟩
  obtain ⟨hf', rest, hrest⟩ := hf.run fun call hcall =>
    Path.isAbsolute_of_isNormal (hlater call hcall).1
  have hpaths' : ∀ x ∈ (f.run later).history,
      Path.IsNormal x.path ∧ DocumentId.Apart x.path path := by
    rw [hrest.history]
    intro x hx
    rcases List.mem_append.1 hx with hx | hx
    · exact hpaths x hx
    · obtain ⟨call, hcall, hx⟩ := hrest.path hx
      rw [hx]
      exact hlater call hcall
  rw [hnode, hf'.node_eq hpath hpaths' v writer, hrest.history,
    Version.nodeIn_append_of_unseen (hrest.unseen v hfrozen)]

theorem node_run_of_two_writers :
    let moves : List Move :=
      [.call 0 (.commit "/a" [("x", .number 1)] .empty none), .openCursor .all,
        .call 1 (.commit "/a" [("x", .number 2)] .empty none), .fetch 0 fun _ => true,
        .call 0 (.addPrevious "/a" 0 none .live), .call 1 (.remove "/a" none)]
    let later : List Move := [.call 0 (.commit "/a" [] .empty none), .find "1:/a"]
    let store : DocumentStore := { cache := some { limit := some 10000 } }
    let v : RevisionVector := .ofList [⟨1, 0, 1⟩, ⟨1, 0, 2⟩]
    let f := (start store [1, 2]).run moves
    List.Forall₂ Move.Wrote (moves.filterMap (Move.write? [1, 2])) f.history ∧
    f.history.map Version.revision = [⟨1, 0, 1⟩, ⟨1, 0, 2⟩, ⟨2, 0, 2⟩] ∧
    ∃ n, (Repository.node "/a" v ⟨f.store, {}⟩).1 = .ok (some n) ∧
      Version.Found f.history "/a" v (some n) ∧
      (n.lastRevision, (n.property? "x").bind Value.number?) = (some ⟨1, 0, 2⟩, some 2) ∧
      (Repository.node "/a" v ⟨(f.run later).store, {}⟩).1 = .ok (some n) := by
  intro moves later store v f
  have hstore : DocumentStore.create {} = .ok store := rfl
  obtain ⟨hwrote, ⟨found, hnode, hfound⟩, hfrozen⟩ :=
    @node_run {} store hstore [1, 2] (by decide) moves later "/a" (by decide) (by decide) v {}
  have hhistory : f.history.map Version.revision = [⟨1, 0, 1⟩, ⟨1, 0, 2⟩, ⟨2, 0, 2⟩] := by
    decide +kernel
  have hread : (Repository.node "/a" v ⟨f.store, {}⟩).1.toOption.join.map (fun n =>
      (n.lastRevision, (n.property? "x").bind Value.number?)) = some (some ⟨1, 0, 2⟩, some 2) := by
    decide +kernel
  have hlater := (hfrozen (by decide +kernel)).trans hnode
  rw [hnode] at hread
  obtain ⟨n, rfl, hn⟩ := Option.map_eq_some_iff.1 hread
  exact ⟨hwrote, hhistory, n, hnode, hfound, hn, hlater⟩

end Fleet

end VersionedTree
