import VersionedTree.Proofs.Snapshots

/-! # The history of a store

The history lists the versions that calls have written, oldest first. A store records it: each main
document is what the versions of its id make when they are put onto each other. What a snapshot
finds at a path is then the newest version of that path that it sees.
-/

namespace VersionedTree

namespace WriteCall

/-- The version that a call has written, given its answer. -/
def recorded (call : WriteCall) : Except Failure (Option Revision) → List Version
  | .ok (some revision) => (call.version? revision).toList
  | .ok none | .error _ => []

theorem recorded_of_version? {call : WriteCall} {x : Version}
    (h : call.version? x.revision = some x) : call.recorded (.ok (some x.revision)) = [x] := by
  rw [recorded, h]
  rfl

theorem version?_of_recorded {call : WriteCall} {result : Except Failure (Option Revision)}
    {x : Version} (h : x ∈ call.recorded result) : ∃ revision, call.version? revision = some x := by
  cases result with
  | error e => cases h
  | ok revision =>
    cases revision with
    | none => cases h
    | some revision => exact ⟨revision, Option.mem_toList.1 h⟩

/-- Makes calls one after the other: the versions that were written, and the repository. -/
def performAll : List WriteCall → Repository → List Version × Repository
  | [], r => ([], r)
  | call :: calls, r =>
    let (answer, r) := call.perform r
    let (later, r) := performAll calls r
    (call.recorded answer ++ later, r)

theorem performAll_cons (call : WriteCall) (calls : List WriteCall) (r : Repository) :
    performAll (call :: calls) r =
      (call.recorded (call.perform r).1 ++ (performAll calls (call.perform r).2).1,
        (performAll calls (call.perform r).2).2) := rfl

theorem version?_of_performAll {calls : List WriteCall} {r : Repository} {x : Version}
    (hx : x ∈ (performAll calls r).1) :
    ∃ call ∈ calls, ∃ revision, call.version? revision = some x := by
  induction calls generalizing r with
  | nil => cases hx
  | cons call calls ih =>
    rw [performAll] at hx
    rcases List.mem_append.1 hx with hx | hx
    · exact ⟨call, List.mem_cons_self, version?_of_recorded hx⟩
    · obtain ⟨other, hother, hversion⟩ := ih hx
      exact ⟨other, List.mem_cons_of_mem call hother, hversion⟩

end WriteCall

namespace Version

/-- The versions of an id, put onto each other. -/
def build (versions : List Version) : Option Document :=
  versions.foldl (fun d x => some (x.onto d)) none

theorem build_concat (versions : List Version) (x : Version) :
    build (versions ++ [x]) = some (x.onto (build versions)) := List.foldl_append

/-- What versions of one path make of its document. -/
theorem build_spec (path : String) {versions : List Version} (h : ∀ x ∈ versions, x.path = path)
    {d : Document} (hd : build versions = some d) :
    d.path = path ∧ (∀ v, d.newestVisible v = Document.newestAmong v (versions.map commit)) ∧
      ∃ x, versions.getLast? = some x ∧ d.modified = some x.modified := by
  induction versions using List.reverseRecOn generalizing d with
  | nil => cases hd
  | append_singleton versions x ih =>
    have hx : x.path = path := h x (by simp)
    have hversions : ∀ y ∈ versions, y.path = path :=
      fun y hy => h y (List.mem_append_left _ hy)
    rw [build_concat] at hd
    cases hd
    refine ⟨?_, fun v => ?_, x, by simp, rfl⟩
    · rw [onto, Document.withCommit_path]
      cases hbuild : build versions with
      | none => exact hx
      | some d => exact (ih hversions hbuild).1
    · rw [onto, Document.newestVisible_withCommit, List.map_append, List.map_singleton,
        Document.newestAmong_concat]
      cases hbuild : build versions with
      | none =>
        cases versions using List.reverseRecOn with
        | nil => rfl
        | append_singleton versions y => rw [build_concat] at hbuild; cases hbuild
      | some d => rw [Option.getD_some, (ih hversions hbuild).2.1]

theorem path_of_build {versions : List Version} {d : Document} (hd : build versions = some d) :
    ∃ x ∈ versions, d.path = x.path := by
  induction versions using List.reverseRecOn generalizing d with
  | nil => cases hd
  | append_singleton versions x ih =>
    rw [build_concat] at hd
    cases hd
    rw [onto, Document.withCommit_path]
    cases hbuild : build versions with
    | none => exact ⟨x, by simp, rfl⟩
    | some d =>
      obtain ⟨y, hy, hpath⟩ := ih hbuild
      exact ⟨y, List.mem_append_left _ hy, hpath⟩

theorem mem_of_build {versions : List Version} {d : Document} (hd : build versions = some d)
    {c : Commit} (hc : c ∈ d.commits) : ∃ x ∈ versions, x.commit = c := by
  induction versions using List.reverseRecOn generalizing d with
  | nil => cases hd
  | append_singleton versions x ih =>
    rw [build_concat] at hd
    cases hd
    rw [onto, Document.mem_commits_withCommit] at hc
    rcases hc with hc | rfl
    · cases hbuild : build versions with
      | none =>
        rw [hbuild] at hc
        cases hc
      | some d =>
        rw [hbuild] at hc
        obtain ⟨y, hy, hcommit⟩ := ih hbuild hc
        exact ⟨y, List.mem_append_left _ hy, hcommit⟩
    · exact ⟨x, by simp, rfl⟩

theorem build_eq_none_iff {versions : List Version} : build versions = none ↔ versions = [] := by
  constructor
  · intro h
    cases versions using List.reverseRecOn with
    | nil => rfl
    | append_singleton versions x =>
      rw [build_concat] at h
      cases h
  · rintro rfl
    rfl

/-- Versions that a snapshot does not see leave a document its path and what the snapshot finds in
it; where there was none, it finds nothing. -/
theorem build_append_of_unseen {versions later : List Version} {v : RevisionVector}
    (h : ∀ x ∈ later, v.sees x.revision = false) {d : Document}
    (hd : build (versions ++ later) = some d) :
    (build versions = none ∧ d.stateAt v = none) ∨
      ∃ d₀, build versions = some d₀ ∧ d₀.path = d.path ∧ d₀.stateAt v = d.stateAt v := by
  induction later using List.reverseRecOn generalizing d with
  | nil =>
    rw [List.append_nil] at hd
    exact .inr ⟨d, hd, rfl, rfl⟩
  | append_singleton later x ih =>
    have hlater : ∀ y ∈ later, v.sees y.revision = false :=
      fun y hy => h y (List.mem_append_left _ hy)
    have hx : v.sees x.commit.revision = false := h x (by simp)
    rw [← List.append_assoc, build_concat] at hd
    cases hd
    rw [onto, Document.stateAt_withCommit_of_unseen _ _ hx, Document.withCommit_path]
    cases hbuild : build (versions ++ later) with
    | none =>
      have hnil := build_eq_none_iff.1 hbuild
      exact .inl ⟨build_eq_none_iff.2 (List.append_eq_nil_iff.1 hnil).1, rfl⟩
    | some d => exact ih hlater hbuild

theorem exists_of_stateAt {versions : List Version} {d : Document} (hd : build versions = some d)
    {v : RevisionVector} {n : NodeState} (hn : d.stateAt v = some n) :
    ∃ x ∈ versions, n.lastRevision = some x.revision := by
  rw [Document.stateAt] at hn
  obtain ⟨c, hc, rfl⟩ := Option.map_eq_some_iff.1 hn
  rw [Document.resolve, Document.newestVisible_eq] at hc
  have hnewest := (Option.filter_eq_some_iff.1 hc).1
  obtain ⟨x, hx, rfl⟩ := mem_of_build hd ((Document.newestAmong_spec _).1 c hnewest).1
  exact ⟨x, hx, rfl⟩

/-- The node that a snapshot finds among the versions of a path. -/
def nodeIn (history : List Version) (path : String) (v : RevisionVector) : Option NodeState :=
  ((Document.newestAmong v ((history.filter fun x => x.path == path).map commit)).filter
      fun c => !c.isDeletion).map fun c =>
    { path, snapshot := some v, lastRevision := some c.revision
      properties := c.properties.getD [], bundled := c.bundled }

/-- Of the versions of a path that a snapshot sees, the one of the greatest revision. -/
structure Newest (history : List Version) (path : String) (v : RevisionVector) (x : Version) :
    Prop where
  mem : x ∈ history
  path_eq : x.path = path
  visible : v.sees x.revision = true
  greatest : ∀ y ∈ history, y.path = path → v.sees y.revision = true → y ≠ x →
    y.revision < x.revision

/-- What a snapshot is to find at a path: the state that the newest version holds, or nothing if
that is a removal or the snapshot sees no version. -/
inductive Found (history : List Version) (path : String) (v : RevisionVector) :
    Option NodeState → Prop where
  | unwritten (h : ∀ x ∈ history, x.path = path → v.sees x.revision = false) :
      Found history path v none
  | removed (x : Version) (hx : Newest history path v x) (hremoved : x.commit.properties = none) :
      Found history path v none
  | written (x : Version) (hx : Newest history path v x) (properties : Properties)
      (hwritten : x.commit.properties = some properties) :
      Found history path v
        (some { path, snapshot := some v, lastRevision := some x.revision, properties
                bundled := x.commit.bundled })

theorem newest_of_newestAmong {history : List Version} {path : String} {v : RevisionVector}
    (hnodup : (history.map revision).Nodup) {c : Commit}
    (h : Document.newestAmong v ((history.filter fun x => x.path == path).map commit) = some c) :
    ∃ x, Newest history path v x ∧ x.commit = c := by
  obtain ⟨hmem, hsees, hmax⟩ := (Document.newestAmong_spec _).1 c h
  obtain ⟨x, hx, rfl⟩ := List.mem_map.1 hmem
  obtain ⟨hx, hpath⟩ := List.mem_filter.1 hx
  refine ⟨x, ⟨hx, by simpa using hpath, hsees, ?_⟩, rfl⟩
  intro y hy hypath hysees hne
  have hle : ¬ x.revision < y.revision := by
    apply hmax y.commit _ hysees
    exact List.mem_map_of_mem (List.mem_filter.2 ⟨hy, by simpa using hypath⟩)
  rcases Revision.lt_trichotomy y.revision x.revision with hlt | heq | hlt
  · exact hlt
  · exact absurd (List.inj_on_of_nodup_map hnodup hy hx heq) hne
  · exact absurd hlt hle

theorem found_nodeIn {history : List Version} (hnodup : (history.map revision).Nodup)
    (path : String) (v : RevisionVector) : Found history path v (nodeIn history path v) := by
  rw [nodeIn]
  cases hnewest : Document.newestAmong v ((history.filter fun x => x.path == path).map commit) with
  | none =>
    refine .unwritten fun x hx hpath => ?_
    apply (Document.newestAmong_spec _).2 hnewest x.commit
    exact List.mem_map_of_mem (List.mem_filter.2 ⟨hx, by simpa using hpath⟩)
  | some c =>
    obtain ⟨x, hx, rfl⟩ := newest_of_newestAmong hnodup hnewest
    cases hproperties : x.commit.properties with
    | none =>
      have hnone : (some x.commit).filter (fun c => !c.isDeletion) = none := by
        simp [Option.filter, Commit.isDeletion, hproperties]
      rw [hnone]
      exact .removed x hx hproperties
    | some properties =>
      have hsome : (some x.commit).filter (fun c => !c.isDeletion) = some x.commit := by
        simp [Option.filter, Commit.isDeletion, hproperties]
      rw [hsome, Option.map_some, hproperties]
      exact .written x hx properties hproperties

theorem nodeIn_append_of_unseen {history later : List Version} {v : RevisionVector}
    (h : ∀ x ∈ later, v.sees x.revision = false) (path : String) :
    nodeIn (history ++ later) path v = nodeIn history path v := by
  rw [nodeIn, List.filter_append, List.map_append, Document.newestAmong_append,
    Document.foldl_newer_of_unseen]
  · rfl
  · intro c hc
    obtain ⟨x, hx, rfl⟩ := List.mem_map.1 hc
    exact h x (List.mem_of_mem_filter hx)

/-! ## Clocks -/

/-- The writer's clock has passed all revisions of its cluster. -/
def Clocked (w : Writer) (history : List Version) : Prop :=
  ∀ x ∈ history, (x.revision.cluster : Int) = w.cluster → x.revision.timestamp ≤ w.clock

end Version

namespace DocumentStore

variable {s s' : DocumentStore} {history : List Version} {p : String} {v : RevisionVector}

/-- The main documents are what the history makes of them. -/
def Records (s : DocumentStore) (history : List Version) : Prop :=
  ∀ p, Path.isAbsolute p = true →
    s.stored? (DocumentId.ofPath p) =
      Version.build (history.filter fun x => x.id == DocumentId.ofPath p)

theorem filter_id_eq {history : List Version} (hp : Path.IsNormal p)
    (hhistory : ∀ x ∈ history, Path.IsNormal x.path ∧ DocumentId.Apart x.path p) :
    history.filter (fun x => x.id == DocumentId.ofPath p) =
      history.filter fun x => x.path == p := by
  apply List.filter_congr
  intro x hx
  obtain ⟨hnormal, hapart⟩ := hhistory x hx
  rw [Bool.eq_iff_iff, beq_iff_eq, beq_iff_eq]
  constructor
  · exact DocumentId.ofPath_inj hnormal hp hapart
  · intro h
    rw [Version.id, h]

/-- What a snapshot finds at a path is determined by the versions of the path. -/
theorem nodeAt_of_records (hr : s.Records history) (hp : Path.IsNormal p)
    (hhistory : ∀ x ∈ history, Path.IsNormal x.path ∧ DocumentId.Apart x.path p) :
    s.nodeAt p v = .ok (Version.nodeIn history p v) := by
  have hstored := hr p (Path.isAbsolute_of_isNormal hp)
  rw [filter_id_eq hp hhistory] at hstored
  rw [Version.nodeIn]
  cases hbuild : Version.build (history.filter fun x => x.path == p) with
  | none =>
    rw [hbuild] at hstored
    rw [nodeAt_of_none hstored, Version.build_eq_none_iff.1 hbuild]
    rfl
  | some d =>
    rw [hbuild] at hstored
    obtain ⟨hpath, hnewest, _⟩ := Version.build_spec p
      (fun x hx => by simpa using (List.mem_filter.1 hx).2) hbuild
    rw [nodeAt_of_stored hstored hpath, Document.stateAt, Document.resolve, hnewest, hpath]

theorem exists_of_nodeAt {n : NodeState} (h : s.nodeAt p v = .ok (some n)) :
    ∃ d, s.stored? (DocumentId.ofPath p) = some d ∧ d.path = p ∧ d.stateAt v = some n := by
  rw [nodeAt] at h
  split at h
  · cases h
  · rename_i d hd
    split at h
    · rename_i hpath
      exact ⟨d, hd, hpath, Except.ok.inj h⟩
    · cases h

theorem path_of_nodeAt {n : NodeState} (h : s.nodeAt p v = .ok (some n)) : n.path = p := by
  obtain ⟨d, -, hpath, hstate⟩ := exists_of_nodeAt h
  obtain ⟨c, -, rfl⟩ := Option.map_eq_some_iff.1 hstate
  exact hpath

/-- The last revision tells the nodes of one snapshot apart. -/
theorem nodeAt_inj (hr : s.Records history) (hnodup : (history.map Version.revision).Nodup)
    {p' : String} (hp : Path.isAbsolute p = true) (hp' : Path.isAbsolute p' = true)
    {n n' : NodeState} (hn : s.nodeAt p v = .ok (some n)) (hn' : s.nodeAt p' v = .ok (some n'))
    (hrevision : n.lastRevision = n'.lastRevision) : n = n' := by
  obtain ⟨d, hd, rfl, hstate⟩ := exists_of_nodeAt hn
  obtain ⟨d', hd', rfl, hstate'⟩ := exists_of_nodeAt hn'
  have hbuild := (hr d.path hp).symm.trans hd
  have hbuild' := (hr d'.path hp').symm.trans hd'
  obtain ⟨x, hx, hxn⟩ := Version.exists_of_stateAt hbuild hstate
  obtain ⟨x', hx', hxn'⟩ := Version.exists_of_stateAt hbuild' hstate'
  obtain ⟨hx, hid⟩ := List.mem_filter.1 hx
  obtain ⟨hx', hid'⟩ := List.mem_filter.1 hx'
  rw [hxn, hxn'] at hrevision
  have hsame : x = x' := List.inj_on_of_nodup_map hnodup hx hx' (Option.some.inj hrevision)
  subst hsame
  have hids : DocumentId.ofPath d.path = DocumentId.ofPath d'.path :=
    (eq_of_beq hid).symm.trans (eq_of_beq hid')
  rw [hids, hd'] at hd
  cases hd
  rw [hstate'] at hstate
  exact (Option.some.inj hstate).symm

/-- A snapshot finds at the paths of main documents what it found before versions came that it
does not see. -/
theorem nodeAt_of_unseen {later : List Version} (hr : s.Records history)
    (hr' : s'.Records (history ++ later)) (hlater : ∀ x ∈ later, v.sees x.revision = false)
    (hp : Path.isAbsolute p = true) (ho : s'.Owns p) : s'.nodeAt p v = s.nodeAt p v := by
  obtain ⟨d, hd, hpath⟩ := ho
  have hbuild := (hr' p hp).symm.trans hd
  rw [List.filter_append] at hbuild
  have hstored := hr p hp
  rw [nodeAt_of_stored hd hpath]
  rcases Version.build_append_of_unseen (v := v)
      (fun x hx => hlater x (List.mem_of_mem_filter hx)) hbuild with
    ⟨hnone, hstate⟩ | ⟨d₀, hd₀, hpath₀, hstate⟩
  · rw [hnone] at hstored
    rw [hstate, nodeAt_of_none hstored]
  · rw [hd₀] at hstored
    rw [← hstate, nodeAt_of_stored hstored (hpath₀.trans hpath)]

theorem Agrees.records (h : s.Agrees s') (hr : s.Records history) : s'.Records history := by
  intro p hp
  rw [h.stored?]
  exact hr p hp

theorem records_of_empty (h : s.catalog = .empty) : s.Records [] := by
  intro p _
  rw [stored?, h]
  rfl

end DocumentStore

namespace Repository

variable {r r' : Repository} {history : List Version} {call : WriteCall}
  {result : Except Failure (Option Revision)}

theorem Step.records (h : Step r call result r') (hr : r.store.Records history)
    (hcall : Path.isAbsolute call.path = true) :
    r'.store.Records (history ++ call.recorded result) := by
  intro p hp
  cases h with
  | version n x hcluster hrevision hversion ha =>
    have hx : Path.isAbsolute x.path = true := by
      rwa [path_of_version? hversion]
    rw [WriteCall.recorded_of_version? hversion, List.filter_append]
    by_cases hid : DocumentId.ofPath p = x.id
    · rw [hid, stored?_onto, Version.id, hr x.path hx, List.filter_singleton]
      have hself : (x.id == DocumentId.ofPath x.path) = true := beq_self_eq_true _
      rw [hself, cond_true, Version.build_concat]
    · rw [DocumentStore.stored?_written_of_ne (by rwa [onto_id]), hr p hp, List.filter_singleton]
      have hother : (x.id == DocumentId.ofPath p) = false := by
        simpa using fun h => hid h.symm
      rw [hother]
      simp
  | previous s path height modified split revision hs heq =>
    have hne : DocumentId.ofPath p ≠ DocumentId.previous path revision height :=
      (DocumentId.previous_ne_ofPath hp revision height).symm
    rw [DocumentStore.stored?_written_of_ne hne, hs.stored?, hr p hp, WriteCall.recorded,
      List.append_nil]
  | refused e s clock hs =>
    rw [hs.stored?, hr p hp, WriteCall.recorded, List.append_nil]

/-- All that is recorded comes from the writer, at the next tick of its clock. -/
theorem Step.recorded (h : Step r call result r') {x : Version} (hx : x ∈ call.recorded result) :
    (x.revision.cluster : Int) = r.writer.cluster ∧
      x.revision.timestamp = r.writer.clock + 1 ∧ r'.writer.clock = r.writer.clock + 1 ∧
      x.path = call.path ∧ call.recorded result = [x] := by
  cases h with
  | version n y hcluster hrevision hversion ha =>
    rw [WriteCall.recorded_of_version? hversion] at hx ⊢
    obtain rfl := List.mem_singleton.1 hx
    rw [hrevision, hcluster]
    exact ⟨rfl, rfl, rfl, path_of_version? hversion, rfl⟩
  | previous => cases hx
  | refused => cases hx

/-- On an available store a writer whose cluster has revisions succeeds with each call that
writes. -/
theorem Step.wrote (h : Step r call result r') (ha : r.store.available = true)
    (hcluster : 0 ≤ r.writer.cluster) (hcall : call.writes = true) :
    ∃ x, call.recorded result = [x] ∧ call.Wrote x := by
  cases h with
  | version n x _ _ hversion _ => exact ⟨x, WriteCall.recorded_of_version? hversion, hversion⟩
  | previous s path height modified split revision _ heq =>
    subst heq
    cases hcall
  | refused e s clock _ _ hcause =>
    rcases hcause with hlost | hnegative
    · rw [ha] at hlost
      cases hlost
    · exact absurd hcluster (by omega)

/-- Nothing is recorded of a call that writes no version, or that has no revision to write it
at. -/
theorem Step.recorded_eq_nil (h : Step r call result r')
    (hcall : ¬ (0 ≤ r.writer.cluster ∧ call.writes = true)) : call.recorded result = [] := by
  cases h with
  | version n x hcluster _ hversion _ =>
    refine absurd ⟨by omega, ?_⟩ hcall
    cases call with
    | commit | remove => rfl
    | addPrevious => cases hversion
  | previous => rfl
  | refused => rfl

theorem Step.unseen (h : Step r call result r') {v : RevisionVector} (hv : v.Behind r.writer)
    {x : Version} (hx : x ∈ call.recorded result) : v.sees x.revision = false := by
  cases h with
  | version n y hcluster hrevision hversion ha =>
    rw [WriteCall.recorded_of_version? hversion] at hx
    obtain rfl := List.mem_singleton.1 hx
    exact RevisionVector.sees_of_behind hv hcluster hrevision
  | previous => cases hx
  | refused => cases hx

theorem Step.cluster (h : Step r call result r') : r'.writer.cluster = r.writer.cluster := by
  cases h <;> rfl

theorem Step.clock (h : Step r call result r') : r.writer.clock ≤ r'.writer.clock := by
  cases h with
  | version => exact Nat.le_succ _
  | previous => exact Nat.le_refl _
  | refused e s clock hs hclock => exact hclock

theorem Step.clocked (h : Step r call result r') (hclocked : Version.Clocked r.writer history) :
    Version.Clocked r'.writer (history ++ call.recorded result) := by
  intro x hx hcluster
  rcases List.mem_append.1 hx with hx | hx
  · rw [h.cluster] at hcluster
    exact Nat.le_trans (hclocked x hx hcluster) h.clock
  · obtain ⟨_, htimestamp, hclock, _⟩ := h.recorded hx
    omega

theorem Step.nodup (h : Step r call result r') (hclocked : Version.Clocked r.writer history)
    (hnodup : (history.map Version.revision).Nodup) :
    ((history ++ call.recorded result).map Version.revision).Nodup := by
  rw [List.map_append]
  refine List.nodup_append.2 ⟨hnodup, ?_, ?_⟩
  · cases hrecorded : call.recorded result with
    | nil => exact .nil
    | cons x rest =>
      obtain ⟨_, _, _, _, hsingle⟩ := h.recorded (x := x) (by simp [hrecorded])
      rw [hrecorded] at hsingle
      obtain ⟨_, rfl⟩ := List.cons.inj hsingle
      simp
  · intro a ha b hb heq
    obtain ⟨x, hx, rfl⟩ := List.mem_map.1 ha
    obtain ⟨y, hy, rfl⟩ := List.mem_map.1 hb
    obtain ⟨hcluster, htimestamp, _⟩ := h.recorded hy
    have hle := hclocked x hx (by rw [heq, hcluster])
    rw [heq] at hle
    omega

/-- The repository records a history, whose revisions are all different. -/
structure Recorded (history : List Version) (r : Repository) : Prop where
  kept : r.Kept
  records : r.store.Records history
  clocked : Version.Clocked r.writer history
  nodup : (history.map Version.revision).Nodup

theorem recorded_create {settings : CacheSettings} {store : DocumentStore}
    (hstore : DocumentStore.create settings = .ok store) (cluster : Int) :
    Recorded [] ⟨store, { cluster }⟩ := by
  obtain ⟨hk, hempty⟩ := kept_create hstore { cluster }
  exact ⟨hk, DocumentStore.records_of_empty hempty, fun x hx => (by cases hx), .nil⟩

theorem Agrees.recorded (h : r.Agrees r') (hr : r.Recorded history) : r'.Recorded history := by
  refine ⟨h.kept hr.kept, h.1.records hr.records, ?_, hr.nodup⟩
  rw [h.2]
  exact hr.clocked

theorem recorded_perform (h : r.Recorded history) (hcall : call.Admissible) :
    (call.perform r).2.Recorded (history ++ call.recorded (call.perform r).1) := by
  have hstep := step_perform h.kept.sound call
  exact ⟨hstep.kept h.kept hcall, hstep.records h.records hcall.isAbsolute,
    hstep.clocked h.clocked, hstep.nodup h.clocked h.nodup⟩

theorem recorded_performAll (h : r.Recorded history) {calls : List WriteCall}
    (hcalls : ∀ call ∈ calls, call.Admissible) :
    (WriteCall.performAll calls r).2.Recorded (history ++ (WriteCall.performAll calls r).1) := by
  induction calls generalizing r history with
  | nil =>
    rw [WriteCall.performAll, List.append_nil]
    exact h
  | cons call calls ih =>
    rw [WriteCall.performAll, ← List.append_assoc]
    exact ih (recorded_perform h (hcalls call List.mem_cons_self))
      fun x hx => hcalls x (List.mem_cons_of_mem call hx)

theorem map_path_of_wrote {calls : List WriteCall} {versions : List Version}
    (h : List.Forall₂ WriteCall.Wrote calls versions) :
    versions.map Version.path = calls.map WriteCall.path := by
  induction h with
  | nil => rfl
  | cons hx _ ih => rw [List.map_cons, List.map_cons, ih, path_of_version? hx]

/-- The paths that were written are those of the calls that write. -/
theorem exists_path_iff {calls : List WriteCall} {versions : List Version}
    (h : List.Forall₂ WriteCall.Wrote (calls.filter WriteCall.writes) versions) {p : String} :
    (∃ x ∈ versions, x.path = p) ↔ ∃ call ∈ calls, call.writes = true ∧ call.path = p := by
  rw [← List.mem_map, map_path_of_wrote h, List.mem_map]
  simp only [List.mem_filter, and_assoc]

theorem cluster_performAll (hk : r.Kept) {calls : List WriteCall}
    (hcalls : ∀ call ∈ calls, call.Admissible) :
    (WriteCall.performAll calls r).2.writer.cluster = r.writer.cluster := by
  induction calls generalizing r with
  | nil => rfl
  | cons call calls ih =>
    obtain ⟨hcall, hrest⟩ := List.forall_mem_cons.1 hcalls
    have hstep := step_perform hk.sound call
    rw [WriteCall.performAll_cons]
    exact (ih (hstep.kept hk hcall) hrest).trans hstep.cluster

/-- If the writer's cluster has revisions, then the versions that were written are, one by one and
in this order, those of the calls that write. -/
theorem wrote_performAll (hk : r.Kept) (hcluster : 0 ≤ r.writer.cluster) {calls : List WriteCall}
    (hcalls : ∀ call ∈ calls, call.Admissible) :
    List.Forall₂ WriteCall.Wrote (calls.filter WriteCall.writes)
      (WriteCall.performAll calls r).1 := by
  induction calls generalizing r with
  | nil => exact .nil
  | cons call calls ih =>
    obtain ⟨hcall, hrest⟩ := List.forall_mem_cons.1 hcalls
    have hstep := step_perform hk.sound call
    have hlater := ih (hstep.kept hk hcall) (hstep.cluster ▸ hcluster) hrest
    rw [WriteCall.performAll_cons]
    cases hwrites : call.writes with
    | true =>
      obtain ⟨x, hrecorded, hx⟩ := hstep.wrote hk.available hcluster hwrites
      rw [List.filter_cons_of_pos hwrites, hrecorded]
      exact .cons hx hlater
    | false =>
      have hnone : ¬ (0 ≤ r.writer.cluster ∧ call.writes = true) := by simp [hwrites]
      rw [List.filter_cons_of_neg (by simp [hwrites]), hstep.recorded_eq_nil hnone]
      exact hlater

theorem unseen_performAll {v : RevisionVector} (hv : v.Behind r.writer) (hk : r.Kept)
    {calls : List WriteCall} (hcalls : ∀ call ∈ calls, call.Admissible) :
    v.Behind (WriteCall.performAll calls r).2.writer ∧
      ∀ x ∈ (WriteCall.performAll calls r).1, v.sees x.revision = false := by
  induction calls generalizing r with
  | nil => exact ⟨hv, fun x hx => by cases hx⟩
  | cons call calls ih =>
    have hstep := step_perform hk.sound call
    have hcall := hcalls call List.mem_cons_self
    obtain ⟨hbehind, hunseen⟩ := ih (hstep.behind hv) (hstep.kept hk hcall)
      fun x hx => hcalls x (List.mem_cons_of_mem call hx)
    rw [WriteCall.performAll]
    refine ⟨hbehind, fun x hx => ?_⟩
    rcases List.mem_append.1 hx with hx | hx
    · exact hstep.unseen hv hx
    · exact hunseen x hx

end Repository

end VersionedTree
