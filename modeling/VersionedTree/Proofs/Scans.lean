import VersionedTree.Proofs.Yields

/-! # Steps of a scan

What a scan has still to deliver is what is left of the document visited last, followed by what the
documents still to be visited yield. A step takes the first entry off, fails once no entry is left
before a failure, and ends the scan once nothing is left.
-/

namespace VersionedTree

namespace DocumentStore

variable {s s' : DocumentStore} {range : TimeRange}

/-- The documents that a scan goes through if it can be opened. -/
def scannable (s : DocumentStore) (range : TimeRange) : Except Failure (List Stored) := do
  (requireAvailable s).1
  s.requireTimes range
  return s.select range

theorem openScan_apply (range : TimeRange) (s : DocumentStore) :
    openScan range s = match s.scannable range with
      | .error e => (.error e, s)
      | .ok items => (.ok items,
        { s with openCursors := s.openCursors + 1, queries := s.queries + 1 }) := by
  rw [openScan, scannable, Action.bind_apply, requireAvailable]
  by_cases ha : s.available = true
  · simp only [if_pos ha, Action.bind_apply, Action.get_apply]
    cases s.requireTimes range <;> rfl
  · simp only [if_neg ha]
    rfl

theorem openScan_of_error {e : Failure} (h : s.scannable range = .error e) :
    openScan range s = (.error e, s) := by
  rw [openScan_apply, h]

theorem openScan_of_ok {items : List Stored} (h : s.scannable range = .ok items) :
    openScan range s = (.ok items,
      { s with openCursors := s.openCursors + 1, queries := s.queries + 1 }) := by
  rw [openScan_apply, h]

theorem of_scannable_eq_ok {items : List Stored} (h : s.scannable range = .ok items) :
    s.available = true ∧ items = s.select range := by
  rw [scannable, requireAvailable] at h
  by_cases ha : s.available = true
  · rw [if_pos ha] at h
    cases htimes : s.requireTimes range with
    | error e =>
      rw [htimes] at h
      cases h
    | ok =>
      rw [htimes] at h
      cases h
      exact ⟨ha, rfl⟩
  · rw [if_neg ha] at h
    cases h

theorem scannable_of_available (ha : s.available = true) (range : TimeRange) :
    s.scannable range = (s.requireTimes range).map fun _ => s.select range := by
  rw [scannable, requireAvailable, if_pos ha]
  cases s.requireTimes range <;> rfl

theorem scannable_eq_ok (ha : s.available = true) (htimes : s.requireTimes range = .ok ()) :
    s.scannable range = .ok (s.select range) := by
  rw [scannable_of_available ha, htimes]
  rfl

theorem Agrees.scannable (h : s.Agrees s') (range : TimeRange) :
    s'.scannable range = s.scannable range := by
  rw [DocumentStore.scannable, DocumentStore.scannable, requireAvailable, requireAvailable,
    h.available, h.requireTimes, h.select]

theorem issued_scannable {items : List Stored} (hs : s.Sound) (h : s.scannable range = .ok items) :
    ∀ item ∈ items, s.Issued item := by
  intro item hitem
  rw [(of_scannable_eq_ok h).2] at hitem
  exact issued_of_mem hs (List.mem_of_mem_filter hitem)

theorem ends_openScan (ha : s.available = true) (range : TimeRange) :
    Action.Ends Agrees (openScan range) s
      ((s.requireTimes range).map fun _ => s.select range) := by
  rw [← scannable_of_available ha]
  cases h : s.scannable range with
  | error e => exact ⟨s, openScan_of_error h, .refl s⟩
  | ok items =>
    exact ⟨_, openScan_of_ok h,
      agrees_of_cache rfl rfl rfl fun cache h => ⟨cache, h, fun _ => .inl⟩⟩

theorem requireTimes_all (s : DocumentStore) : s.requireTimes .all = .ok () := rfl

theorem select_all (s : DocumentStore) : s.select .all = s.catalog.items :=
  List.filter_eq_self.2 fun _ _ => rfl

end DocumentStore

/-- The cursor of a range when it is opened. -/
def Cursor.ofRange (range : TimeRange) : Cursor :=
  { description := "nodes " ++ range.text, releases := [⟨.stream, none⟩, ⟨.count, none⟩] }

theorem Cursor.closable_ofRange (range : TimeRange) : (ofRange range).Closable :=
  ⟨rfl, by simp [ofRange]⟩

namespace Workspace

variable {υ : Type} {w : Workspace υ} {range : TimeRange}

theorem openCursor_of_error {e : Failure} (h : w.store.scannable range = .error e) :
    openCursor range w = (.error e, w) := by
  have hscan : DocumentStore.openScan range w.repository.store = (.error e, w.repository.store) :=
    DocumentStore.openScan_of_error h
  simp only [openCursor, Action.bind_apply, onStore, onRepository, Repository.onStore, Action.zoom,
    hscan]

/-- The workspace after a cursor was opened on these documents. -/
def cursorOpened (range : TimeRange) (items : List Stored) (w : Workspace υ) : Workspace υ :=
  { w with
    repository.store :=
      { w.store with openCursors := w.store.openCursors + 1, queries := w.store.queries + 1 }
    cursors := w.cursors ++ [.ofRange range]
    log := w.log ++ [.queryOpened range items.length] }

theorem agrees_cursorOpened (range : TimeRange) (items : List Stored) (w : Workspace υ) :
    w.store.Agrees (w.cursorOpened range items).store :=
  DocumentStore.agrees_of_cache rfl rfl rfl fun cache h => ⟨cache, h, fun _ => .inl⟩

theorem openCursor_of_ok {items : List Stored} (h : w.store.scannable range = .ok items) :
    openCursor range w = (.ok (w.cursors.length, items), w.cursorOpened range items) := by
  have hscan : DocumentStore.openScan range w.repository.store = (.ok items,
      { w.store with openCursors := w.store.openCursors + 1, queries := w.store.queries + 1 }) :=
    DocumentStore.openScan_of_ok h
  simp only [openCursor, Action.bind_apply, onStore, onRepository, Repository.onStore, Action.zoom,
    hscan]
  rfl

end Workspace

namespace Traverser

variable {υ : Type} {t : Traverser υ} {w : Workspace υ}

/-- The workspace while a traverser opens a scan, which has its tally already. -/
def tallied (t : Traverser υ) : Workspace υ → Workspace υ :=
  t.modifyState fun s => { s with tallies := s.tallies ++ [{}] }

theorem openScan_of_error (hbackend : t.backend = .memory) {e : Failure}
    (h : w.store.scannable t.range = .error e) (v : RevisionVector) :
    t.openScan v w = (.error e, t.tallied w) := by
  have hopen : t.backend.openCursor t.range (t.tallied w) = (.error e, t.tallied w) := by
    rw [hbackend]
    exact Workspace.openCursor_of_error h
  rw [tallied] at hopen ⊢
  simp only [openScan, Action.bind_apply, Action.get_apply, Action.modify_apply, hopen]

theorem openScan_of_ok (hbackend : t.backend = .memory) {items : List Stored}
    (h : w.store.scannable t.range = .ok items) (v : RevisionVector) :
    t.openScan v w =
      (.ok { tally := (t.state w).tallies.length, cursor := w.cursors.length, snapshot := v
             hiddenRoots := (t.state w).hiddenRoots, remaining := items },
        .noted (.scanStarted t.label t.range v) <|
          t.modifyState (fun s => { s with closer := s.closer.register w.cursors.length }) <|
            (t.tallied w).cursorOpened t.range items) := by
  have hopen : t.backend.openCursor t.range (t.tallied w) =
      (.ok (w.cursors.length, items), (t.tallied w).cursorOpened t.range items) := by
    rw [hbackend]
    exact Workspace.openCursor_of_ok h
  rw [tallied] at hopen ⊢
  simp only [openScan, Action.bind_apply, Action.get_apply, Action.modify_apply, hopen]
  rfl

theorem remaining_of_openScan (hbackend : t.backend = .memory) {v : RevisionVector} {scan : Scan}
    {w' : Workspace υ} (h : t.openScan v w = (.ok scan, w')) :
    scan.snapshot = v ∧ scan.remaining = w.store.select t.range := by
  cases hscannable : w.store.scannable t.range with
  | error e =>
    rw [openScan_of_error hbackend hscannable] at h
    cases h
  | ok items =>
    rw [openScan_of_ok hbackend hscannable] at h
    cases h
    exact ⟨rfl, (DocumentStore.of_scannable_eq_ok hscannable).2⟩

end Traverser

/-- What visiting a document delivers. -/
def Visit.yield (modified : Option Modified) : Except Failure Visit → Yield Entry
  | .ok (.found first more) => ⟨(first :: more.states).map (Entry.ofState modified), more.failure⟩
  | .ok _ => {}
  | .error e => ⟨[], some e⟩

namespace Scan

/-- What a scan has still to deliver from the documents of a store. -/
def due (scan : Scan) (s : DocumentStore) (accepts : String → Bool) : Yield Entry :=
  (⟨scan.pending.states.map (Entry.ofState scan.modified), scan.pending.failure⟩ : Yield Entry) ++
    s.yields scan.snapshot (Traverser.allows accepts scan.hiddenRoots) scan.remaining

/-- The scan goes on from another one, with the same cursor and snapshot. -/
structure Continues (scan scan' : Scan) : Prop where
  cursor : scan'.cursor = scan.cursor
  snapshot : scan'.snapshot = scan.snapshot
  hiddenRoots : scan'.hiddenRoots = scan.hiddenRoots
  remaining : scan'.remaining <:+ scan.remaining

/-- The scan can go on: its cursor is open and its documents came from the store, where each main
one still has its place. -/
structure Ready {υ : Type} (scan : Scan) (w : Workspace υ) : Prop where
  isOpen : w.IsOpen scan.cursor
  issued : ∀ item ∈ scan.remaining, w.store.Issued item
  arranged : ∀ item ∈ scan.remaining, item.document.IsMain ∨ item.document.IsSplitOff
  owns : ∀ item ∈ scan.remaining, item.document.IsMain → w.store.Owns item.document.path

theorem Continues.ready {υ : Type} {scan scan' : Scan} {w : Workspace υ}
    (h : scan.Continues scan') (hr : scan.Ready w) : scan'.Ready w := by
  refine ⟨?_, fun item hitem => hr.issued item (h.remaining.subset hitem),
    fun item hitem => hr.arranged item (h.remaining.subset hitem),
    fun item hitem => hr.owns item (h.remaining.subset hitem)⟩
  rw [h.cursor]
  exact hr.isOpen

theorem Ready.of_looks {υ : Type} {scan : Scan} {w w' : Workspace υ} (hr : scan.Ready w)
    (h : w.Looks w') : scan.Ready w' :=
  ⟨hr.isOpen.mono h.cursors, fun item hitem => h.store.issued (hr.issued item hitem), hr.arranged,
    fun item hitem hmain => h.store.owns (hr.owns item hitem hmain)⟩

end Scan

/-- The outcome of a step takes the first entry off what was due. -/
inductive Takes (s : DocumentStore) (accepts : String → Bool) (scan : Scan) :
    Yield Entry → Except Failure Step → Prop where
  | entry (e : Entry) (rest : Yield Entry) (scan' : Scan) (hscan : scan.Continues scan')
      (hdue : scan'.due s accepts = rest) :
      Takes s accepts scan ⟨e :: rest.items, rest.failure⟩ (.ok (.entry e (.scanning scan')))
  | failed (e : Failure) : Takes s accepts scan ⟨[], some e⟩ (.error e)
  | finished : Takes s accepts scan {} (.ok .finished)

theorem Takes.of_reads {υ : Type} {report : String → υ → υ} {w w' : Workspace υ}
    {accepts visible : String → Bool} {scan : Scan} {v : RevisionVector} {items : List Stored}
    {result : Except Failure Step}
    (h : Takes w'.store accepts scan (w'.store.yields v visible items) result)
    (hw : w.Reads report w') :
    Takes w.store accepts scan (w.store.yields v visible items) result := by
  rw [hw.store.yields] at h
  generalize w.store.yields v visible items = y at h ⊢
  cases h with
  | entry e rest scan' hscan hdue =>
    refine .entry e rest scan' hscan ?_
    rwa [Scan.due, hw.store.yields] at hdue
  | failed e => exact .failed e
  | finished => exact .finished

namespace Traverser

variable {υ : Type} {t : Traverser υ} {accepts : String → Bool} {report : String → υ → υ}
  {w : Workspace υ} {scan : Scan} {item : Stored} {v : RevisionVector}

theorem present_of_nodeAt {s : DocumentStore} {p : String} {n : NodeState}
    (h : s.nodeAt p v = .ok (some n)) : n.present = true := by
  rw [DocumentStore.nodeAt] at h
  split at h
  · cases h
  · split at h
    · rename_i d _ _
      have h : d.stateAt v = some n := by injection h
      obtain ⟨c, _, rfl⟩ := Option.map_eq_some_iff.1 h
      rfl
    · cases h

theorem ends_materialize (ht : t.IsPlain accepts report) (hs : w.store.Sound)
    (ha : w.store.available = true) (d : Document) :
    Action.Ends (Workspace.Reads report) (t.materialize d v) w
      ((w.store.nodeAt d.path v).map (Option.map fun n => (n, n.descendants))) := by
  have hnode : Action.Ends (Workspace.Reads report) (t.backend.node d.path v) w
      (w.store.nodeAt d.path v) := by
    rw [ht.backend]
    exact Workspace.ends_onRepository (Repository.ends_node hs ha d.path v)
  cases hn : w.store.nodeAt d.path v with
  | error e =>
    rw [hn] at hnode
    exact hnode.bind_error _
  | ok found =>
    rw [hn] at hnode
    refine hnode.bind_ok fun w₁ _ => ?_
    cases found with
    | none => exact Action.ends_pure (.refl w₁) _
    | some n =>
      have hunfold : t.unfold n = .ok n.descendants := by
        rw [unfold, ht.delivery]
      simp only [present_of_nodeAt hn, if_true, hunfold]
      exact (Action.ends_ofExcept (.refl w₁) (.ok n.descendants)).bind_ok fun w₂ _ =>
        Action.ends_pure (.refl w₂) _

/-- What visiting comes to when the node of a document was looked for. -/
def delivered : Option (NodeState × Expansion) → Visit
  | some (first, more) => .found first more
  | none => .dropped

theorem yield_delivered (modified : Option Modified) (r : Except Failure (Option NodeState)) :
    Visit.yield modified ((r.map (Option.map fun n => (n, n.descendants))).map delivered) =
      DocumentStore.yieldOfNode modified r := by
  cases r with
  | error e => rfl
  | ok n =>
    cases n with
    | none => rfl
    | some n => rfl

/-- What becomes of visiting a document, whatever its id. -/
def visitOutcome (s : DocumentStore) (v : RevisionVector) (accepts : String → Bool)
    (hiddenRoots : List String) (item : Stored) : Except Failure Visit :=
  match idOutcome accepts hiddenRoots item.id with
  | .error e => .error e
  | .ok false => .ok .skipped
  | .ok true =>
    if !item.document.isSplit && allows accepts hiddenRoots item.document.path then
      ((s.nodeAt item.document.path v).map (Option.map fun n => (n, n.descendants))).map delivered
    else .ok .dropped

theorem ends_visit (ht : t.IsPlain accepts report) (scan : Scan) (hs : w.store.Sound)
    (ha : w.store.available = true) (hi : w.store.Issued item) :
    Action.Ends (Workspace.Reads report) (t.visit scan item) w
      (visitOutcome w.store scan.snapshot accepts scan.hiddenRoots item) := by
  have hoffer : Action.Ends (Workspace.Reads report)
      (Workspace.offer (t.filter scan).includeId item) w
      (idOutcome accepts scan.hiddenRoots item.id) :=
    Workspace.ends_offer ha hi fun _ _ => ends_includeId ht item.id
  rw [visitOutcome]
  cases hid : idOutcome accepts scan.hiddenRoots item.id with
  | error e =>
    rw [hid] at hoffer
    exact hoffer.bind_error _
  | ok passes =>
    rw [hid] at hoffer
    cases passes with
    | false => exact hoffer.bind_ok fun w₁ _ => Action.ends_pure (.refl w₁) _
    | true =>
      refine hoffer.bind_ok fun w₁ h₁ => ?_
      have hinclude := ends_includeDocument ht scan w₁ item.document
      dsimp only
      cases hallowed : !item.document.isSplit &&
          allows accepts scan.hiddenRoots item.document.path with
      | false =>
        rw [hallowed] at hinclude
        exact hinclude.bind_ok fun w₂ _ => Action.ends_pure (.refl w₂) _
      | true =>
        rw [hallowed] at hinclude
        refine hinclude.bind_ok fun w₂ h₂ => ?_
        have h₂ : w.Reads report w₂ := h₁.trans h₂
        have hmaterialize := ends_materialize (v := scan.snapshot) ht (h₂.store.sound hs)
          (h₂.store.available.trans ha) item.document
        have hnode : w₂.store.nodeAt item.document.path scan.snapshot =
            w.store.nodeAt item.document.path scan.snapshot := h₂.store.nodeAt _ _
        rw [hnode] at hmaterialize
        refine hmaterialize.bind_pure fun found => ?_
        cases found with
        | none => rfl
        | some n => rfl

theorem yield_visitOutcome (s : DocumentStore) (v : RevisionVector) (accepts : String → Bool)
    (hiddenRoots : List String) (hd : item.document.IsMain ∨ item.document.IsSplitOff) :
    Visit.yield item.document.modified (visitOutcome s v accepts hiddenRoots item) =
      s.yieldOf v (allows accepts hiddenRoots) item := by
  rw [visitOutcome, idOutcome_eq accepts hiddenRoots hd]
  by_cases hallowed : (!item.document.isSplit &&
      allows accepts hiddenRoots item.document.path) = true
  · obtain ⟨hlive, hallows⟩ : item.document.isSplit = false ∧
        allows accepts hiddenRoots item.document.path = true := by
      simpa using hallowed
    have hpasses : passesId accepts hiddenRoots item.document = true := by
      rw [passesId, hallows, Bool.or_true]
    simp only [hpasses, hallowed, if_true]
    rw [yield_delivered, DocumentStore.yieldOf_of_accepted hlive hallows]
  · have hnone : s.yieldOf v (allows accepts hiddenRoots) item = {} := by
      rw [DocumentStore.yieldOf, if_neg]
      simpa using hallowed
    rw [hnone]
    cases passesId accepts hiddenRoots item.document with
    | true =>
      simp only [if_neg hallowed]
      rfl
    | false => rfl

/-- What visiting documents one after the other delivers. -/
def visits (s : DocumentStore) (v : RevisionVector) (accepts : String → Bool)
    (hiddenRoots : List String) (items : List Stored) : Yield Entry :=
  Yield.flatMap
    (fun item => Visit.yield item.document.modified (visitOutcome s v accepts hiddenRoots item))
    items

theorem visits_cons (s : DocumentStore) (v : RevisionVector) (accepts : String → Bool)
    (hiddenRoots : List String) (item : Stored) (items : List Stored) :
    visits s v accepts hiddenRoots (item :: items) =
      Visit.yield item.document.modified (visitOutcome s v accepts hiddenRoots item) ++
        visits s v accepts hiddenRoots items := rfl

theorem visits_eq {s : DocumentStore} {items : List Stored} (accepts : String → Bool)
    (hiddenRoots : List String)
    (h : ∀ item ∈ items, item.document.IsMain ∨ item.document.IsSplitOff) :
    visits s v accepts hiddenRoots items = s.yields v (allows accepts hiddenRoots) items :=
  Yield.flatMap_congr fun item hitem => yield_visitOutcome s v accepts hiddenRoots (h item hitem)

theorem visits_of_agrees {s s' : DocumentStore} (h : s.Agrees s') (v : RevisionVector)
    (accepts : String → Bool) (hiddenRoots : List String) (items : List Stored) :
    visits s' v accepts hiddenRoots items = visits s v accepts hiddenRoots items :=
  Yield.flatMap_congr fun item _ => by rw [visitOutcome, visitOutcome, h.nodeAt]

theorem ends_complete (report : String → υ → υ) (t : Traverser υ) (scan : Scan) (produced : Nat)
    (w : Workspace υ) :
    Action.Ends (Workspace.Reads report) (t.complete scan produced) w (.ok ()) :=
  Action.ends_get_bind (Workspace.reads_note _)

theorem ends_seek (ht : t.IsPlain accepts report) (hk : w.repository.Kept) (hr : scan.Ready w)
    {items : List Stored} (hitems : items <:+ scan.remaining) :
    ∃ result, Action.Ends (Workspace.Reads report) (t.seek false scan items) w result ∧
      Takes w.store accepts scan
        (w.store.yields scan.snapshot (allows accepts scan.hiddenRoots) items) result := by
  induction items generalizing w with
  | nil =>
    refine ⟨.ok .finished, ?_, .finished⟩
    exact (ends_complete report t scan scan.produced w).bind_ok fun w₁ _ =>
      Action.ends_pure (.refl w₁) _
  | cons item rest ih =>
    have hmem : item ∈ scan.remaining := hitems.subset List.mem_cons_self
    have hrest : rest <:+ scan.remaining := (List.suffix_cons item rest).trans hitems
    have hvisit := ends_visit ht scan hk.sound hk.available (hr.issued item hmem)
    have hyield := yield_visitOutcome w.store scan.snapshot accepts scan.hiddenRoots
      (hr.arranged item hmem)
    rw [DocumentStore.yields_cons, ← hyield]
    generalize visitOutcome w.store scan.snapshot accepts scan.hiddenRoots item = visited
      at hvisit ⊢
    cases visited with
    | error e =>
      refine ⟨.error e, hvisit.bind_error _, ?_⟩
      rw [Yield.append_of_failure rfl]
      exact .failed e
    | ok visited =>
      cases visited with
      | skipped =>
        obtain ⟨w₁, hw₁, h₁⟩ := hvisit
        obtain ⟨result, hseek, htakes⟩ := ih (h₁.kept hk) (hr.of_looks h₁.toLooks) hrest
        exact ⟨result, Action.ends_bind hw₁ h₁ hseek, htakes.of_reads h₁⟩
      | dropped =>
        obtain ⟨w₁, hw₁, h₁⟩ := hvisit
        obtain ⟨w₂, hw₂, h₂⟩ :=
          Workspace.ends_requireOpen report (hr.of_looks h₁.toLooks).isOpen
        have h₂' : w.Reads report w₂ := h₁.trans h₂
        obtain ⟨result, hseek, htakes⟩ := ih (h₂'.kept hk) (hr.of_looks h₂'.toLooks) hrest
        exact ⟨result, Action.ends_bind hw₁ h₁ (Action.ends_bind hw₂ h₂ hseek),
          htakes.of_reads h₂'⟩
      | found first more =>
        refine ⟨_, hvisit.bind_ok fun w₁ _ => Action.ends_pure (.refl w₁) _, ?_⟩
        rw [Visit.yield, List.map_cons, Yield.cons_append]
        exact .entry _ _ _ ⟨rfl, rfl, rfl, hrest⟩ rfl

/-- A step of a scan takes the first entry off what is due. -/
theorem ends_advanceScan (ht : t.IsPlain accepts report) (hk : w.repository.Kept)
    (hr : scan.Ready w) :
    ∃ result, Action.Ends (Workspace.Reads report) (t.advanceScan false scan) w result ∧
      Takes w.store accepts scan (scan.due w.store accepts) result := by
  obtain ⟨⟨states, failure⟩, hpending⟩ : ∃ pending, scan.pending = pending := ⟨_, rfl⟩
  rw [advanceScan, Scan.due, hpending]
  cases states with
  | cons s rest =>
    refine ⟨_, Action.ends_pure (.refl w) _, ?_⟩
    rw [List.map_cons, Yield.cons_append]
    exact .entry _ _ _ ⟨rfl, rfl, rfl, List.suffix_refl _⟩ rfl
  | nil =>
    cases failure with
    | some e =>
      refine ⟨.error e, Action.ends_fail (.refl w) e, ?_⟩
      rw [Yield.append_of_failure rfl]
      exact .failed e
    | none =>
      rw [List.map_nil, Yield.empty_append]
      cases hrested : scan.rested with
      | true =>
        obtain ⟨w₁, hw₁, h₁⟩ := Workspace.ends_resumeFetch report hr.isOpen
        obtain ⟨result, hseek, htakes⟩ :=
          ends_seek ht (h₁.kept hk) (hr.of_looks h₁.toLooks) (List.suffix_refl scan.remaining)
        exact ⟨result, Action.ends_bind hw₁ h₁ hseek, htakes.of_reads h₁⟩
      | false =>
        obtain ⟨w₁, hw₁, h₁⟩ := Workspace.ends_requireOpen report hr.isOpen
        obtain ⟨result, hseek, htakes⟩ :=
          ends_seek ht (h₁.kept hk) (hr.of_looks h₁.toLooks) (List.suffix_refl scan.remaining)
        exact ⟨result, Action.ends_bind hw₁ h₁ hseek, htakes.of_reads h₁⟩

/-! ## Opening a scan -/

/-- The scan is about to visit all documents in the range. -/
structure Opened (t : Traverser υ) (v : RevisionVector) (w : Workspace υ) (scan : Scan) :
    Prop where
  snapshot : scan.snapshot = v
  hiddenRoots : scan.hiddenRoots = (t.state w).hiddenRoots
  remaining : scan.remaining = w.store.select t.range
  pending : scan.pending = {}

theorem Opened.due {scan : Scan} (h : Opened t v w scan) (s : DocumentStore)
    (accepts : String → Bool) :
    scan.due s accepts =
      s.yields v (allows accepts (t.state w).hiddenRoots) (w.store.select t.range) := by
  rw [Scan.due, h.pending, h.snapshot, h.hiddenRoots, h.remaining]
  exact Yield.empty_append _

theorem reads_tallied (report : String → υ → υ) (t : Traverser υ) (w : Workspace υ) :
    w.Reads report (t.tallied w) :=
  Workspace.reads_modifyTraverser (fun _ _ => rfl) fun _ => rfl

theorem reads_cursorOpened (report : String → υ → υ) (range : TimeRange) (items : List Stored)
    (w : Workspace υ) : w.Reads report (w.cursorOpened range items) := by
  refine .of_caller_eq ⟨⟨Workspace.agrees_cursorOpened range items w, rfl⟩,
    List.prefix_append .., rfl, fun ht => ?_⟩ rfl
  have hopened := ht.openCursor (Cursor.closable_ofRange range)
  exact ⟨hopened.opened, hopened.closable, hopened.registered⟩

theorem openScan_eq (ht : t.IsPlain accepts report) (ha : w.store.available = true)
    (htimes : w.store.requireTimes t.range = .ok ()) (v : RevisionVector) :
    ∃ scan w', t.openScan v w = (.ok scan, w') ∧ w.Reads report w' ∧ Opened t v w scan ∧
      w'.IsOpen scan.cursor := by
  have hscannable := DocumentStore.scannable_eq_ok ha htimes
  refine ⟨_, _, openScan_of_ok ht.backend hscannable v, ?_, ⟨rfl, rfl, rfl, rfl⟩,
    .ofRange t.range, List.getElem?_concat_length, rfl⟩
  have h₁ : w.Reads report (t.tallied w) := reads_tallied report t w
  have h₂ := reads_cursorOpened report t.range (w.store.select t.range) (t.tallied w)
  have h₃ := h₂.register (Nat.le_refl w.cursors.length) t.number
  exact h₁.trans (h₃.trans (.of_caller_eq (Workspace.looks_noted _ _) rfl))

theorem Opened.issued {scan : Scan} {w' : Workspace υ} (h : Opened t v w scan)
    (hs : w.store.Sound) (hw : w.Looks w') : ∀ item ∈ scan.remaining, w'.store.Issued item := by
  intro item hitem
  rw [h.remaining] at hitem
  exact hw.store.issued (DocumentStore.issued_of_mem hs (List.mem_of_mem_filter hitem))

theorem Opened.ready {scan : Scan} {w' : Workspace υ} (h : Opened t v w scan)
    (hk : w.repository.Kept) (hw : w.Looks w') (hopen : w'.IsOpen scan.cursor) :
    scan.Ready w' := by
  have hmem : ∀ item ∈ scan.remaining, item ∈ w.store.catalog.items := by
    intro item hitem
    rw [h.remaining] at hitem
    exact List.mem_of_mem_filter hitem
  exact ⟨hopen, h.issued hk.sound hw, fun item hitem => hk.arranged item (hmem item hitem),
    fun item hitem hmain => hw.store.owns (DocumentStore.owns_of_mem (hmem item hitem) hmain)⟩

/-- A scan cannot be opened if it cannot be told of some document whether it is in the range. -/
theorem openScan_refused (ht : t.IsPlain accepts report) (ha : w.store.available = true)
    {e : Failure} (htimes : w.store.requireTimes t.range = .error e) (v : RevisionVector) :
    Action.Ends (Workspace.Reads report) (t.openScan v) w (.error e) := by
  have hscannable : w.store.scannable t.range = .error e := by
    rw [DocumentStore.scannable_of_available ha, htimes]
    rfl
  exact ⟨_, openScan_of_error ht.backend hscannable v, reads_tallied report t w⟩

theorem ends_ask (report : String → υ → υ) (hpin : (t.state w).pin = .of v) (ticket : Nat) :
    Action.Ends (Workspace.Reads report) (t.ask ticket) w (.ok (.pinned v)) := by
  refine ⟨t.modifyState (fun s => { s with pin := .of v }) w, ?_, ?_⟩
  · simp only [ask, Action.bind_apply, Action.get_apply, hpin]
    rfl
  · refine Workspace.reads_modifyTraverser (fun x hx => ?_) fun _ => rfl
    have hstate : t.state w = x := by
      rw [state, Workspace.traverser, List.getD_eq_getElem?_getD, hx]
      rfl
    rw [TraverserState.config, TraverserState.config, ← hpin, hstate]

theorem ends_iterate (report : String → υ → υ) (t : Traverser υ) (w : Workspace υ) :
    Action.Ends (Workspace.Reads report) t.iterate w (.ok (t.state w).iterations) :=
  ⟨_, rfl, Workspace.reads_modifyTraverser (fun _ _ => rfl) fun _ => rfl⟩

theorem hiddenRoots_state {w' : Workspace υ} (h : w.Reads report w') (t : Traverser υ) :
    (t.state w').hiddenRoots = (t.state w).hiddenRoots :=
  congrArg Prod.snd (Workspace.map_traverser h.configs t.number)

theorem pin_state {w' : Workspace υ} (h : w.Reads report w') (t : Traverser υ) :
    (t.state w').pin = (t.state w).pin :=
  congrArg Prod.fst (Workspace.map_traverser h.configs t.number)

/-- The first step of an iteration at a pinned snapshot opens a scan of all documents in the range
and takes its first step. -/
theorem advance_entering (ht : t.IsPlain accepts report) (hk : w.repository.Kept)
    (hpin : (t.state w).pin = .of v) (htimes : w.store.requireTimes t.range = .ok ())
    (ticket : Nat) :
    ∃ scan w₁, w.Reads report w₁ ∧ Opened t v w scan ∧ scan.Ready w₁ ∧
      t.advance false (.entering ticket) w = t.advanceScan false scan w₁ := by
  obtain ⟨w₁, hask, h₁⟩ := ends_ask report hpin ticket
  have htimes₁ : w₁.store.requireTimes t.range = .ok () := by
    rw [h₁.store.requireTimes, htimes]
  obtain ⟨scan, w₂, hscan, h₂, hopened, hopen⟩ := openScan_eq ht (h₁.kept hk).available htimes₁ v
  have hready : scan.Ready w₂ := hopened.ready (h₁.kept hk) h₂.toLooks hopen
  refine ⟨scan, w₂, h₁.trans h₂, ⟨hopened.snapshot, ?_, ?_, hopened.pending⟩, hready, ?_⟩
  · rw [hopened.hiddenRoots, hiddenRoots_state h₁]
  · rw [hopened.remaining, h₁.store.select]
  · simp only [advance, Action.bind_apply, hask, hscan]

end Traverser

/-- The entry of a step that came to one, and the iteration that goes on from there. -/
def Step.entry? : Step → Option (Entry × Iteration)
  | .entry e next => some (e, next)
  | .paused _ | .waiting _ | .finished => none

theorem Traverser.next_eq {υ : Type} (t : Traverser υ) (it : Iteration) (w : Workspace υ) :
    t.next it w = ((t.advance false it w).1.map Step.entry?, (t.advance false it w).2) := by
  rw [next, Action.bind_apply]
  rcases t.advance false it w with ⟨e | step, w'⟩
  · rfl
  · cases step <;> rfl

end VersionedTree
