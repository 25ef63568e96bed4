import VersionedTree.Proofs.Clients
import VersionedTree.Proofs.Closers
import VersionedTree.Proofs.Couplings
import VersionedTree.Traversal.Concurrent
import VersionedTree.Traversal.EntryStream

/-! # The ledger of a workspace

The ledger says what is known of the cursors and of those who are to close them: the store's counts,
which cursors were closed and what closing them releases, and what each traverser has registered.
Reading, writing and noting leave it alone. Opening a scan and closing a cursor change it, and that
is all a traversal does to it, whatever the caller's functions do that it calls.
-/

namespace VersionedTree

/-- What a traverser has to share and to close. -/
structure Holding where
  pin : Pin := {}
  /-- The cursors that it has registered and not closed yet. -/
  cursors : List Nat := []

structure Ledger where
  openCursors : Nat
  queries : Nat
  /-- Of each cursor, was it closed, and what does closing it release? -/
  cursors : List (Bool × List CursorPart)
  traversers : List Holding

namespace Ledger

def holding (l : Ledger) (n : Nat) : Holding := l.traversers.getD n {}

def modifyHolding (n : Nat) (f : Holding → Holding) (l : Ledger) : Ledger :=
  { l with traversers := l.traversers.modify n f }

def enrolled (h : Holding) (l : Ledger) : Ledger := { l with traversers := l.traversers ++ [h] }

def repinned (n : Nat) (pin : Pin → Pin) (l : Ledger) : Ledger :=
  l.modifyHolding n fun h => { h with pin := pin h.pin }

def opened (l : Ledger) : Ledger :=
  { l with
    openCursors := l.openCursors + 1
    queries := l.queries + 1
    cursors := l.cursors ++ [(false, [.stream, .count])] }

/-- A cursor was opened for a traverser. -/
def scanned (n : Nat) (l : Ledger) : Ledger :=
  l.opened.modifyHolding n fun h => { h with cursors := h.cursors ++ [l.cursors.length] }

/-- A cursor was closed, if it was there and open. -/
def closed (l : Ledger) (i : Nat) : Ledger :=
  match l.cursors[i]? with
  | some (false, parts) =>
    { l with
      openCursors := l.openCursors - parts.count .count
      cursors := l.cursors.set i (true, parts) }
  | some (true, _) | none => l

/-- A traverser closed what it had registered. -/
def settled (n : Nat) (l : Ledger) : Ledger :=
  (l.holding n).cursors.reverse.foldl closed (l.modifyHolding n fun h => { h with cursors := [] })

end Ledger

def Cursor.account (c : Cursor) : Bool × List CursorPart := (c.closed, c.releases.map Release.part)

def TraverserState.holding (s : TraverserState) : Holding := ⟨s.pin, s.closer.resources⟩

namespace DocumentStore

variable {α : Type}

def counts (s : DocumentStore) : Nat × Nat := (s.openCursors, s.queries)

/-- The action leaves the counts of cursors alone. -/
def Discreet (x : Action DocumentStore α) : Prop :=
  ∀ c, Action.Maintains (fun s => s.counts = c) x

theorem discreet_requireAvailable : Discreet requireAvailable := fun _ _ h => h

theorem discreet_lookUp (id : String) : Discreet (lookUp id) := by
  intro c s h
  rw [lookUp]
  cases s.cache with
  | none => exact h
  | some cache => exact h

theorem discreet_find (id : String) : Discreet (find id) := by
  intro c
  refine (discreet_requireAvailable c).bind fun _ => (discreet_lookUp id c).bind fun found => ?_
  cases found with
  | some d => exact Action.maintains_pure _
  | none =>
    refine Action.maintains_get.bind fun s => ?_
    cases s.stored? id with
    | none => exact Action.maintains_pure _
    | some d =>
      exact Action.Maintains.bind (Action.maintains_modify fun _ h => h) fun _ =>
        Action.maintains_pure _

theorem discreet_write (d : Document) : Discreet (write d) := by
  intro c
  exact (discreet_requireAvailable c).bind fun _ => Action.maintains_modify fun _ h => h

theorem discreet_delete (id : String) : Discreet (delete id) := by
  intro c
  refine (discreet_requireAvailable c).bind fun _ => Action.maintains_get.bind fun s => ?_
  exact Action.Maintains.bind (Action.maintains_modify fun _ h => h) fun _ =>
    Action.maintains_pure _

theorem discreet_update (id : String) (updater : Option Document → Except Failure Document) :
    Discreet (update id updater) := by
  intro c
  refine Action.maintains_get.bind fun s => (Action.maintains_ofExcept _).bind fun d => ?_
  exact (discreet_write d c).bind fun _ => Action.maintains_pure d

theorem counts_rememberIfCurrent (s : DocumentStore) (item : Stored) :
    (s.rememberIfCurrent item).counts = s.counts := by
  rw [rememberIfCurrent]
  split
  · split <;> rfl
  · rfl

theorem counts_create {c : CacheSettings} {s : DocumentStore} (h : create c = .ok s) :
    s.counts = (0, 0) := by
  rw [create] at h
  cases hp : c.problems with
  | error e =>
    rw [hp] at h
    cases h
  | ok problems =>
    rw [hp] at h
    cases problems with
    | nil =>
      cases h
      rfl
    | cons problem problems => cases h

end DocumentStore

namespace Repository

variable {α : Type}

def Discreet (x : Action Repository α) : Prop :=
  ∀ c, Action.Maintains (fun r => r.store.counts = c) x

theorem discreet_onStore {x : Action DocumentStore α} (hx : DocumentStore.Discreet x) :
    Discreet (onStore x) := fun c r h => hx c r.store h

theorem discreet_nextRevision : Discreet nextRevision := by
  intro c
  exact Action.Maintains.bind (Action.maintains_modify fun _ h => h) fun _ =>
    Action.maintains_get.bind fun _ => Action.maintains_ofExcept _

theorem discreet_writeVersion (path : String) (properties : Option Properties) (bundled : Bundle)
    (modified : Option Modified) : Discreet (writeVersion path properties bundled modified) := by
  intro c
  refine (discreet_nextRevision c).bind fun revision => ?_
  refine (discreet_onStore (DocumentStore.discreet_update _ _) c).bind fun _ => ?_
  exact Action.Maintains.bind (Action.maintains_modify fun _ h => h) fun _ =>
    Action.maintains_pure revision

theorem discreet_find (id : String) : Discreet (onStore (DocumentStore.find id)) :=
  discreet_onStore (DocumentStore.discreet_find id)

theorem discreet_addPrevious (path : String) (height : Int) (modified : Option Modified)
    (split : SplitKind) : Discreet (addPrevious path height modified split) := fun c =>
  maintains_addPrevious (fun id => discreet_find id c)
    (fun d => discreet_onStore (DocumentStore.discreet_write d) c) path height modified split

theorem discreet_node (path : String) (v : RevisionVector) : Discreet (node path v) := fun c =>
  maintains_node (fun id => discreet_find id c) path v

end Repository

namespace Workspace

variable {υ α β : Type} {P : Ledger → Prop}

def ledger (w : Workspace υ) : Ledger where
  openCursors := w.store.openCursors
  queries := w.store.queries
  cursors := w.cursors.map Cursor.account
  traversers := w.traversers.map TraverserState.holding

/-- What holds of the ledger before the action holds after it. -/
def Upholds (P : Ledger → Prop) (x : Action (Workspace υ) α) : Prop :=
  Action.Maintains (fun w => P w.ledger) x

/-- The action leaves the ledger alone. -/
def Quiet (x : Action (Workspace υ) α) : Prop := ∀ w, (x w).2.ledger = w.ledger

theorem Quiet.upholds {x : Action (Workspace υ) α} (hx : Quiet x) : Upholds P x := by
  intro w hw
  show P (x w).2.ledger
  rwa [hx w]

theorem quiet_of_upholds {x : Action (Workspace υ) α} (h : ∀ l, Upholds (· = l) x) : Quiet x :=
  fun w => h w.ledger w rfl

theorem upholds_modify {f : Workspace υ → Workspace υ} (h : ∀ w, (f w).ledger = w.ledger) :
    Upholds P (Action.modify f) := Quiet.upholds h

theorem upholds_note (e : Event) : Upholds P (note e : Action (Workspace υ) Unit) :=
  upholds_modify fun _ => rfl

theorem upholds_onRepository {x : Action Repository α} (hx : Repository.Discreet x) :
    Upholds P (onRepository x : Action (Workspace υ) α) := by
  refine Quiet.upholds fun w => ?_
  have hcounts := hx _ w.repository rfl
  obtain ⟨hopen, hqueries⟩ := Prod.mk.inj hcounts
  simp only [ledger, onRepository, Action.zoom, store]
  rw [hopen, hqueries]

theorem upholds_onStore {x : Action DocumentStore α} (hx : DocumentStore.Discreet x) :
    Upholds P (onStore x : Action (Workspace υ) α) :=
  upholds_onRepository (Repository.discreet_onStore hx)

theorem upholds_changeStore {f : DocumentStore → DocumentStore}
    (hf : ∀ s, (f s).counts = s.counts) : Upholds P (changeStore f : Action (Workspace υ) Unit) :=
  upholds_onStore fun _ => Action.maintains_modify fun s hs => (hf s).trans hs

theorem upholds_commit (path : String) (properties : Properties) (bundled : Bundle)
    (modified : Option Modified) :
    Upholds P (commit path properties bundled modified : Action (Workspace υ) Revision) :=
  (upholds_onRepository (Repository.discreet_writeVersion _ _ _ _)).bind fun revision =>
    (upholds_note _).bind fun _ => Action.maintains_pure revision

theorem upholds_remove (path : String) (modified : Option Modified) :
    Upholds P (remove path modified : Action (Workspace υ) Revision) :=
  (upholds_onRepository (Repository.discreet_writeVersion _ _ _ _)).bind fun revision =>
    (upholds_note _).bind fun _ => Action.maintains_pure revision

theorem upholds_node (path : String) (v : RevisionVector) :
    Upholds P (node path v : Action (Workspace υ) (Option NodeState)) :=
  upholds_onRepository (Repository.discreet_node path v)

theorem upholds_update {updater : Option Document → Action (Workspace υ) Document}
    (h : ∀ current, Upholds P (updater current)) (id : String) : Upholds P (update id updater) := by
  refine Action.maintains_get.bind fun w => (h _).bind fun d => ?_
  exact upholds_onStore (DocumentStore.discreet_update id _)

theorem upholds_request (r : Request) : Upholds P (r.perform : Action (Workspace υ) Answer) := by
  cases r with
  | write d => exact (upholds_onStore (DocumentStore.discreet_write d)).map _
  | delete id => exact (upholds_onStore (DocumentStore.discreet_delete id)).map _
  | find id => exact (upholds_onStore (DocumentStore.discreet_find id)).map _
  | estimatedSize range =>
    exact Action.maintains_get.bind fun w => (Action.maintains_ofExcept _).map _
  | setAvailable available =>
    have hset : Upholds P (changeStore (·.setAvailable available) : Action (Workspace υ) Unit) :=
      upholds_changeStore fun _ => rfl
    exact hset.map _
  | commit path properties bundled modified => exact (upholds_commit _ _ _ _).map _
  | remove path modified => exact (upholds_remove _ _).map _
  | addPrevious path height modified split =>
    exact (upholds_onRepository (Repository.discreet_addPrevious _ _ _ _)).map _
  | node path v => exact (upholds_node path v).map _

theorem upholds_callback (f : Callback υ α) : Upholds P f.perform :=
  maintains_callback upholds_request (fun _ _ h => h) f

theorem upholds_fetch {filter : String → Action (Workspace υ) Bool}
    (h : ∀ id, Upholds P (filter id)) (n : Nat) (stream : List Stored) :
    Upholds P (fetch n filter stream) :=
  maintains_fetch (maintains_offer (upholds_onStore DocumentStore.discreet_requireAvailable)
    (fun item => upholds_changeStore fun s => s.counts_rememberIfCurrent item) h) n stream

theorem map_modify {γ δ : Type} {f : γ → γ} {g : γ → δ} {h : δ → δ} (hf : ∀ a, g (f a) = h (g a))
    (l : List γ) (n : Nat) : (l.modify n f).map g = (l.map g).modify n h := by
  apply List.ext_getElem?
  intro i
  simp only [List.getElem?_map, List.getElem?_modify]
  by_cases hi : n = i
  · cases l[i]? with
    | none => simp [hi]
    | some a => simp [hi, hf a]
  · simp [hi]

theorem traverser_modifyTraverser_ne {n m : Nat} (h : n ≠ m) (f : TraverserState → TraverserState)
    (w : Workspace υ) : (modifyTraverser n f w).traverser m = w.traverser m := by
  simp only [traverser, modifyTraverser, List.getD_eq_getElem?_getD, List.getElem?_modify, h,
    if_false, Option.map_eq_map, Option.map_id']

theorem traverser_modifyTraverser_same {n : Nat} {w : Workspace υ} (h : n < w.traversers.length)
    (f : TraverserState → TraverserState) :
    (modifyTraverser n f w).traverser n = f (w.traverser n) := by
  simp only [traverser, modifyTraverser, List.getD_eq_getElem?_getD, List.getElem?_modify_eq,
    List.getElem?_eq_getElem h, Option.map_eq_map, Option.map_some, Option.getD_some]

theorem ledger_modifyTraverser {f : TraverserState → TraverserState} {g : Holding → Holding}
    (hf : ∀ x, (f x).holding = g x.holding) (n : Nat) (w : Workspace υ) :
    (modifyTraverser n f w).ledger = w.ledger.modifyHolding n g := by
  simp only [ledger, modifyTraverser, Ledger.modifyHolding, map_modify hf]
  rfl

theorem ledger_modifyTraverser_same {f : TraverserState → TraverserState}
    (hf : ∀ x, (f x).holding = x.holding) (n : Nat) (w : Workspace υ) :
    (modifyTraverser n f w).ledger = w.ledger := by
  rw [ledger_modifyTraverser (g := id) hf, Ledger.modifyHolding, List.modify_id]

theorem ledger_modifyCursor {f : Cursor → Cursor} {g : Bool × List CursorPart → _}
    (hf : ∀ c, (f c).account = g c.account) (n : Nat) (w : Workspace υ) :
    (modifyCursor n f w).ledger = { w.ledger with cursors := w.ledger.cursors.modify n g } := by
  simp only [ledger, modifyCursor, map_modify hf]
  rfl

theorem holding_traverser (w : Workspace υ) (n : Nat) :
    (w.traverser n).holding = w.ledger.holding n := by
  rw [traverser, Ledger.holding, ledger, List.getD_eq_getElem?_getD, List.getD_eq_getElem?_getD,
    List.getElem?_map]
  cases w.traversers[n]? <;> rfl

/-! ## Opening and closing -/

theorem ledger_cursorOpened (range : TimeRange) (items : List Stored) (w : Workspace υ) :
    (w.cursorOpened range items).ledger = w.ledger.opened := by
  simp only [ledger, cursorOpened, Ledger.opened, List.map_append]
  rfl

theorem ledger_openCursor (range : TimeRange) (w : Workspace υ) :
    (∃ e w', openCursor range w = (.error e, w') ∧ w'.ledger = w.ledger) ∨
      ∃ stream w', openCursor range w = (.ok (w.cursors.length, stream), w') ∧
        w'.ledger = w.ledger.opened := by
  cases hitems : w.store.scannable range with
  | error e => exact .inl ⟨e, w, openCursor_of_error hitems, rfl⟩
  | ok items => exact .inr ⟨items, _, openCursor_of_ok hitems, ledger_cursorOpened range items w⟩

/-- What the releases of a cursor come to. -/
theorem ledger_released (releases : List Release) (w : Workspace υ) :
    (releases.foldl (fun w r => released r w) w).ledger =
      { w.ledger with
        openCursors := w.ledger.openCursors - (releases.map Release.part).count .count } := by
  induction releases generalizing w with
  | nil => rfl
  | cons r releases ih =>
    have hfirst : (released r w).ledger = { w.ledger with
        openCursors := w.ledger.openCursors - if r.part == .count then 1 else 0 } := by
      rw [released]
      cases r.part <;> rfl
    rw [List.foldl_cons, ih, hfirst, List.map_cons, List.count_cons, Nat.sub_sub, Nat.add_comm]

theorem map_part_interrupted (releases : List Release) :
    (releases.map Release.interrupted).map Release.part = releases.map Release.part := by
  rw [List.map_map]
  refine List.map_congr_left fun r _ => ?_
  rw [Function.comp_apply, Release.interrupted]
  split <;> rfl

theorem ledger_closeCursor (i : Nat) (w : Workspace υ) :
    (closeCursor i w).2.ledger = w.ledger.closed i := by
  have hend : (closeCursor i w).2.ledger = { (modifyCursor i
      (fun _ => (w.cursor i).close.2) w).ledger with
      openCursors := w.ledger.openCursors -
        ((w.cursor i).close.1.map Release.part).count .count } := by
    have hafter := ledger_released (w.cursor i).close.1
      (modifyCursor i (fun _ => (w.cursor i).close.2) w)
    simp only [closeCursor, Action.bind_apply, Action.get_apply, Action.modify_apply]
    cases Cursor.outcome (w.cursor i).close.1 <;> exact hafter
  rw [hend, ledger_modifyCursor (g := fun _ => (w.cursor i).close.2.account) fun _ => rfl,
    Ledger.closed]
  have hget : w.ledger.cursors[i]? = w.cursors[i]?.map Cursor.account := List.getElem?_map ..
  cases hc : w.cursors[i]? with
  | none =>
    have hdefault : w.cursor i = default := by rw [cursor, List.getD_eq_getElem?_getD, hc]; rfl
    have hout : w.ledger.cursors.length ≤ i := by
      rw [ledger, List.length_map]
      exact List.getElem?_eq_none_iff.1 hc
    rw [hget, hc, hdefault, List.modify_eq_self hout]
    rfl
  | some c =>
    have hcursor : w.cursor i = c := cursor_of_getElem? hc
    have hparts : (c.close.1.map Release.part).count .count =
        if c.closed = true then 0 else (c.releases.map Release.part).count .count := by
      rw [Cursor.close]
      split
      · rfl
      · split
        · rw [map_part_interrupted]
        · rfl
    have hmodify : w.ledger.cursors.modify i (fun _ => (w.cursor i).close.2.account) =
        w.ledger.cursors.set i (true, c.releases.map Release.part) := by
      rw [hcursor, List.modify_eq_set]
      rfl
    rw [hget, hc, hmodify, hcursor, hparts]
    cases hclosed : c.closed with
    | false => simp only [Option.map_some, Cursor.account, hclosed, Bool.false_eq_true, if_false]
    | true =>
      have hself : w.ledger.cursors.set i (true, c.releases.map Release.part) =
          w.ledger.cursors := by
        rw [hc, Option.map_some, Cursor.account, hclosed] at hget
        obtain ⟨hi, hget⟩ := List.getElem?_eq_some_iff.1 hget
        rw [← hget, List.set_getElem_self]
      simp only [Option.map_some, Cursor.account, hclosed, if_true, Nat.sub_zero]
      rw [hself]

end Workspace

/-! ## What a scan maintains -/

namespace Traverser

section

variable {υ β : Type} {P : Workspace υ → Prop} {t : Traverser υ} {v : RevisionVector}

/-- What the parts of all steps of the traverser's scans at a snapshot maintain. -/
structure Upkeep (P : Workspace υ → Prop) (t : Traverser υ) (v : RevisionVector) : Prop where
  available : Action.Maintains P (Workspace.onStore DocumentStore.requireAvailable)
  remember : ∀ item, Action.Maintains P (Workspace.changeStore (·.rememberIfCurrent item))
  count : ∀ scan f, Action.Maintains P (Action.modify ((t.filter scan).count f))
  note : ∀ e, Action.Maintains P (Workspace.note e)
  predicate : ∀ path, Action.Maintains P (t.predicate path)
  progress : ∀ id, Action.Maintains P (t.progress id)
  node : ∀ path, Action.Maintains P (t.backend.node path v)

/-- A traverser beside itself, where all that is said of an action is what it maintains. -/
def maintaining (P : Workspace υ → Prop) : Coupling (Workspace υ) (Workspace υ) where
  Rel x _ := Action.Maintains P x
  pure a := Action.maintains_pure a
  fail e := Action.maintains_fail e
  bind hx hf := hx.bind hf

theorem Upkeep.complete (h : t.Upkeep P v) (scan : Scan) (produced : Nat) :
    Action.Maintains P (t.complete scan produced) :=
  Action.Maintains.bind Action.maintains_get fun _ => h.note _

theorem Upkeep.parts (h : t.Upkeep P v) : (maintaining P).Parts t t v where
  delivery := rfl
  available := h.available
  remember := h.remember
  count := h.count
  complete := h.complete
  predicate := h.predicate
  progress := h.progress
  node := h.node
  requireOpen := Workspace.maintains_requireOpen
  resumeFetch := Workspace.maintains_resumeFetch

variable {scan : Scan}

theorem Upkeep.advanceScan (h : t.Upkeep P scan.snapshot) (mayPause : Bool) :
    Action.Maintains P (t.advanceScan mayPause scan) := h.parts.advanceScan mayPause

theorem Upkeep.foldRest (h : t.Upkeep P scan.snapshot) {f : β → Entry → Action (Workspace υ) β}
    (hf : ∀ b e, Action.Maintains P (f b e)) (items : List Stored) (produced : Nat) (b : β) :
    Action.Maintains P (t.foldRest f scan items produced b) := by
  induction items generalizing produced b with
  | nil => exact (h.complete scan produced).bind fun _ => Action.maintains_pure b
  | cons item rest ih =>
    have hvisit : Action.Maintains P (t.visit scan item) := h.parts.visit item
    refine hvisit.bind fun visited => ?_
    cases visited with
    | skipped => exact ih produced b
    | dropped => exact (Workspace.maintains_requireOpen scan.cursor).bind fun _ => ih produced b
    | found first more =>
      refine Action.Maintains.bind (Action.maintains_foldlM hf _ b) fun b => ?_
      cases more.failure with
      | some e => exact Action.maintains_fail e
      | none => exact (Workspace.maintains_requireOpen scan.cursor).bind fun _ => ih _ b

end

end Traverser

/-! ## What a traverser does to the ledger -/

namespace Traverser

open Workspace

variable {υ β : Type} {P : Ledger → Prop} {t : Traverser υ}

/-- The traverser reads the stores of the workspace itself, and the caller's functions keep what
`P` says of the ledger. -/
structure Heeds (P : Ledger → Prop) (t : Traverser υ) : Prop where
  backend : t.backend = .memory
  predicate : ∀ path, Upholds P (t.predicate path)
  progress : ∀ id, Upholds P (t.progress id)

theorem upholds_modifyState {f : TraverserState → TraverserState}
    (hf : ∀ x, (f x).holding = x.holding) : Upholds P (Action.modify (t.modifyState f)) :=
  upholds_modify fun w => ledger_modifyTraverser_same hf t.number w

theorem Heeds.upkeep (ht : t.Heeds P) (v : RevisionVector) :
    t.Upkeep (fun w => P w.ledger) v where
  available := upholds_onStore DocumentStore.discreet_requireAvailable
  remember item := upholds_changeStore fun s => s.counts_rememberIfCurrent item
  count _ _ := upholds_modifyState fun _ => rfl
  note := upholds_note
  predicate := ht.predicate
  progress := ht.progress
  node path := by
    rw [ht.backend]
    exact upholds_node path v

theorem upholds_advanceScan (ht : t.Heeds P) (mayPause : Bool) (scan : Scan) :
    Upholds P (t.advanceScan mayPause scan) := (ht.upkeep scan.snapshot).advanceScan mayPause

theorem upholds_foldRest (ht : t.Heeds P) {f : β → Entry → Action (Workspace υ) β}
    (hf : ∀ b e, Upholds P (f b e)) (scan : Scan) (items : List Stored) (produced : Nat) (b : β) :
    Upholds P (t.foldRest f scan items produced b) :=
  (ht.upkeep scan.snapshot).foldRest hf items produced b

theorem ledger_modifyState {f : TraverserState → TraverserState} {g : Holding → Holding}
    (hf : ∀ x, (f x).holding = g x.holding) (w : Workspace υ) :
    (t.modifyState f w).ledger = w.ledger.modifyHolding t.number g :=
  ledger_modifyTraverser hf t.number w

/-- Opening a scan fails and leaves the ledger alone, or enters a cursor into it. -/
theorem ledger_openScan (hbackend : t.backend = .memory) (v : RevisionVector) (w : Workspace υ) :
    (∃ e w', t.openScan v w = (.error e, w') ∧ w'.ledger = w.ledger) ∨
      ∃ scan w', t.openScan v w = (.ok scan, w') ∧ w'.ledger = w.ledger.scanned t.number := by
  have htallied : (t.tallied w).ledger = w.ledger := by
    refine ledger_modifyTraverser_same (fun _ => ?_) t.number w
    rfl
  cases hitems : w.store.scannable t.range with
  | error e => exact .inl ⟨e, _, openScan_of_error hbackend hitems v, htallied⟩
  | ok items =>
    refine .inr ⟨_, _, openScan_of_ok hbackend hitems v, ?_⟩
    let w₁ : Workspace υ := (t.tallied w).cursorOpened t.range items
    have hopened : w₁.ledger = w.ledger.opened := by
      rw [ledger_cursorOpened, htallied]
    have hregister : (t.modifyState
        (fun s => { s with closer := s.closer.register w.cursors.length }) w₁).ledger =
          w₁.ledger.modifyHolding t.number
            fun h => { h with cursors := h.cursors ++ [w.cursors.length] } :=
      ledger_modifyState (fun _ => rfl) w₁
    have hlength : w.cursors.length = w.ledger.cursors.length := (List.length_map _).symm
    refine hregister.trans ?_
    rw [hopened, hlength]
    rfl

/-- A traverser can pin its snapshot and open a scan without changing what `P` says. -/
structure Allows (P : Ledger → Prop) (n : Nat) : Prop where
  repinned : ∀ l pin, P l → P (l.repinned n pin)
  scanned : ∀ l, P l → P (l.scanned n)

theorem upholds_openScan (hbackend : t.backend = .memory)
    (hscanned : ∀ l, P l → P (l.scanned t.number)) (v : RevisionVector) :
    Upholds P (t.openScan v) := by
  intro w hw
  show P (t.openScan v w).2.ledger
  rcases ledger_openScan hbackend v w with ⟨e, w', hscan, h⟩ | ⟨scan, w', hscan, h⟩
  · rw [hscan]
    exact h ▸ hw
  · rw [hscan]
    exact h ▸ hscanned _ hw

theorem ledger_repin (pin : Pin → Pin) (w : Workspace υ) :
    (t.modifyState (fun s => { s with pin := pin s.pin }) w).ledger =
      w.ledger.repinned t.number pin := ledger_modifyState (fun _ => rfl) w

theorem upholds_repin (hP : Allows P t.number) (pin : Pin → Pin) :
    Upholds P (Action.modify (t.modifyState fun s => { s with pin := pin s.pin })) := by
  refine Action.maintains_modify fun w hw => ?_
  rw [ledger_repin pin w]
  exact hP.repinned _ pin hw

theorem upholds_ask (hP : Allows P t.number) (ticket : Nat) : Upholds P (t.ask ticket) :=
  Action.Maintains.bind Action.maintains_get fun _ =>
    (upholds_repin hP fun _ => _).bind fun _ => Action.maintains_pure _

theorem upholds_head (hbackend : t.backend = .memory) : Upholds P t.backend.head := by
  rw [hbackend]
  exact Action.Maintains.bind Action.maintains_get fun _ => Action.maintains_pure _

theorem upholds_readHead (hbackend : t.backend = .memory) (hP : Allows P t.number) :
    Upholds P t.readHead := by
  refine (upholds_head hbackend).attempt.bind fun head => ?_
  refine (upholds_repin hP fun pin => pin.answer head).bind fun _ => ?_
  exact Action.Maintains.bind (Action.maintains_ofExcept _) fun v =>
    upholds_openScan hbackend hP.scanned v

theorem upholds_iterate (t : Traverser υ) : Upholds P t.iterate :=
  Action.Maintains.bind Action.maintains_get fun _ =>
    Action.Maintains.bind (upholds_modifyState fun _ => rfl) fun _ => Action.maintains_pure _

theorem upholds_enter (hbackend : t.backend = .memory) (hP : Allows P t.number) (ticket : Nat) :
    Upholds P (t.enter ticket) := by
  refine (upholds_ask hP ticket).bind fun turn => ?_
  cases turn with
  | pinned v => exact (upholds_openScan hbackend hP.scanned v).bind fun _ => Action.maintains_pure _
  | read => exact (upholds_readHead hbackend hP).bind fun _ => Action.maintains_pure _
  | wait => exact Action.maintains_pure none

theorem Heeds.iterates (ht : t.Heeds P) (hP : Allows P t.number) :
    (maintaining fun w => P w.ledger).Iterates t t where
  parts v := (ht.upkeep v).parts
  headPauses := rfl
  ask := upholds_ask hP
  openScan := upholds_openScan ht.backend hP.scanned
  readHead := upholds_readHead ht.backend hP

theorem upholds_advance (ht : t.Heeds P) (hP : Allows P t.number) (mayPause : Bool)
    (it : Iteration) : Upholds P (t.advance mayPause it) :=
  (ht.iterates hP).advance mayPause it

theorem upholds_next (ht : t.Heeds P) (hP : Allows P t.number) (it : Iteration) :
    Upholds P (t.next it) := by
  refine (upholds_advance ht hP false it).bind fun step => ?_
  cases step <;> exact Action.maintains_pure _

theorem upholds_fold (ht : t.Heeds P) (hP : Allows P t.number)
    {f : β → Entry → Action (Workspace υ) β} (hf : ∀ b e, Upholds P (f b e)) (b : β) :
    Upholds P (t.fold f b) := by
  refine (upholds_iterate t).bind fun ticket => ?_
  refine (upholds_enter ht.backend hP ticket).bind fun scan => ?_
  cases scan with
  | none => exact Action.maintains_pure b
  | some scan =>
    exact (Workspace.maintains_requireOpen scan.cursor).bind fun _ =>
      upholds_foldRest ht hf scan _ 0 b

theorem ledger_closes {report : Nat → Failure → Workspace υ → Workspace υ}
    (hreport : ∀ i e w, (report i e w).ledger = w.ledger) {closings : List (Closer.Closing Nat)}
    {w w' : Workspace υ} (h : Closer.Closes closeCursor report closings w w') :
    w'.ledger = (closings.map Closer.Closing.resource).foldl Ledger.closed w.ledger := by
  induction h with
  | nil w => rfl
  | @closed i w w₁ w' closings h hrest ih =>
    rw [List.map_cons, List.foldl_cons, ih, ← ledger_closeCursor, h]
  | @failed i e w w₁ w' closings h hrest ih =>
    rw [List.map_cons, List.foldl_cons, ih, hreport, ← ledger_closeCursor, h]

theorem ledger_close (t : Traverser υ) (w : Workspace υ) :
    (t.close w).2.ledger = w.ledger.settled t.number := by
  obtain ⟨closings, w', hcursors, hcloses, hclose⟩ := exists_closings t w
  have hholding : (t.state w).closer.resources = (w.ledger.holding t.number).cursors :=
    congrArg Holding.cursors (holding_traverser w t.number)
  have hemptied : (t.emptied w).ledger =
      w.ledger.modifyHolding t.number fun h => { h with cursors := [] } :=
    ledger_modifyState (fun _ => rfl) w
  have hreport : ∀ i e w, (t.closeFailed i e w).ledger = w.ledger := fun _ _ _ => rfl
  have hledger : w'.ledger = w.ledger.settled t.number := by
    rw [ledger_closes hreport hcloses, hcursors, hholding, hemptied, Ledger.settled]
  rw [hclose]
  dsimp only
  split <;> exact hledger

theorem upholds_close (hsettled : ∀ l, P l → P (l.settled t.number)) : Upholds P t.close := by
  intro w hw
  show P (t.close w).2.ledger
  rw [ledger_close]
  exact hsettled _ hw

theorem upholds_leave (hclose : Upholds P t.close) (onTheWay : Option Failure) :
    Upholds P (t.leave onTheWay) := by
  cases onTheWay with
  | none => exact hclose
  | some e =>
    refine hclose.attempt.bind fun outcome => ?_
    have hfail : Upholds P (Action.fail e : Action (Workspace υ) Unit) := Action.maintains_fail e
    dsimp only
    split
    · exact (Action.maintains_pure ()).bind fun _ => hfail
    · exact (upholds_note _).bind fun _ => hfail
    · exact Action.Maintains.bind (Action.maintains_fail _) fun _ => hfail

theorem ledger_enroll (x : TraverserState) (w : Workspace υ) :
    (t.enroll x w).2.ledger = w.ledger.enrolled x.holding := by
  simp only [enroll, Action.bind_apply, Action.get_apply, Action.modify_apply, Action.pure_apply,
    ledger, Ledger.enrolled, List.map_append]
  rfl

theorem upholds_enroll (henrolled : ∀ l h, h.cursors = [] → P l → P (l.enrolled h))
    {x : TraverserState} (hx : x.closer.resources = []) : Upholds P (t.enroll x) := by
  intro w hw
  show P (t.enroll x w).2.ledger
  rw [ledger_enroll]
  exact henrolled _ _ hx hw

theorem upholds_create (hbackend : t.backend = .memory)
    (henrolled : ∀ l h, h.cursors = [] → P l → P (l.enrolled h))
    (snapshot : Option RevisionVector) (roots : List String) :
    Upholds P (t.create snapshot roots) := by
  have hrest (v : RevisionVector) : Upholds P (t.enroll { pin := .of v, hiddenRoots := roots }) :=
    upholds_enroll henrolled rfl
  cases snapshot with
  | some v => exact (Action.maintains_pure v).bind hrest
  | none => exact (upholds_head hbackend).bind hrest

theorem upholds_hide (t : Traverser υ) (roots : List String) : Upholds P (t.hide roots) := by
  refine Action.Maintains.bind ?_ fun _ => upholds_modifyState fun _ => rfl
  refine Action.maintains_get.bind fun w => ?_
  split
  · exact Action.maintains_fail _
  · exact Action.maintains_pure ()

end Traverser

namespace Turntaker

open Workspace Traverser

variable {υ : Type} {P : Ledger → Prop} {r : Turntaker υ}

theorem upholds_setFetching (fetching : Bool) (it : Iteration) :
    Upholds P (setFetching fetching it : Action (Workspace υ) Unit) := by
  cases it with
  | scanning scan =>
    refine upholds_modify fun w => ?_
    let f (c : Cursor) : Cursor := { c with fetching }
    have hledger : (modifyCursor scan.cursor f w).ledger =
        { w.ledger with cursors := w.ledger.cursors.modify scan.cursor id } :=
      ledger_modifyCursor (fun _ => rfl) scan.cursor w
    rwa [List.modify_id] at hledger
  | entering ticket => exact Action.maintains_pure ()
  | reading => exact Action.maintains_pure ()
  | finished => exact Action.maintains_pure ()

theorem upholds_ended (hclose : Upholds P r.traverser.close) (failure : Option Failure) :
    Upholds P (r.ended failure) := by
  rw [ended]
  split
  · refine hclose.attempt.bind fun outcome => ?_
    cases outcome <;> exact Action.maintains_pure _
  · exact Action.maintains_pure _

theorem upholds_settled (hclose : Upholds P r.traverser.close) (step : Except Failure Step) :
    Upholds P (r.settled step) := by
  rw [settled.eq_def]
  split
  · exact upholds_ended hclose _
  · exact upholds_ended hclose _
  · exact (upholds_setFetching true _).bind fun _ => Action.maintains_pure _
  · exact Action.maintains_pure _
  · exact Action.maintains_pure _

theorem upholds_goOn (hadvance : ∀ it, Upholds P (r.traverser.advance true it))
    (hclose : Upholds P r.traverser.close) (it : Iteration) : Upholds P (r.goOn it) := by
  refine (upholds_setFetching false it).bind fun _ => ?_
  refine (hadvance it).attempt.bind fun step => ?_
  split
  · refine (hadvance _).attempt.bind fun step => ?_
    refine upholds_settled ?_ step
    exact hclose
  · exact upholds_settled hclose step

theorem upholds_turn (hadvance : ∀ it, Upholds P (r.traverser.advance true it))
    (hclose : Upholds P r.traverser.close) : Upholds P r.turn := by
  rw [turn.eq_def]
  split
  · exact (upholds_iterate r.traverser).bind fun ticket => upholds_goOn hadvance hclose _
  · exact upholds_goOn hadvance hclose _
  · exact upholds_goOn hadvance hclose _
  · exact Action.maintains_pure r

end Turntaker

end VersionedTree
