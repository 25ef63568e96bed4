import Mathlib.Logic.Function.Basic
import VersionedTree.Proofs.Ledgers
import VersionedTree.Proofs.Visits

/-! # Sweeps

A traverser whose functions have a state of their own sees of the workspace only what is stored,
its own state and its cursor. What a traversal of it comes to is told by a sweep, which visits
the documents of the range on that state alone.
-/

namespace VersionedTree

namespace TraverserState

/-- What others may find of a traverser. -/
def terms (x : TraverserState) : Pin × List String × List Nat :=
  (x.pin, x.hiddenRoots, x.closer.resources)

end TraverserState

namespace Workspace

variable {σ α : Type} {n m : Nat} {w w' w'' : Workspace (Nat → σ)}

/-- An action on the state of the functions of one traverser. -/
def privately (n : Nat) (x : Action σ α) : Action (Workspace (Nat → σ)) α :=
  .zoom (fun w => w.caller n) (fun u w => { w with caller := Function.update w.caller n u }) x

/-- From one workspace to the other documents were read for a traverser. -/
structure Minds (n : Nat) (w w' : Workspace (Nat → σ)) : Prop where
  store : w.store.Agrees w'.store
  cursors : w'.cursors = w.cursors
  terms : w'.traversers.map TraverserState.terms = w.traversers.map TraverserState.terms
  caller : ∀ m ≠ n, w'.caller m = w.caller m

theorem Minds.refl (n : Nat) (w : Workspace (Nat → σ)) : w.Minds n w :=
  ⟨.refl w.store, rfl, rfl, fun _ _ => rfl⟩

theorem Minds.trans (h : w.Minds n w') (h' : w'.Minds n w'') : w.Minds n w'' :=
  ⟨h.store.trans h'.store, h'.cursors.trans h.cursors, h'.terms.trans h.terms,
    fun m hm => (h'.caller m hm).trans (h.caller m hm)⟩

instance : Trans (Minds (σ := σ) n) (Minds n) (Minds n) := ⟨Minds.trans⟩

/-- An action that works on the state of a traverser's functions as `p` does, and else reads. -/
def Plays (n : Nat) (p : Action σ α) (x : Action (Workspace (Nat → σ)) α)
    (w : Workspace (Nat → σ)) : Prop :=
  Action.Mirrors (fun w => w.caller n) (Minds n) p x w

/-- Documents were read for a traverser, and none of its functions was called. -/
abbrev Still (n : Nat) : Workspace (Nat → σ) → Workspace (Nat → σ) → Prop :=
  Action.Unseen (fun w => w.caller n) (Minds n)

theorem plays_privately (n : Nat) (x : Action σ α) (w : Workspace (Nat → σ)) :
    Plays n x (privately n x) w := by
  refine ⟨{ w with caller := Function.update w.caller n (x (w.caller n)).2 }, rfl, ?_, ?_⟩
  · exact ⟨.refl _, rfl, rfl, fun m hm => Function.update_of_ne hm _ _⟩
  · exact Function.update_self ..

theorem minds_onStore {x : Action DocumentStore α} {r : Except Failure α}
    (h : Action.Ends DocumentStore.Agrees x w.store r) :
    Action.Ends (Still n) (onStore x) w r := by
  obtain ⟨s, hx, hs⟩ := h
  refine ⟨{ w with repository.store := s }, ?_, ⟨hs, rfl, rfl, fun _ _ => rfl⟩, rfl⟩
  simp only [onStore, onRepository, Repository.onStore, Action.zoom]
  rw [show x w.repository.store = _ from hx]

theorem minds_modifyTraverser {f : TraverserState → TraverserState}
    (hf : ∀ x, w.traversers[m]? = some x → (f x).terms = x.terms) :
    w.Minds n (modifyTraverser m f w) :=
  ⟨.refl _, rfl, map_modifyTraverser hf, fun _ _ => rfl⟩

theorem minds_requireOpen (h : w.IsOpen m) :
    Action.Ends (Still n) (requireOpen m) w (.ok ()) :=
  ⟨w, requireOpen_of_isOpen h, .refl n w, rfl⟩

end Workspace

namespace Traverser

open Workspace

variable {σ : Type} {t : Traverser (Nat → σ)} {accepts : String → Action σ Bool}
  {report : String → Action σ Unit} {w : Workspace (Nat → σ)} {scan : Scan} {item : Stored}
  {s : DocumentStore} {n : Nat}

/-- The traverser delivers document by document, and its functions have a state of their own. -/
structure IsPrivate (t : Traverser (Nat → σ)) (accepts : String → Action σ Bool)
    (report : String → Action σ Unit) : Prop where
  delivery : t.delivery = .documents
  backend : t.backend = .memory
  predicate : t.predicate = fun path => privately t.number (accepts path)
  progress : t.progress = fun id => privately t.number (report id)

/-- The filter of a scan, on the state of the functions. -/
def ownFilter (accepts : String → Action σ Bool) (report : String → Action σ Unit)
    (hiddenRoots : List String) : PathFilter σ :=
  { predicate := accepts, progress := report, hiddenRoots, count := fun _ u => u }

/-- What comes of a visit when the node of a document was looked for. -/
def wholeVisit : Option NodeState → Except Failure Visit
  | none => .ok .dropped
  | some n =>
    if n.present then
      match n.descendants.failure with
      | some e => .error e
      | none => .ok (.found n n.descendants)
    else .ok .dropped

/-- Visits a document of a store that is not changed. -/
def glance (s : DocumentStore) (f : PathFilter σ) (v : RevisionVector) (item : Stored) :
    Action σ Visit := do
  Action.ofExcept (DocumentStore.requireAvailable s).1
  if ← f.includeId item.id then
    if ← f.includeDocument item.document then
      let found ← Action.ofExcept (s.nodeAt item.document.path v)
      Action.ofExcept (wholeVisit found)
    else pure .dropped
  else pure .skipped

/-- Visits documents one after the other, and collects the entries that they yield. -/
def sweep (s : DocumentStore) (f : PathFilter σ) (v : RevisionVector) :
    List Stored → List Entry → Action σ (List Entry)
  | [], entries => pure entries
  | item :: rest, entries => do
    match ← glance s f v item with
    | .skipped | .dropped => sweep s f v rest entries
    | .found first more =>
      match more.failure with
      | some e => Action.fail e
      | none =>
        sweep s f v rest
          (entries ++ (first :: more.states).map (Entry.ofState item.document.modified))

theorem plays_count (accepts : String → Action σ Bool) (report : String → Action σ Unit)
    (f : Tally → Tally) (w : Workspace (Nat → σ)) :
    Plays t.number (Action.modify ((ownFilter accepts report scan.hiddenRoots).count f))
      (Action.modify ((t.filter scan).count f)) w := by
  refine Action.mirrors_modify (minds_modifyTraverser fun _ _ => ?_) rfl
  rfl

theorem plays_includeId (ht : t.IsPrivate accepts report) (scan : Scan) (id : String)
    (w : Workspace (Nat → σ)) :
    Plays t.number ((ownFilter accepts report scan.hiddenRoots).includeId id)
      ((t.filter scan).includeId id) w := by
  refine (plays_count accepts report _ w).bind fun _ w₁ _ => ?_
  have hprogress : (t.filter scan).progress id = privately t.number (report id) := by
    simp only [filter, ht.progress]
  rw [hprogress]
  refine (plays_privately t.number (report id) w₁).bind fun _ w₂ _ => ?_
  split
  · exact Action.mirrors_pure (.refl _ w₂) true
  split
  · exact Action.mirrors_pure (.refl _ w₂) true
  refine (Action.mirrors_ofExcept (.refl _ w₂) _).bind fun path w₃ _ => ?_
  have haccepts : Plays t.number
      (PathFilter.includeId.accepts (ownFilter accepts report scan.hiddenRoots) path)
      (PathFilter.includeId.accepts (t.filter scan) path) w₃ := by
    have hpredicate : (t.filter scan).predicate path = privately t.number (accepts path) := by
      simp only [filter, ht.predicate]
    rw [PathFilter.includeId.accepts, PathFilter.includeId.accepts, hpredicate]
    change Plays t.number (if Path.isHidden path scan.hiddenRoots then _ else _)
      (if Path.isHidden path scan.hiddenRoots then _ else _) w₃
    split
    · exact Action.mirrors_pure (.refl _ w₃) false
    · exact plays_privately t.number (accepts path) w₃
  refine haccepts.bind fun accepted w₄ _ => ?_
  split
  · exact Action.mirrors_pure (.refl _ w₄) true
  · exact (plays_count accepts report _ w₄).bind fun _ w₅ _ =>
      Action.mirrors_pure (.refl _ w₅) false

theorem plays_includeDocument (ht : t.IsPrivate accepts report) (scan : Scan) (d : Document)
    (w : Workspace (Nat → σ)) :
    Plays t.number ((ownFilter accepts report scan.hiddenRoots).includeDocument d)
      ((t.filter scan).includeDocument d) w := by
  let f : PathFilter σ := ownFilter accepts report scan.hiddenRoots
  let g : PathFilter (Workspace (Nat → σ)) := t.filter scan
  let rejected (tally : Tally) : Tally :=
    { tally with documentsRejected := tally.documentsRejected + 1 }
  have hrest (included : Bool) (w : Workspace (Nat → σ)) : Plays t.number
      (if included then pure true else do
        Action.modify (f.count rejected)
        pure false)
      (if included then pure true else do
        Action.modify (g.count rejected)
        pure false) w := by
    split
    · exact Action.mirrors_pure (.refl _ w) true
    · exact (plays_count accepts report _ w).bind fun _ w₁ _ =>
        Action.mirrors_pure (.refl _ w₁) false
  have hpredicate : g.predicate d.path = privately t.number (accepts d.path) := by
    simp only [g, filter, ht.predicate]
  rw [PathFilter.includeDocument, PathFilter.includeDocument]
  split
  · exact hrest false w
  change Plays t.number (if Path.isHidden d.path scan.hiddenRoots then _ else _)
    (if Path.isHidden d.path scan.hiddenRoots then _ else _) w
  split
  · exact hrest false w
  · rw [hpredicate]
    exact (plays_privately t.number (accepts d.path) w).bind fun included w₁ _ => hrest included w₁

theorem minds_node (ht : t.backend = .memory) (hs : w.store.Sound)
    (ha : w.store.available = true) (path : String) (v : RevisionVector) :
    Action.Ends (Still n) (t.backend.node path v) w (w.store.nodeAt path v) := by
  obtain ⟨r, hr, hagrees⟩ := Repository.ends_node hs ha path v
  refine ⟨{ w with repository := r }, ?_, ⟨hagrees.1, rfl, rfl, fun _ _ => rfl⟩, rfl⟩
  rw [ht]
  show onRepository (Repository.node path v) w = _
  rw [onRepository, Action.zoom, hr]
  rfl

theorem plays_materialize (ht : t.IsPrivate accepts report) (hs : w.store.Sound)
    (ha : w.store.available = true) (d : Document) (v : RevisionVector) :
    Plays t.number (do
      let found ← Action.ofExcept (w.store.nodeAt d.path v)
      Action.ofExcept (wholeVisit found)) (do
      match ← t.materialize d v with
      | some (first, more) => pure (.found first more)
      | none => pure .dropped) w := by
  rw [materialize, bind_assoc]
  refine (Action.mirrors_of_ends (minds_node ht.backend hs ha d.path v)).bind fun found w₁ _ => ?_
  cases found with
  | none => exact Action.mirrors_pure (.refl _ w₁) _
  | some n =>
    simp only [wholeVisit, unfold_documents ht.delivery]
    cases n.present with
    | false => exact Action.mirrors_pure (.refl _ w₁) _
    | true =>
      cases n.descendants.failure with
      | some e => exact Action.mirrors_ofExcept (.refl _ w₁) _
      | none => exact Action.mirrors_pure (.refl _ w₁) _

/-- A visit comes to what a glance at the document comes to. -/
theorem plays_visit (ht : t.IsPrivate accepts report) (hs : s.Sound) (hagrees : s.Agrees w.store)
    (scan : Scan) (hissued : s.Issued item) :
    Plays t.number
      (glance s (ownFilter accepts report scan.hiddenRoots) scan.snapshot item)
      (t.visit scan item) w := by
  have havailable : Plays t.number (Action.ofExcept (DocumentStore.requireAvailable s).1)
      (onStore DocumentStore.requireAvailable) w := by
    have hcheck : (DocumentStore.requireAvailable s).1 =
        (DocumentStore.requireAvailable w.store).1 := by
      rw [DocumentStore.requireAvailable, DocumentStore.requireAvailable, hagrees.available]
    rw [hcheck]
    exact Action.mirrors_of_ends (minds_onStore ⟨w.store, rfl, .refl _⟩)
  rw [visit, glance, offer]
  simp only [bind_assoc]
  cases ha : s.available with
  | false =>
    obtain ⟨w₁, hcheck, h₁, hcaller⟩ := havailable
    rw [DocumentStore.requireAvailable, ha] at hcheck hcaller ⊢
    refine ⟨w₁, ?_, h₁, hcaller⟩
    rw [Action.bind_apply, hcheck]
    rfl
  | true =>
    refine havailable.bind fun _ w₁ h₁ => ?_
    refine (plays_includeId ht scan item.id w₁).bind fun accepted w₂ h₂ => ?_
    have h₁₂ : s.Agrees w₂.store := hagrees.trans (h₁.trans h₂).store
    cases accepted with
    | false => exact Action.mirrors_pure (.refl _ w₂) _
    | true =>
      have hremember : Action.Ends (Still t.number) (changeStore (·.rememberIfCurrent item)) w₂
          (.ok ()) :=
        minds_onStore (Action.ends_modify
          (DocumentStore.agrees_rememberIfCurrent (h₁₂.issued hissued)))
      simp only [↓reduceIte, bind_assoc, pure_bind]
      refine hremember.mirrors_bind fun w₃ h₃ => ?_
      refine (plays_includeDocument ht scan item.document w₃).bind fun included w₄ h₄ => ?_
      have h₁₄ : s.Agrees w₄.store := h₁₂.trans (h₃.trans h₄).store
      cases included with
      | false => exact Action.mirrors_pure (.refl _ w₄) _
      | true =>
        rw [← h₁₄.nodeAt]
        exact plays_materialize ht (h₁₄.sound hs) (h₁₄.available.trans ha) item.document
          scan.snapshot

theorem minds_complete (t : Traverser (Nat → σ)) (scan : Scan) (produced : Nat)
    (w : Workspace (Nat → σ)) :
    Action.Ends (Still n) (t.complete scan produced) w (.ok ()) :=
  ⟨_, rfl, ⟨.refl _, rfl, rfl, fun _ _ => rfl⟩, rfl⟩

theorem foldlM_collect {υ : Type} (l entries : List Entry) :
    (l.foldlM (fun entries e => pure (entries ++ [e])) entries : Action (Workspace υ) _) =
      pure (entries ++ l) := by
  induction l generalizing entries with
  | nil => rw [List.foldlM_nil, List.append_nil]
  | cons e l ih => rw [List.foldlM_cons, pure_bind, ih, List.append_assoc, List.singleton_append]

/-- Collecting the entries of documents comes to what a sweep of them comes to. -/
theorem plays_foldRest (ht : t.IsPrivate accepts report) (hs : s.Sound)
    (hagrees : s.Agrees w.store) (hopen : w.IsOpen scan.cursor) {items : List Stored}
    (hissued : ∀ item ∈ items, s.Issued item) (produced : Nat) (entries : List Entry) :
    Plays t.number
      (sweep s (ownFilter accepts report scan.hiddenRoots) scan.snapshot items entries)
      (t.foldRest (fun entries e => pure (entries ++ [e])) scan items produced entries) w := by
  induction items generalizing w produced entries with
  | nil =>
    exact (minds_complete t scan produced w).mirrors_bind fun w₁ _ =>
      Action.mirrors_pure (.refl _ w₁) entries
  | cons item rest ih =>
    obtain ⟨hitem, hrest⟩ := List.forall_mem_cons.1 hissued
    refine (plays_visit ht hs hagrees scan hitem).bind fun visited w₁ h₁ => ?_
    have hopen₁ : w₁.IsOpen scan.cursor := hopen.mono (h₁.cursors ▸ List.prefix_refl _)
    have hgoOn {w₂ : Workspace (Nat → σ)} (h₂ : w₁.Minds t.number w₂) (produced : Nat)
        (entries : List Entry) : Plays t.number
          (sweep s (ownFilter accepts report scan.hiddenRoots) scan.snapshot rest entries)
          (t.foldRest (fun entries e => pure (entries ++ [e])) scan rest produced entries) w₂ :=
      ih (hagrees.trans (h₁.trans h₂).store) (hopen₁.mono (h₂.cursors ▸ List.prefix_refl _)) hrest
        produced entries
    cases visited with
    | skipped => exact hgoOn (.refl _ w₁) produced entries
    | dropped =>
      exact (minds_requireOpen hopen₁).mirrors_bind fun w₂ h₂ => hgoOn h₂ produced entries
    | found first more =>
      simp only [foldlM_collect, pure_bind]
      cases more.failure with
      | some e => exact ⟨w₁, rfl, .refl _ w₁, rfl⟩
      | none => exact (minds_requireOpen hopen₁).mirrors_bind fun w₂ h₂ => hgoOn h₂ _ _

/-! ## Opening a scan -/

/-- The workspace and the scan after a traverser opened it. -/
structure Opens (t : Traverser (Nat → σ)) (v : RevisionVector) (items : List Stored)
    (w : Workspace (Nat → σ)) (scan : Scan) (w' : Workspace (Nat → σ)) : Prop where
  store : w.store.Agrees w'.store
  cursors : ∃ c : Cursor, w'.cursors = w.cursors ++ [c] ∧ c.closed = false ∧ c.Closable
  enrolled : w'.traversers.length = w.traversers.length
  others : ∀ m ≠ t.number, w'.traverser m = w.traverser m
  registered : t.number < w.traversers.length →
    (t.state w').closer.resources = (t.state w).closer.resources ++ [w.cursors.length]
  caller : w'.caller = w.caller
  cursor : scan.cursor = w.cursors.length
  snapshot : scan.snapshot = v
  hiddenRoots : scan.hiddenRoots = (t.state w).hiddenRoots
  remaining : scan.remaining = items
  pending : scan.pending = {}
  rested : scan.rested = true

theorem minds_tallied (t : Traverser (Nat → σ)) (w : Workspace (Nat → σ)) :
    w.Minds n (t.tallied w) := by
  refine minds_modifyTraverser fun _ _ => ?_
  rfl

theorem opens_openScan (hbackend : t.backend = .memory) {items : List Stored}
    (h : w.store.scannable t.range = .ok items) (v : RevisionVector) :
    ∃ scan w', t.openScan v w = (.ok scan, w') ∧ Opens t v items w scan w' := by
  let w₁ : Workspace (Nat → σ) := (t.tallied w).cursorOpened t.range items
  have hlength : w₁.traversers.length = w.traversers.length := List.length_modify ..
  refine ⟨_, _, openScan_of_ok hbackend h v, Workspace.agrees_cursorOpened t.range items _,
    ⟨.ofRange t.range, rfl, rfl, Cursor.closable_ofRange t.range⟩,
    (List.length_modify ..).trans hlength, fun m hm => ?_, fun hmade => ?_, rfl, rfl, rfl, rfl, rfl,
    rfl, rfl⟩
  · have hregistered := traverser_modifyTraverser_ne hm.symm
      (fun s => { s with closer := s.closer.register w.cursors.length }) w₁
    exact hregistered.trans (traverser_modifyTraverser_ne hm.symm _ w)
  · have htallied := traverser_modifyTraverser_same hmade
      fun s => { s with tallies := s.tallies ++ [{}] }
    have hregistered := traverser_modifyTraverser_same (hlength ▸ hmade)
      fun s => { s with closer := s.closer.register w.cursors.length }
    exact (congrArg (fun s => s.closer.resources) hregistered).trans
      (congrArg (fun s : TraverserState => s.closer.resources ++ [w.cursors.length]) htallied)

theorem Opens.isOpen {v : RevisionVector} {items : List Stored} {w' : Workspace (Nat → σ)}
    (h : Opens t v items w scan w') : w'.IsOpen scan.cursor := by
  obtain ⟨c, hcursors, hclosed, -⟩ := h.cursors
  refine ⟨c, ?_, hclosed⟩
  rw [hcursors, h.cursor]
  exact List.getElem?_concat_length

/-! ## A traverser alone -/

theorem minds_iterate (t : Traverser (Nat → σ)) (w : Workspace (Nat → σ)) :
    Action.Ends (Still t.number) t.iterate w (.ok (t.state w).iterations) := by
  refine ⟨_, rfl, minds_modifyTraverser fun _ _ => ?_, rfl⟩
  rfl

theorem minds_ask {v : RevisionVector} (hpin : (t.state w).pin = .of v) (ticket : Nat) :
    Action.Ends (Still t.number) (t.ask ticket) w (.ok (.pinned v)) := by
  refine ⟨t.modifyState (fun s => { s with pin := .of v }) w, ?_, ?_, rfl⟩
  · simp only [ask, Action.bind_apply, Action.get_apply, hpin]
    rfl
  · refine minds_modifyTraverser fun x hx => ?_
    have hstate : t.state w = x := by
      rw [state, Workspace.traverser, List.getD_eq_getElem?_getD, hx]
      rfl
    rw [TraverserState.terms, TraverserState.terms, ← hpin, hstate]

/-- Sweeps the documents in a range, if they can be scanned. -/
def traversal (s : DocumentStore) (f : PathFilter σ) (v : RevisionVector) (range : TimeRange) :
    Action σ (List Entry) := do
  let items ← Action.ofExcept (s.scannable range)
  sweep s f v items []

/-- Lists the entries of the traverser when it runs alone. -/
def toList {υ : Type} (t : Traverser υ) : Action (Workspace υ) (List Entry) :=
  t.fold (fun entries e => pure (entries ++ [e])) []

theorem toList_eq_traversal (ht : t.IsPrivate accepts report) (hs : w.store.Sound)
    {v : RevisionVector} (hpin : (t.state w).pin = .of v) :
    (t.toList w).1 = (traversal w.store (ownFilter accepts report (t.state w).hiddenRoots) v
      t.range (w.caller t.number)).1 := by
  obtain ⟨w₁, hiterate, h₁, hcaller₁⟩ := minds_iterate t w
  have hterms₁ : (t.state w₁).terms = (t.state w).terms := map_traverser h₁.terms t.number
  obtain ⟨w₂, hask, h₂, hcaller₂⟩ :=
    minds_ask ((congrArg Prod.fst hterms₁).trans hpin) (t.state w).iterations
  have h₁₂ : w.Minds t.number w₂ := h₁.trans h₂
  have hcaller : w₂.caller t.number = w.caller t.number := hcaller₂.trans hcaller₁
  have hroots : (t.state w₂).hiddenRoots = (t.state w).hiddenRoots :=
    congrArg (fun terms => terms.2.1) (map_traverser h₁₂.terms t.number)
  have hscannable := h₁₂.store.scannable t.range
  simp only [toList, fold, enter, Action.bind_apply, hiterate, hask]
  rw [traversal, Action.bind_apply]
  cases hitems : w.store.scannable t.range with
  | error e =>
    rw [openScan_of_error ht.backend (hscannable.trans hitems) v]
    rfl
  | ok items =>
    obtain ⟨scan, w₃, hopen, h₃⟩ := opens_openScan ht.backend (hscannable.trans hitems) v
    have hisOpen : w₃.IsOpen scan.cursor := h₃.isOpen
    have hrequire := requireOpen_of_isOpen hisOpen
    obtain ⟨w₄, hfold, -⟩ := plays_foldRest ht hs (h₁₂.store.trans h₃.store) hisOpen
      (DocumentStore.issued_scannable hs hitems) 0 []
    dsimp only at hfold
    rw [h₃.caller, hcaller, h₃.hiddenRoots, h₃.snapshot, hroots] at hfold
    rw [hopen]
    simp only [Action.bind_apply, Action.pure_apply, hrequire, h₃.remaining]
    rw [hfold]
    rfl

end Traverser

end VersionedTree
