import VersionedTree.Proofs.Snapshots
import VersionedTree.Traversal.Parallel

/-! # What a scan yields

A plain traverser reads the stores of the workspace itself and asks functions that decide from
their arguments alone. What its scan yields is then determined by the documents of its stream and
by the nodes that the store finds for their paths. A step of the scan takes the first entry off.
-/

namespace VersionedTree

/-- Items that are yielded in order, and how that ends if not well. -/
structure Yield (α : Type) where
  items : List α := []
  failure : Option Failure := none

namespace Yield

variable {α β : Type}

/-- One after the other; nothing follows a failure. -/
def append (a b : Yield α) : Yield α :=
  match a.failure with
  | some _ => a
  | none => ⟨a.items ++ b.items, b.failure⟩

instance : Append (Yield α) := ⟨append⟩

def map (f : α → β) (a : Yield α) : Yield β := ⟨a.items.map f, a.failure⟩

theorem append_of_failure {a : Yield α} {e : Failure} (h : a.failure = some e) (b : Yield α) :
    a ++ b = a := by
  show append a b = a
  rw [append, h]

theorem append_of_complete {a : Yield α} (h : a.failure = none) (b : Yield α) :
    a ++ b = ⟨a.items ++ b.items, b.failure⟩ := by
  show append a b = _
  rw [append, h]

@[simp] theorem empty_append (b : Yield α) : ({} : Yield α) ++ b = b := rfl

theorem cons_append (x : α) (items : List α) (failure : Option Failure) (b : Yield α) :
    (⟨x :: items, failure⟩ : Yield α) ++ b =
      ⟨x :: (⟨items, failure⟩ ++ b : Yield α).items,
        (⟨items, failure⟩ ++ b : Yield α).failure⟩ := by
  cases failure with
  | none => rfl
  | some e => rfl

theorem map_append (f : α → β) (a b : Yield α) : (a ++ b).map f = a.map f ++ b.map f := by
  obtain ⟨items, failure⟩ := a
  cases failure with
  | none =>
    rw [append_of_complete rfl, append_of_complete rfl]
    simp [map]
  | some e => rfl

/-- What some elements yield one after the other. -/
def flatMap (f : α → Yield β) (l : List α) : Yield β := l.foldr (fun a rest => f a ++ rest) {}

@[simp] theorem flatMap_nil (f : α → Yield β) : flatMap f [] = {} := rfl

@[simp] theorem flatMap_cons (f : α → Yield β) (a : α) (l : List α) :
    flatMap f (a :: l) = f a ++ flatMap f l := rfl

theorem flatMap_congr {f g : α → Yield β} {l : List α} (h : ∀ a ∈ l, f a = g a) :
    flatMap f l = flatMap g l := by
  induction l with
  | nil => rfl
  | cons a l ih =>
    rw [flatMap_cons, flatMap_cons, h a List.mem_cons_self,
      ih fun x hx => h x (List.mem_cons_of_mem a hx)]

theorem flatMap_of_complete {f : α → Yield β} {l : List α} (h : ∀ a ∈ l, (f a).failure = none) :
    flatMap f l = ⟨l.flatMap fun a => (f a).items, none⟩ := by
  induction l with
  | nil => rfl
  | cons a l ih =>
    rw [flatMap_cons, append_of_complete (h a List.mem_cons_self),
      ih fun x hx => h x (List.mem_cons_of_mem a hx)]
    rfl

theorem complete_of_flatMap {f : α → Yield β} {l : List α} (h : (flatMap f l).failure = none) :
    ∀ a ∈ l, (f a).failure = none := by
  induction l with
  | nil => exact List.forall_mem_nil _
  | cons a l ih =>
    rw [flatMap_cons] at h
    cases ha : (f a).failure with
    | some e =>
      rw [append_of_failure ha, ha] at h
      cases h
    | none =>
      rw [append_of_complete ha] at h
      exact List.forall_mem_cons.2 ⟨ha, ih h⟩

theorem map_flatMap {γ : Type} (g : β → γ) (f : α → Yield β) (l : List α) :
    (flatMap f l).map g = flatMap (fun a => (f a).map g) l := by
  induction l with
  | nil => rfl
  | cons a l ih => rw [flatMap_cons, flatMap_cons, map_append, ih]

end Yield

namespace Entry

/-- What an entry says of the tree: a path and the state of its node. -/
def seen (e : Entry) : String × NodeState := (e.path, e.state)

end Entry

namespace DocumentStore

variable {s s' : DocumentStore} {v : RevisionVector} {accepts : String → Bool} {item : Stored}

/-- The entries of a node and of what is bundled with it. -/
def unfolded (modified : Option Modified) (n : NodeState) : Yield Entry :=
  ⟨(n :: n.descendants.states).map (Entry.ofState modified), n.descendants.failure⟩

/-- What the node that was looked for yields. -/
def yieldOfNode (modified : Option Modified) : Except Failure (Option NodeState) → Yield Entry
  | .ok none => {}
  | .ok (some n) => unfolded modified n
  | .error e => ⟨[], some e⟩

/-- What a document yields at a snapshot to a traversal of the accepted paths. -/
def yieldOf (s : DocumentStore) (v : RevisionVector) (accepts : String → Bool) (item : Stored) :
    Yield Entry :=
  if item.document.isSplit = false ∧ accepts item.document.path = true then
    yieldOfNode item.document.modified (s.nodeAt item.document.path v)
  else {}

/-- What documents yield one after the other. -/
def yields (s : DocumentStore) (v : RevisionVector) (accepts : String → Bool)
    (items : List Stored) : Yield Entry :=
  Yield.flatMap (s.yieldOf v accepts) items

theorem yields_cons (item : Stored) (items : List Stored) :
    s.yields v accepts (item :: items) = s.yieldOf v accepts item ++ s.yields v accepts items := rfl

theorem yieldOf_of_not_accepted (h : accepts item.document.path = false) :
    s.yieldOf v accepts item = {} := by
  rw [yieldOf, if_neg]
  simp [h]

theorem yieldOf_of_isSplit (h : item.document.isSplit = true) :
    s.yieldOf v accepts item = {} := by
  rw [yieldOf, if_neg]
  simp [h]

theorem yieldOf_of_accepted (hlive : item.document.isSplit = false)
    (h : accepts item.document.path = true) :
    s.yieldOf v accepts item =
      yieldOfNode item.document.modified (s.nodeAt item.document.path v) := by
  rw [yieldOf, if_pos ⟨hlive, h⟩]

theorem Agrees.select (h : s.Agrees s') (range : TimeRange) : s'.select range = s.select range := by
  rw [DocumentStore.select, DocumentStore.select, h.catalog]

theorem Agrees.requireTimes (h : s.Agrees s') (range : TimeRange) :
    s'.requireTimes range = s.requireTimes range := by
  rw [DocumentStore.requireTimes, DocumentStore.requireTimes, h.catalog]

theorem Agrees.yieldOf (h : s.Agrees s') (v : RevisionVector) (accepts : String → Bool)
    (item : Stored) : s'.yieldOf v accepts item = s.yieldOf v accepts item := by
  rw [DocumentStore.yieldOf, DocumentStore.yieldOf, h.nodeAt]

theorem Agrees.yields (h : s.Agrees s') (v : RevisionVector) (accepts : String → Bool)
    (items : List Stored) : s'.yields v accepts items = s.yields v accepts items :=
  Yield.flatMap_congr fun item _ => h.yieldOf v accepts item

end DocumentStore

/-- Closing the cursor fails on nothing. -/
def Cursor.Closable (c : Cursor) : Prop :=
  c.fetching = false ∧ ∀ r ∈ c.releases, r.failure = none

/-! ## Plain traversers -/

/-- A traverser of the workspace's own stores that decides on paths by `accepts` and reports ids to
the callers' state. -/
def Traverser.plain {υ : Type} (label : String) (range : TimeRange) (accepts : String → Bool)
    (report : String → υ → υ) : Traverser υ where
  label
  range
  predicate := fun path => pure (accepts path)
  progress := fun id => Action.modify fun w => { w with caller := report id w.caller }

namespace TraverserState

/-- What a scan depends on. -/
def config (t : TraverserState) : Pin × List String := (t.pin, t.hiddenRoots)

end TraverserState

namespace Workspace

variable {υ : Type} {report : String → υ → υ} {w w' : Workspace υ} {n : Nat}

/-- The cursors from number `m` on can be closed, and they are all that the traversers from number
`n` on have opened. -/
structure Tidy (n m : Nat) (w : Workspace υ) : Prop where
  opened : m ≤ w.cursors.length
  closable : ∀ i c, m ≤ i → w.cursors[i]? = some c → c.Closable
  registered : ∀ i x, n ≤ i → w.traversers[i]? = some x → ∀ c ∈ x.closer.resources, m ≤ c

theorem tidy_lengths (w : Workspace υ) :
    w.Tidy w.traversers.length w.cursors.length := by
  refine ⟨Nat.le_refl _, fun i c hi hget => ?_, fun i x hi hget => ?_⟩
  · rw [List.getElem?_eq_none hi] at hget
    cases hget
  · rw [List.getElem?_eq_none hi] at hget
    cases hget

theorem Tidy.modifyTraverser {k m : Nat} (h : w.Tidy k m) {f : TraverserState → TraverserState}
    (hf : ∀ x, ∀ c ∈ (f x).closer.resources, c ∈ x.closer.resources ∨ m ≤ c) :
    (modifyTraverser n f w).Tidy k m := by
  refine ⟨h.opened, h.closable, fun i x hi hx c hc => ?_⟩
  rw [Workspace.modifyTraverser, List.getElem?_modify] at hx
  obtain ⟨y, hy, rfl⟩ := Option.map_eq_some_iff.1 hx
  split at hc
  · rcases hf y c hc with hc | hc
    · exact h.registered i y hi hy c hc
    · exact hc
  · exact h.registered i y hi hy c hc

theorem Tidy.openCursor {k m : Nat} (h : w.Tidy k m) {cursor : Cursor} (hc : cursor.Closable) :
    Tidy k m { w with cursors := w.cursors ++ [cursor] } := by
  refine ⟨?_, fun i c hi hget => ?_, h.registered⟩
  · rw [List.length_append]
    exact Nat.le_add_right_of_le h.opened
  · rw [List.getElem?_append] at hget
    split at hget
    · exact h.closable i c hi hget
    · rw [← List.mem_singleton.1 (List.mem_of_getElem? hget)] at hc
      exact hc

theorem Tidy.enroll {k m : Nat} (h : w.Tidy k m) {x : TraverserState}
    (hx : x.closer.resources = []) :
    Tidy k m { w with traversers := w.traversers ++ [x] } := by
  refine ⟨h.opened, h.closable, fun i y hi hget => ?_⟩
  rw [List.getElem?_append] at hget
  split at hget
  · exact h.registered i y hi hget
  · rw [List.mem_singleton.1 (List.mem_of_getElem? hget), hx]
    exact fun c hc => by cases hc

/-- From one workspace to the other documents were read only, and cursors opened that can be
closed. -/
structure Looks (w w' : Workspace υ) : Prop where
  repository : w.repository.Agrees w'.repository
  cursors : w.cursors <+: w'.cursors
  configs : w'.traversers.map TraverserState.config = w.traversers.map TraverserState.config
  tidy : ∀ {n m}, w.Tidy n m → w'.Tidy n m

theorem Looks.refl (w : Workspace υ) : w.Looks w :=
  ⟨.refl w.repository, List.prefix_refl _, rfl, id⟩

theorem Looks.trans {w'' : Workspace υ} (h : w.Looks w') (h' : w'.Looks w'') : w.Looks w'' :=
  ⟨Trans.trans h.repository h'.repository, h.cursors.trans h'.cursors, h'.configs.trans h.configs,
    fun ht => h'.tidy (h.tidy ht)⟩

theorem Looks.store (h : w.Looks w') : w.store.Agrees w'.store := h.repository.1

theorem Looks.kept (h : w.Looks w') (hk : w.repository.Kept) : w'.repository.Kept :=
  h.repository.kept hk

/-- Moreover, nothing but reports of ids came to the callers' state. -/
structure Reads (report : String → υ → υ) (w w' : Workspace υ) : Prop extends Looks w w' where
  reported : ∃ ids : List String, w'.caller = ids.foldl (fun u id => report id u) w.caller

theorem Reads.of_caller_eq (h : w.Looks w') (hcaller : w'.caller = w.caller) :
    w.Reads report w' := ⟨h, [], hcaller⟩

theorem Reads.refl (w : Workspace υ) : w.Reads report w := .of_caller_eq (.refl w) rfl

theorem Reads.trans {w'' : Workspace υ} (h : w.Reads report w') (h' : w'.Reads report w'') :
    w.Reads report w'' := by
  obtain ⟨ids, hids⟩ := h.reported
  obtain ⟨ids', hids'⟩ := h'.reported
  refine ⟨h.toLooks.trans h'.toLooks, ids ++ ids', ?_⟩
  rw [hids', hids, List.foldl_append]

instance : Trans (Reads report) (Reads report) (Reads report) := ⟨Reads.trans⟩

/-- The cursor was opened and not closed. -/
def IsOpen (w : Workspace υ) (n : Nat) : Prop := ∃ c, w.cursors[n]? = some c ∧ c.closed = false

theorem IsOpen.mono (ho : w.IsOpen n) (h : w.cursors <+: w'.cursors) : w'.IsOpen n := by
  obtain ⟨c, hc, hopen⟩ := ho
  obtain ⟨more, hmore⟩ := h
  refine ⟨c, ?_, hopen⟩
  rw [← hmore, List.getElem?_append_left (List.getElem?_eq_some_iff.1 hc).1, hc]

theorem cursor_of_getElem? {c : Cursor} (h : w.cursors[n]? = some c) : w.cursor n = c := by
  rw [cursor, List.getD_eq_getElem?_getD, h]
  rfl

theorem requireOpen_of_isOpen (h : w.IsOpen n) : requireOpen n w = (.ok (), w) := by
  obtain ⟨c, hc, hopen⟩ := h
  rw [requireOpen, Action.bind_apply, Action.get_apply]
  dsimp only
  rw [cursor_of_getElem? hc, Cursor.requireOpen, hopen]
  rfl

theorem resumeFetch_of_isOpen (h : w.IsOpen n) : resumeFetch n w = (.ok (), w) := by
  obtain ⟨c, hc, hopen⟩ := h
  rw [resumeFetch, Action.bind_apply, Action.get_apply]
  dsimp only
  rw [cursor_of_getElem? hc, Cursor.requireUninterrupted, hopen]
  rfl

theorem reads_of_repository {r : Repository} (h : w.repository.Agrees r) :
    w.Reads report { w with repository := r } :=
  ⟨⟨h, List.prefix_refl _, rfl, fun ht => ⟨ht.opened, ht.closable, ht.registered⟩⟩, [], rfl⟩

theorem reads_report (id : String) :
    w.Reads report { w with caller := report id w.caller } :=
  ⟨⟨.refl w.repository, List.prefix_refl _, rfl,
    fun ht => ⟨ht.opened, ht.closable, ht.registered⟩⟩, [id], rfl⟩

theorem looks_noted (e : Event) (w : Workspace υ) : w.Looks (noted e w) :=
  ⟨.refl w.repository, List.prefix_refl _, rfl,
    fun ht => ⟨ht.opened, ht.closable, ht.registered⟩⟩

theorem reads_note (e : Event) : Action.Ends (Reads report) (note e) w (.ok ()) :=
  ⟨noted e w, rfl, looks_noted e w, [], rfl⟩

theorem map_modifyTraverser {β : Type} {f : TraverserState → TraverserState}
    {g : TraverserState → β} (hf : ∀ x, w.traversers[n]? = some x → g (f x) = g x) :
    (modifyTraverser n f w).traversers.map g = w.traversers.map g := by
  apply List.ext_getElem?
  intro i
  simp only [modifyTraverser, List.getElem?_map, List.getElem?_modify]
  by_cases hi : n = i
  · subst hi
    cases hx : w.traversers[n]? with
    | none => rfl
    | some x => simp [hf x hx]
  · simp [hi]

theorem reads_modifyTraverser {f : TraverserState → TraverserState}
    (hf : ∀ x, w.traversers[n]? = some x → (f x).config = x.config)
    (hcloser : ∀ x, (f x).closer = x.closer) : w.Reads report (modifyTraverser n f w) :=
  .of_caller_eq ⟨.refl w.repository, List.prefix_refl _, map_modifyTraverser hf,
    fun ht => ht.modifyTraverser fun x _ hc => .inl (hcloser x ▸ hc)⟩ rfl

theorem Reads.register (h : w.Reads report w') {cursor : Nat}
    (hcursor : w.cursors.length ≤ cursor) (n : Nat) :
    w.Reads report
      (modifyTraverser n (fun x => { x with closer := x.closer.register cursor }) w') := by
  refine ⟨⟨h.repository, h.cursors, ?_, fun ht => (h.tidy ht).modifyTraverser fun x c hc => ?_⟩,
    h.reported⟩
  · refine (map_modifyTraverser ?_).trans h.configs
    intro _ _
    rfl
  · rcases List.mem_append.1 hc with hc | hc
    · exact .inl hc
    · rw [List.mem_singleton.1 hc]
      exact .inr (Nat.le_trans ht.opened hcursor)

theorem map_traverser {β : Type} {f : TraverserState → β}
    (h : w'.traversers.map f = w.traversers.map f) (n : Nat) :
    f (w'.traverser n) = f (w.traverser n) := by
  have hget : (w'.traversers[n]?).map f = (w.traversers[n]?).map f := by
    rw [← List.getElem?_map, ← List.getElem?_map, h]
  rw [traverser, traverser, List.getD_eq_getElem?_getD, List.getD_eq_getElem?_getD]
  cases hw : w.traversers[n]? with
  | none =>
    rw [hw] at hget
    rw [Option.map_eq_none_iff.1 hget]
  | some x =>
    rw [hw] at hget
    obtain ⟨x', hx', hsame⟩ := Option.map_eq_some_iff.1 hget
    rw [hx']
    exact hsame

theorem ends_onRepository {α : Type} {x : Action Repository α} {result : Except Failure α}
    (h : Action.Ends Repository.Agrees x w.repository result) :
    Action.Ends (Reads report) (onRepository x) w result := by
  obtain ⟨r, hx, hr⟩ := h
  refine ⟨{ w with repository := r }, ?_, reads_of_repository hr⟩
  rw [onRepository, Action.zoom, hx]

theorem ends_onStore {α : Type} {x : Action DocumentStore α} {result : Except Failure α}
    (h : Action.Ends DocumentStore.Agrees x w.store result) :
    Action.Ends (Reads report) (onStore x) w result :=
  ends_onRepository (Repository.ends_onStore h)

theorem ends_requireOpen (report : String → υ → υ) (h : w.IsOpen n) :
    Action.Ends (Reads report) (requireOpen n) w (.ok ()) :=
  ⟨w, requireOpen_of_isOpen h, .refl w⟩

theorem ends_resumeFetch (report : String → υ → υ) (h : w.IsOpen n) :
    Action.Ends (Reads report) (resumeFetch n) w (.ok ()) :=
  ⟨w, resumeFetch_of_isOpen h, .refl w⟩

theorem ends_offer {f : String → Action (Workspace υ) Bool} {item : Stored}
    {result : Except Failure Bool} (ha : w.store.available = true) (hi : w.store.Issued item)
    (hf : ∀ w', w.Reads report w' → Action.Ends (Reads report) (f item.id) w' result) :
    Action.Ends (Reads report) (offer f item) w result := by
  refine (ends_onStore (DocumentStore.ends_requireAvailable ha)).bind_ok fun w₁ h₁ => ?_
  have hfilter := hf w₁ h₁
  cases result with
  | error e => exact hfilter.bind_error _
  | ok accepted =>
    refine hfilter.bind_ok fun w₂ h₂ => ?_
    cases accepted with
    | false => exact Action.ends_pure (.refl w₂) _
    | true =>
      have hagrees : w.store.Agrees w₂.store := (h₁.trans h₂).repository.1
      have hremember : Action.Ends (Reads report)
          (changeStore (·.rememberIfCurrent item)) w₂ (.ok ()) :=
        ends_onStore (Action.ends_modify
          (DocumentStore.agrees_rememberIfCurrent (hagrees.issued hi)))
      exact hremember.bind_ok fun w₃ _ => Action.ends_pure (.refl w₃) _

end Workspace

namespace Traverser

variable {υ : Type} {t : Traverser υ} {accepts : String → Bool} {report : String → υ → υ}
  {w : Workspace υ} {scan : Scan} {item : Stored}

/-- The traverser works as a plain one does, over whatever range. -/
structure IsPlain (t : Traverser υ) (accepts : String → Bool) (report : String → υ → υ) :
    Prop where
  delivery : t.delivery = .nodes
  predicate : t.predicate = fun path => pure (accepts path)
  progress : t.progress = fun id => Action.modify fun w => { w with caller := report id w.caller }
  backend : t.backend = .memory

theorem isPlain_plain (label : String) (range : TimeRange) (accepts : String → Bool)
    (report : String → υ → υ) (number : Nat) :
    { plain label range accepts report with number }.IsPlain accepts report := ⟨rfl, rfl, rfl, rfl⟩

/-- Is a path neither hidden nor rejected? -/
def allows (accepts : String → Bool) (hiddenRoots : List String) (path : String) : Bool :=
  !Path.isHidden path hiddenRoots && accepts path

/-- What the stage of ids makes of a document: it rejects what the document stage would reject for
its path, unless the id does not tell the path. -/
def passesId (accepts : String → Bool) (hiddenRoots : List String) (d : Document) : Bool :=
  d.isSplit || Path.isLong d.path || allows accepts hiddenRoots d.path

/-- What the stage of ids makes of any id, which may be none that a path has. -/
def idOutcome (accepts : String → Bool) (hiddenRoots : List String) (id : String) :
    Except Failure Bool :=
  if DocumentId.isHashed id || DocumentId.isPrevious id then .ok true
  else ((DocumentId.path id).mapError .documentId).map (allows accepts hiddenRoots)

theorem idOutcome_eq (accepts : String → Bool) (hiddenRoots : List String)
    (hd : item.document.IsMain ∨ item.document.IsSplitOff) :
    idOutcome accepts hiddenRoots item.id =
      .ok (passesId accepts hiddenRoots item.document) := by
  rw [idOutcome, passesId]
  rcases hd with hmain | hsplit
  · have hid : item.id = DocumentId.ofPath item.document.path := hmain.id_eq
    rw [hid, DocumentId.isHashed_ofPath hmain.absolute, DocumentId.isPrevious_ofPath hmain.absolute,
      hmain.isSplit]
    cases hlong : Path.isLong item.document.path with
    | true => rfl
    | false =>
      rw [DocumentId.path_ofPath hmain.absolute hlong]
      rfl
  · have hprevious : DocumentId.isPrevious item.id = true := hsplit.previous
    rw [hprevious, hsplit.isSplit, Bool.or_true]
    rfl

theorem ends_count (f : Tally → Tally) :
    Action.Ends (Workspace.Reads report) (Action.modify ((t.filter scan).count f)) w (.ok ()) :=
  Action.ends_modify (Workspace.reads_modifyTraverser (fun _ _ => rfl) fun _ => rfl)

theorem ends_accepts (ht : t.IsPlain accepts report) (path : String) :
    Action.Ends (Workspace.Reads report)
      (PathFilter.includeId.accepts (t.filter scan) path) w
      (.ok (allows accepts scan.hiddenRoots path)) := by
  rw [PathFilter.includeId.accepts, allows]
  simp only [filter, ht.predicate]
  split
  · rename_i h
    rw [h]
    exact Action.ends_pure (.refl w) _
  · rename_i h
    rw [Bool.not_eq_true] at h
    rw [h]
    exact Action.ends_pure (.refl w) _

theorem ends_includeId (ht : t.IsPlain accepts report) (id : String) :
    Action.Ends (Workspace.Reads report) ((t.filter scan).includeId id) w
      (idOutcome accepts scan.hiddenRoots id) := by
  refine (ends_count _).bind_ok fun w₁ _ => ?_
  have hprogress : Action.Ends (Workspace.Reads report) ((t.filter scan).progress id) w₁
      (.ok ()) := by
    simp only [filter, ht.progress]
    exact Action.ends_modify (Workspace.reads_report id)
  refine hprogress.bind_ok fun w₂ _ => ?_
  rw [idOutcome]
  cases DocumentId.isHashed id with
  | true => exact Action.ends_pure (.refl w₂) _
  | false =>
    cases DocumentId.isPrevious id with
    | true => exact Action.ends_pure (.refl w₂) _
    | false =>
      simp only [Bool.false_eq_true, if_false, Bool.or_false]
      have hrefl : w₂.Reads report w₂ := .refl w₂
      have hpath := Action.ends_ofExcept hrefl ((DocumentId.path id).mapError Failure.documentId)
      cases hp : (DocumentId.path id).mapError Failure.documentId with
      | error e =>
        rw [hp] at hpath
        exact hpath.bind_error _
      | ok path =>
        rw [hp] at hpath
        rw [Except.map]
        refine hpath.bind_ok fun w₃ _ => ?_
        refine (ends_accepts ht path).bind_ok fun w₄ _ => ?_
        cases allows accepts scan.hiddenRoots path with
        | true => exact Action.ends_pure (.refl w₄) _
        | false => exact (ends_count _).bind_ok fun w₅ _ => Action.ends_pure (.refl w₅) _

theorem ends_includeDocument (ht : t.IsPlain accepts report) (scan : Scan) (w : Workspace υ)
    (d : Document) :
    Action.Ends (Workspace.Reads report) ((t.filter scan).includeDocument d) w
      (.ok (!d.isSplit && allows accepts scan.hiddenRoots d.path)) := by
  have hcount (b : Bool) (w' : Workspace υ) : Action.Ends (Workspace.Reads report)
      (if b = true then pure true
        else do
          Action.modify ((t.filter scan).count fun t =>
            { t with documentsRejected := t.documentsRejected + 1 })
          pure false) w' (.ok b) := by
    cases b with
    | true => exact Action.ends_pure (.refl w') _
    | false => exact (ends_count _).bind_ok fun w₁ _ => Action.ends_pure (.refl w₁) _
  rw [PathFilter.includeDocument, allows]
  have hroots : (t.filter scan).hiddenRoots = scan.hiddenRoots := rfl
  have hpredicate : (t.filter scan).predicate d.path = pure (accepts d.path) := by
    simp only [filter, ht.predicate]
  rw [hroots, hpredicate]
  cases d.isSplit with
  | true => exact (Action.ends_pure (.refl w) false).bind_ok fun w₁ _ => hcount false w₁
  | false =>
    cases Path.isHidden d.path scan.hiddenRoots with
    | true => exact (Action.ends_pure (.refl w) false).bind_ok fun w₁ _ => hcount false w₁
    | false => exact (Action.ends_pure (.refl w) _).bind_ok fun w₁ _ => hcount _ w₁

end Traverser

end VersionedTree
