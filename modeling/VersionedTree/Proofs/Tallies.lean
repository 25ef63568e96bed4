import VersionedTree.Proofs.Records
import VersionedTree.Proofs.Stages

/-! # What the tally of a scan adds up to

A scan reports every id that it comes across before the two stages of the filter decide on it, and
counts it in its tally. Each is rejected by one of the stages or handed on to have its node looked
up. The stream was told when the cursor was opened, so nothing that happens to the store since then
changes which ids are reported.
-/

namespace VersionedTree

/-- What was heard of the calls that scans make, beside a state of the functions called. -/
structure Hearing (σ : Type) where
  /-- The ids that were reported. -/
  ids : List String := []
  /-- The paths of the documents that were handed on to have their nodes looked up. -/
  paths : List String := []
  own : σ

namespace Traverser

variable {σ : Type}

/-- A traverser whose calls are heard. Its predicate only answers; what it reports to may fail,
write to the store, and have a state of its own. -/
def heard (label : String) (range : TimeRange) (delivery : Delivery) (accepts : String → Bool)
    (report : String → Action (Repository × σ) Unit) (number : Nat := 0) :
    Traverser (Hearing σ) where
  number := number
  label := label
  range := range
  delivery := delivery
  predicate path := pure (accepts path)
  progress id := do
    Action.modify fun w => { w with caller.ids := w.caller.ids ++ [id] }
    Action.zoom (fun w => (w.repository, w.caller.own))
      (fun (repository, own) w => { w with repository, caller.own := own }) (report id)
  backend :=
    { Backend.memory with
      node := fun path snapshot => do
        Action.modify fun w => { w with caller.paths := w.caller.paths ++ [path] }
        Workspace.node path snapshot }

/-- Takes the next step of an iteration, wherever it stands. -/
def moveOn {υ : Type} (t : Traverser υ) (mayPause : Bool) :
    Standing → Action (Workspace υ) Standing
  | .unbegun => do
    let ticket ← t.iterate
    return .after (← Action.attempt (t.advance mayPause (.entering ticket)))
  | .due it => return .after (← Action.attempt (t.advance mayPause it))
  | .waiting ticket => return .after (← Action.attempt (t.advance mayPause (.entering ticket)))
  | .ended failure => pure (.ended failure)

/-- Takes so many steps of an iteration. Before each something is done to the repository. -/
def moveAmid {υ : Type} (t : Traverser υ) (mayPause : Bool) :
    List (Action Repository Unit) → Standing → Action (Workspace υ) Standing
  | [], standing => pure standing
  | change :: changes, standing => do
    let _ ← Action.attempt (Workspace.onRepository change)
    t.moveAmid mayPause changes (← t.moveOn mayPause standing)

end Traverser

/-- What a scan has reported and handed on, and how it counted that. -/
structure Account where
  reported : List String := []
  handed : List String := []
  tally : Tally := {}

namespace Account

/-- Each id was counted, and all but so many that are still to be decided on were rejected or handed
on. -/
structure Balanced (a : Account) (undecided : Nat) : Prop where
  seen : a.tally.idsSeen = a.reported.length
  split : a.tally.idsSeen =
    a.tally.idsRejected + a.tally.documentsRejected + a.handed.length + undecided

def offered (a : Account) (id : String) : Account :=
  { a with reported := a.reported ++ [id], tally.idsSeen := a.tally.idsSeen + 1 }

def idRejected (a : Account) : Account :=
  { a with tally.idsRejected := a.tally.idsRejected + 1 }

def documentRejected (a : Account) : Account :=
  { a with tally.documentsRejected := a.tally.documentsRejected + 1 }

def handedOn (a : Account) (path : String) : Account :=
  { a with handed := a.handed ++ [path] }

variable {a : Account} {undecided : Nat}

theorem Balanced.offered (h : a.Balanced undecided) (id : String) :
    (a.offered id).Balanced (undecided + 1) :=
  ⟨by simp [Account.offered, h.seen], congrArg (· + 1) h.split⟩

theorem Balanced.idRejected (h : a.Balanced (undecided + 1)) :
    a.idRejected.Balanced undecided := by
  refine ⟨h.seen, h.split.trans ?_⟩
  simp only [Account.idRejected]
  omega

theorem Balanced.documentRejected (h : a.Balanced (undecided + 1)) :
    a.documentRejected.Balanced undecided := by
  refine ⟨h.seen, h.split.trans ?_⟩
  simp only [Account.documentRejected]
  omega

theorem Balanced.handedOn (h : a.Balanced (undecided + 1)) (path : String) :
    (a.handedOn path).Balanced undecided := by
  refine ⟨h.seen, h.split.trans ?_⟩
  simp only [Account.handedOn, List.length_append, List.length_singleton]
  omega

end Account

/-- A range of the documents that a store holds when a cursor is opened on them. -/
structure Opening where
  store : DocumentStore
  range : TimeRange

namespace Opening

def ids (o : Opening) : List String := (o.store.select o.range).map Stored.id

/-- It can be told of each document whether it is in the range. -/
def Told (o : Opening) : Prop := o.store.requireTimes o.range = .ok ()

end Opening

namespace Traverser

variable {σ : Type} {n : Nat} {start w : Workspace (Hearing σ)} {a : Account}

/-- Since `start`, the account is what was heard and counted for the scan with the last tally. -/
structure HasAccount (n : Nat) (start : Workspace (Hearing σ)) (a : Account)
    (w : Workspace (Hearing σ)) : Prop where
  enrolled : n < w.traversers.length
  ids : w.caller.ids = start.caller.ids ++ a.reported
  paths : w.caller.paths = start.caller.paths ++ a.handed
  tallies : (w.traverser n).tallies = (start.traverser n).tallies ++ [a.tally]

/-- What a scan has reported when it fails. -/
def Broken (n : Nat) (start : Workspace (Hearing σ)) (o : Opening)
    (w : Workspace (Hearing σ)) : Prop :=
  ∃ a, HasAccount n start a w ∧ a.reported <+: o.ids

theorem maintains_hasAccount_onRepository {α : Type} (x : Action Repository α) :
    Action.Maintains (HasAccount n start a) (Workspace.onRepository x) := fun _ h =>
  { enrolled := h.enrolled, ids := h.ids, paths := h.paths, tallies := h.tallies }

theorem maintains_hasAccount_note (e : Event) :
    Action.Maintains (HasAccount n start a) (Workspace.note e) := fun _ h =>
  { enrolled := h.enrolled, ids := h.ids, paths := h.paths, tallies := h.tallies }

theorem HasAccount.modifyTraverser (h : HasAccount n start a w)
    {f : TraverserState → TraverserState} {tally : Tally}
    (hf : (f (w.traverser n)).tallies = (start.traverser n).tallies ++ [tally]) :
    HasAccount n start { a with tally } (Workspace.modifyTraverser n f w) := by
  refine ⟨?_, h.ids, h.paths, ?_⟩
  · rw [Workspace.modifyTraverser, List.length_modify]
    exact h.enrolled
  · rw [Workspace.traverser_modifyTraverser_same h.enrolled, hf]

variable {t : Traverser (Hearing σ)} {accepts : String → Bool}
  {report : String → Action (Repository × σ) Unit} {scan : Scan} {o : Opening}

/-- The functions and the backend are those of a traverser whose calls are heard. -/
structure IsHeard (t : Traverser (Hearing σ)) (accepts : String → Bool)
    (report : String → Action (Repository × σ) Unit) : Prop where
  predicate : t.predicate = (heard "" .all .nodes accepts report).predicate
  progress : t.progress = (heard "" .all .nodes accepts report).progress
  backend : t.backend = (heard "" .all .nodes accepts report).backend

theorem meets_count (hscan : scan.tally = (start.traverser t.number).tallies.length)
    (f : Tally → Tally) {E : Workspace (Hearing σ) → Prop} :
    Action.Meets (HasAccount t.number start a) (Action.modify ((t.filter scan).count f))
      (fun _ => HasAccount t.number start { a with tally := f a.tally }) E := by
  have hlast (l : List Tally) (tally : Tally) :
      (l ++ [tally]).modify l.length f = l ++ [f tally] := by
    induction l with
    | nil => rfl
    | cons x l ih =>
      rw [List.cons_append, List.length_cons, List.modify_succ_cons, ih, List.cons_append]
  refine Action.meets_modify fun w h => h.modifyTraverser ?_
  dsimp only
  rw [h.tallies, hscan, hlast]

theorem meets_progress (ht : t.IsHeard accepts report) (id : String) :
    Action.Meets (HasAccount n start a) (t.progress id)
      (fun _ => HasAccount n start { a with reported := a.reported ++ [id] })
      (HasAccount n start { a with reported := a.reported ++ [id] }) := by
  rw [ht.progress]
  refine Action.Meets.bind
    (Q := fun _ => HasAccount n start { a with reported := a.reported ++ [id] })
    (Action.meets_modify fun w h => ?_) fun _ => ?_
  · refine ⟨h.enrolled, ?_, h.paths, h.tallies⟩
    rw [h.ids, List.append_assoc]
  · refine Action.Maintains.meets (fun w h => ?_) fun _ h => h
    exact ⟨h.enrolled, h.ids, h.paths, h.tallies⟩

theorem meets_node (ht : t.IsHeard accepts report) (path : String) (v : RevisionVector) :
    Action.Meets (HasAccount n start a) (t.backend.node path v)
      (fun _ => HasAccount n start (a.handedOn path)) (HasAccount n start (a.handedOn path)) := by
  rw [ht.backend]
  refine Action.Meets.bind (Q := fun _ => HasAccount n start (a.handedOn path))
    (Action.meets_modify fun w h => ?_) fun _ => ?_
  · refine ⟨h.enrolled, h.ids, ?_, h.tallies⟩
    rw [h.paths, List.append_assoc]
    rfl
  · exact (maintains_hasAccount_onRepository _).meets fun _ h => h

/-- What is kept where an id was just reported, whatever came of it. -/
def Offered (n : Nat) (start : Workspace (Hearing σ)) (a : Account) (id : String)
    (w : Workspace (Hearing σ)) : Prop :=
  ∃ b, HasAccount n start b w ∧ b.reported = a.reported ++ [id]

/-- An id that is offered is counted and reported; one that passes is to be decided on yet. -/
theorem meets_includeId (ht : t.IsHeard accepts report)
    (hscan : scan.tally = (start.traverser t.number).tallies.length) (id : String) :
    Action.Meets (HasAccount t.number start a) ((t.filter scan).includeId id)
      (fun passed => HasAccount t.number start
        (if passed then a.offered id else (a.offered id).idRejected))
      (Offered t.number start a id) := by
  have hpredicate : (t.filter scan).predicate = fun path => pure (accepts path) := ht.predicate
  rw [PathFilter.includeId_eq hpredicate]
  refine (meets_count hscan _).bind fun _ => ?_
  refine ((meets_progress ht id).mono_error fun w h => ⟨_, h, rfl⟩).bind fun _ => ?_
  refine Action.Meets.bind (Q := fun _ => HasAccount t.number start (a.offered id))
    (Action.meets_ofExcept (fun _ _ _ h => h) fun w h => ⟨_, h, rfl⟩) fun passed => ?_
  cases passed with
  | true => exact Action.meets_pure fun _ h => h
  | false => exact (meets_count hscan _).bind fun _ => Action.meets_pure fun _ h => h

theorem meets_includeDocument (ht : t.IsHeard accepts report)
    (hscan : scan.tally = (start.traverser t.number).tallies.length) (d : Document)
    {E : Workspace (Hearing σ) → Prop} :
    Action.Meets (HasAccount t.number start a) ((t.filter scan).includeDocument d)
      (fun included => HasAccount t.number start (if included then a else a.documentRejected))
      E := by
  have hpredicate : (t.filter scan).predicate = fun path => pure (accepts path) := ht.predicate
  rw [PathFilter.includeDocument_eq hpredicate]
  split
  · exact Action.meets_pure fun _ h => h
  · exact (meets_count hscan _).bind fun _ => Action.meets_pure fun _ h => h

theorem meets_materialize (ht : t.IsHeard accepts report) (d : Document) (v : RevisionVector) :
    Action.Meets (HasAccount n start a) (t.materialize d v)
      (fun _ => HasAccount n start (a.handedOn d.path))
      (HasAccount n start (a.handedOn d.path)) := by
  refine (meets_node ht d.path v).bind fun found => ?_
  cases found with
  | none => exact Action.meets_pure fun _ h => h
  | some s =>
    dsimp only
    split
    · exact Action.Meets.bind (Q := fun _ => HasAccount n start (a.handedOn d.path))
        (Action.meets_ofExcept (fun _ _ _ h => h) fun _ h => h)
        fun _ => Action.meets_pure fun _ h => h
    · exact Action.meets_pure fun _ h => h

theorem meets_offer (ht : t.IsHeard accepts report)
    (hscan : scan.tally = (start.traverser t.number).tallies.length) (item : Stored) :
    Action.Meets (HasAccount t.number start a) (Workspace.offer (t.filter scan).includeId item)
      (fun passed => HasAccount t.number start
        (if passed then a.offered item.id else (a.offered item.id).idRejected))
      (fun w => HasAccount t.number start a w ∨ Offered t.number start a item.id w) := by
  refine ((maintains_hasAccount_onRepository _).meets fun _ h => .inl h).bind fun _ => ?_
  refine ((meets_includeId ht hscan item.id).mono_error fun _ h => .inr h).bind fun passed => ?_
  cases passed with
  | false => exact Action.meets_pure fun _ h => h
  | true =>
    have hkept : Action.Maintains (HasAccount t.number start (a.offered item.id))
        (Workspace.onRepository (Repository.onStore
          (Action.modify (·.rememberIfCurrent item)))) :=
      maintains_hasAccount_onRepository _
    exact (hkept.meets fun w h => .inr ⟨_, h, rfl⟩).bind fun _ => Action.meets_pure fun _ h => h

/-- A document that is visited is reported, and is rejected or handed on. -/
theorem meets_visit (ht : t.IsHeard accepts report)
    (hscan : scan.tally = (start.traverser t.number).tallies.length) (ha : a.Balanced 0)
    (item : Stored) :
    Action.Meets (HasAccount t.number start a) (t.visit scan item)
      (fun _ w => ∃ b, HasAccount t.number start b w ∧ b.reported = a.reported ++ [item.id] ∧
        b.Balanced 0)
      (fun w => HasAccount t.number start a w ∨ Offered t.number start a item.id w) := by
  have hoffered := ha.offered item.id
  refine (meets_offer ht hscan item).bind fun passed => ?_
  cases passed with
  | false => exact Action.meets_pure fun w h => ⟨_, h, rfl, hoffered.idRejected⟩
  | true =>
    refine (meets_includeDocument ht hscan item.document).bind fun included => ?_
    cases included with
    | false => exact Action.meets_pure fun w h => ⟨_, h, rfl, hoffered.documentRejected⟩
    | true =>
      refine ((meets_materialize ht item.document scan.snapshot).mono_error
        fun w h => .inr ⟨_, h, rfl⟩).bind fun found => ?_
      cases found <;> exact Action.meets_pure fun w h => ⟨_, h, rfl, hoffered.handedOn _⟩

/-- A scan that is suspended: what it has reported and what remains is the stream, and its account
is balanced. -/
structure Underway (n : Nat) (start : Workspace (Hearing σ)) (o : Opening) (scan : Scan)
    (w : Workspace (Hearing σ)) : Prop where
  told : o.Told
  tally : scan.tally = (start.traverser n).tallies.length
  account : ∃ a, HasAccount n start a w ∧ a.Balanced 0 ∧
    a.reported ++ scan.remaining.map Stored.id = o.ids

theorem Underway.broken (h : Underway n start o scan w) : Broken n start o w := by
  obtain ⟨a, ha, -, hids⟩ := h.account
  exact ⟨a, ha, scan.remaining.map Stored.id, hids⟩

/-- What a scan that has come to its end has reported. -/
def Completed (n : Nat) (start : Workspace (Hearing σ)) (o : Opening)
    (w : Workspace (Hearing σ)) : Prop :=
  o.Told ∧ ∃ a, HasAccount n start a w ∧ a.Balanced 0 ∧ a.reported = o.ids

/-- How a step leaves a scan behind. -/
def Stepped (n : Nat) (start : Workspace (Hearing σ)) (o : Opening) :
    Step → Workspace (Hearing σ) → Prop
  | .entry _ next, w | .paused next, w => ∃ scan, next = .scanning scan ∧ Underway n start o scan w
  | .waiting _, _ => False
  | .finished, w => Completed n start o w

theorem meets_seek (ht : t.IsHeard accepts report) (ho : o.Told)
    (hscan : scan.tally = (start.traverser t.number).tallies.length) (mayPause : Bool)
    (items : List Stored) (ha : a.Balanced 0) (hids : a.reported ++ items.map Stored.id = o.ids) :
    Action.Meets (HasAccount t.number start a) (t.seek mayPause scan items)
      (Stepped t.number start o) (Broken t.number start o) := by
  have hbroken : ∀ b w, HasAccount t.number start b w → b.reported <+: o.ids →
      Broken t.number start o w := fun b w hb hreported => ⟨b, hb, hreported⟩
  induction items generalizing a with
  | nil =>
    rw [List.map_nil, List.append_nil] at hids
    have hcomplete : Action.Maintains (HasAccount t.number start a)
        (t.complete scan scan.produced) :=
      Action.maintains_get.bind fun _ => maintains_hasAccount_note _
    refine (hcomplete.meets fun w h => hbroken a w h (hids ▸ List.prefix_rfl)).bind fun _ => ?_
    exact Action.meets_pure fun w h => ⟨ho, a, h, ha, hids⟩
  | cons item rest ih =>
    rw [List.map_cons, List.append_cons] at hids
    have hvisit := meets_visit ht hscan ha item
    -- A visit that fails may have reported the id; the ids reported are a first part either way.
    refine (hvisit.mono_error fun w h => ?_).bind fun visited => ?_
    · rcases h with h | ⟨b, hb, hreported⟩
      · refine hbroken a w h ⟨item.id :: rest.map Stored.id, ?_⟩
        rw [← hids, List.append_assoc]
        rfl
      · exact hbroken b w hb (hreported ▸ ⟨_, hids⟩)
    refine Action.meets_of_exists fun b ⟨hreported, hb⟩ => ?_
    have hrest : b.reported ++ rest.map Stored.id = o.ids := by rw [hreported, hids]
    cases visited with
    | skipped => exact ih hb hrest
    | dropped =>
      refine ((Workspace.maintains_requireOpen scan.cursor).meets
        fun w h => hbroken b w h ⟨_, hrest⟩).bind fun _ => ?_
      cases mayPause with
      | true => exact Action.meets_pure fun w h => ⟨_, rfl, ho, hscan, b, h, hb, hrest⟩
      | false => exact ih hb hrest
    | found first more => exact Action.meets_pure fun w h => ⟨_, rfl, ho, hscan, b, h, hb, hrest⟩

theorem meets_advanceScan (ht : t.IsHeard accepts report) (mayPause : Bool) :
    Action.Meets (Underway t.number start o scan) (t.advanceScan mayPause scan)
      (Stepped t.number start o) (Broken t.number start o) := by
  have hseek : Action.Meets (Underway t.number start o scan) (t.seek mayPause scan scan.remaining)
      (Stepped t.number start o) (Broken t.number start o) := by
    intro w h
    obtain ⟨a, hkept, ha, hids⟩ := h.account
    exact meets_seek ht h.told h.tally mayPause scan.remaining ha hids w hkept
  rw [advanceScan]
  split
  · exact Action.meets_pure fun w h => ⟨_, rfl, h.told, h.tally, h.account⟩
  · exact Action.meets_fail fun w h => h.broken
  · split
    · exact ((Workspace.maintains_resumeFetch scan.cursor).meets fun w h => h.broken).bind
        fun _ => hseek
    · refine ((Workspace.maintains_requireOpen scan.cursor).meets fun w h => h.broken).bind
        fun _ => ?_
      cases mayPause with
      | true => exact Action.meets_pure fun w h => ⟨_, rfl, h.told, h.tally, h.account⟩
      | false => exact hseek

/-- Nothing was reported yet since `start`, and no scan was opened. -/
structure Fresh (n : Nat) (start : Workspace (Hearing σ)) (w : Workspace (Hearing σ)) : Prop where
  enrolled : n < w.traversers.length
  ids : w.caller.ids = start.caller.ids
  paths : w.caller.paths = start.caller.paths
  tallies : (w.traverser n).tallies = (start.traverser n).tallies

theorem told_of_scannable {items : List Stored} (h : o.store.scannable o.range = .ok items) :
    items = o.store.select o.range ∧ o.Told := by
  obtain ⟨havailable, hitems⟩ := DocumentStore.of_scannable_eq_ok h
  refine ⟨hitems, ?_⟩
  rw [DocumentStore.scannable_of_available havailable] at h
  rw [Opening.Told]
  cases htimes : o.store.requireTimes o.range with
  | error e =>
    rw [htimes] at h
    cases h
  | ok => rfl

theorem meets_openCursor (o : Opening) :
    Action.Meets (fun w => HasAccount n start a w ∧ w.store = o.store)
      (Workspace.openCursor o.range)
      (fun opened w => HasAccount n start a w ∧ opened.2 = o.store.select o.range ∧ o.Told)
      (HasAccount n start a) := by
  rintro w ⟨h, hstore⟩
  cases hitems : w.store.scannable o.range with
  | error e =>
    rw [Workspace.openCursor_of_error hitems]
    exact h
  | ok items =>
    rw [Workspace.openCursor_of_ok hitems]
    rw [hstore] at hitems
    exact ⟨⟨h.enrolled, h.ids, h.paths, h.tallies⟩, told_of_scannable hitems⟩

/-- A scan that is opened on a store is to report the ids of what is in range there. -/
theorem meets_openScan (ht : t.IsHeard accepts report) (ho : o.range = t.range)
    (v : RevisionVector) :
    Action.Meets (fun w => Fresh t.number start w ∧ w.store = o.store) (t.openScan v)
      (Underway t.number start o) (Broken t.number start o) := by
  have hbroken : ∀ w, HasAccount t.number start {} w → Broken t.number start o w :=
    fun _ h => ⟨{}, h, List.nil_prefix⟩
  rw [openScan]
  refine Action.meets_get_bind fun _ => ?_
  rintro w ⟨⟨hfresh, hstore⟩, rfl⟩
  have htally : (t.state w).tallies.length = (start.traverser t.number).tallies.length :=
    congrArg List.length hfresh.tallies
  have htallied : Action.Meets (· = w)
      (Action.modify (t.modifyState fun s => { s with tallies := s.tallies ++ [{}] }))
      (fun _ w => HasAccount t.number start {} w ∧ w.store = o.store)
      (Broken t.number start o) := by
    refine Action.meets_modify fun _ h => ?_
    subst h
    refine ⟨⟨?_, ?_, ?_, ?_⟩, hstore⟩
    · rw [modifyState, Workspace.modifyTraverser, List.length_modify]
      exact hfresh.enrolled
    · exact hfresh.ids.trans (List.append_nil _).symm
    · exact hfresh.paths.trans (List.append_nil _).symm
    · rw [modifyState, Workspace.traverser_modifyTraverser_same hfresh.enrolled, ← hfresh.tallies]
  have hopen : Action.Meets (fun w => HasAccount t.number start {} w ∧ w.store = o.store)
      (t.backend.openCursor t.range)
      (fun opened w => HasAccount t.number start {} w ∧ opened.2 = o.store.select o.range ∧ o.Told)
      (Broken t.number start o) := by
    rw [ht.backend, ← ho]
    exact (meets_openCursor o).mono_error hbroken
  refine (htallied.bind fun _ => hopen.bind fun opened => ?_) w rfl
  obtain ⟨cursor, remaining⟩ := opened
  -- What is left to do concerns neither the tallies nor what was heard.
  have hregistered : Action.Maintains
      (fun w => HasAccount t.number start {} w ∧ remaining = o.store.select o.range ∧ o.Told)
      (Action.modify (t.modifyState fun s => { s with closer := s.closer.register cursor })) :=
    fun w h => ⟨h.1.modifyTraverser h.1.tallies, h.2⟩
  have hnoted : Action.Maintains
      (fun w => HasAccount t.number start {} w ∧ remaining = o.store.select o.range ∧ o.Told)
      (Workspace.note (.scanStarted t.label t.range v)) := fun w h =>
    ⟨maintains_hasAccount_note _ w h.1, h.2⟩
  refine (hregistered.meets fun w h => hbroken w h.1).bind fun _ =>
    (hnoted.meets fun w h => hbroken w h.1).bind fun _ => ?_
  refine Action.meets_pure fun w h => ⟨h.2.2, htally, {}, h.1, ⟨rfl, rfl⟩, ?_⟩
  rw [h.2.1, List.nil_append, Opening.ids]

theorem Fresh.modifyTraverser (h : Fresh n start w) {f : TraverserState → TraverserState}
    (hf : ∀ x, (f x).tallies = x.tallies) : Fresh n start (Workspace.modifyTraverser n f w) := by
  refine ⟨?_, h.ids, h.paths, ?_⟩
  · rw [Workspace.modifyTraverser, List.length_modify]
    exact h.enrolled
  · rw [Workspace.traverser_modifyTraverser_same h.enrolled, hf, h.tallies]

theorem meets_readHead (ht : t.IsHeard accepts report) (ho : o.range = t.range) :
    Action.Meets (fun w => Fresh t.number start w ∧ w.store = o.store) t.readHead
      (Underway t.number start o) (Broken t.number start o) := by
  have hrest (v : RevisionVector) :
      Action.Meets (fun w => Fresh t.number start w ∧ w.store = o.store)
        (do
          Action.modify (t.modifyState fun s => { s with pin := s.pin.answer (.ok v) })
          t.openScan v)
        (Underway t.number start o) (Broken t.number start o) :=
    Action.Meets.bind (Q := fun _ w => Fresh t.number start w ∧ w.store = o.store)
      (Action.meets_modify fun w h => ⟨h.1.modifyTraverser fun _ => rfl, h.2⟩)
      fun _ => meets_openScan ht ho v
  intro w h
  have hread := hrest w.head w h
  rw [readHead, ht.backend]
  exact hread

end Traverser

theorem Pin.ask_of_wait {p : Pin} {ticket : Nat} (h : (p.ask ticket).1 = .wait) :
    ((p.ask ticket).2.ask ticket).1 = .wait := by
  obtain ⟨snapshot, called, reading, waiting⟩ := p
  cases snapshot with
  | some v => cases h
  | none =>
    cases called with
    | none => cases h
    | some called =>
      by_cases hturn : called = ticket ∧ (!reading) = true
      · simp only [ask, if_pos hturn, reduceCtorEq] at h
      · simp only [ask, if_neg hturn]

namespace Traverser

variable {σ : Type} {n : Nat} {start w : Workspace (Hearing σ)} {t : Traverser (Hearing σ)}
  {accepts : String → Bool} {report : String → Action (Repository × σ) Unit} {o : Opening}

/-- An iteration that was told to wait would be told so again. -/
def Waits (n : Nat) (start : Workspace (Hearing σ)) (ticket : Nat) (w : Workspace (Hearing σ)) :
    Prop :=
  Fresh n start w ∧ ((w.traverser n).pin.ask ticket).1 = .wait

theorem waits_of_ask {ticket : Nat} (h : Fresh t.number start w)
    (hwait : ((t.state w).pin.ask ticket).1 = .wait) :
    Waits t.number start ticket
      (t.modifyState (fun s => { s with pin := ((t.state w).pin.ask ticket).2 }) w) := by
  refine ⟨h.modifyTraverser fun _ => rfl, ?_⟩
  rw [modifyState, Workspace.traverser_modifyTraverser_same h.enrolled]
  exact Pin.ask_of_wait hwait

/-- How an iteration stands since its first step. -/
def Stands (n : Nat) (start : Workspace (Hearing σ)) (o : Opening) :
    Standing → Workspace (Hearing σ) → Prop
  | .unbegun, _ => False
  | .due next, w => ∃ scan, next = .scanning scan ∧ Underway n start o scan w
  | .waiting ticket, w => Waits n start ticket w
  | .ended none, w => Completed n start o w
  | .ended (some _), w => Broken n start o w

theorem Stepped.stands {step : Step} (h : Stepped n start o step w) :
    Stands n start o (.after (.ok step)) w := by
  cases step with
  | entry e next => exact h
  | paused next => exact h
  | waiting ticket => exact h.elim
  | finished => exact h

/-- The first step of an iteration opens its scan, unless it has to wait. -/
theorem meets_enter (ht : t.IsHeard accepts report) (ho : o.range = t.range) (mayPause : Bool)
    (ticket : Nat) :
    Action.Meets (fun w => Fresh t.number start w ∧ w.store = o.store)
      (t.advance mayPause (.entering ticket))
      (fun step => Stands t.number start o (.after (.ok step))) (Broken t.number start o) := by
  have hscan {opened : Action (Workspace (Hearing σ)) Scan}
      (hopened : Action.Meets (fun w => Fresh t.number start w ∧ w.store = o.store) opened
        (Underway t.number start o) (Broken t.number start o)) :
      Action.Meets (fun w => Fresh t.number start w ∧ w.store = o.store)
        (do t.advanceScan mayPause (← opened))
        (fun step => Stands t.number start o (.after (.ok step))) (Broken t.number start o) :=
    hopened.bind fun scan => (meets_advanceScan ht mayPause).mono_ok fun _ _ h => h.stands
  rintro w ⟨hfresh, hstore⟩
  let w₁ := t.modifyState (fun s => { s with pin := ((t.state w).pin.ask ticket).2 }) w
  have hask : t.ask ticket w = (.ok ((t.state w).pin.ask ticket).1, w₁) := rfl
  have hfresh₁ : Fresh t.number start w₁ := hfresh.modifyTraverser fun _ => rfl
  rw [advance, Action.bind_apply, hask]
  dsimp only
  cases hturn : ((t.state w).pin.ask ticket).1 with
  | pinned v => exact hscan (meets_openScan ht ho v) w₁ ⟨hfresh₁, hstore⟩
  | read =>
    have hprompt : ¬ (mayPause = true ∧ t.backend.headPauses = true) := by
      rw [ht.backend]
      exact fun h => Bool.noConfusion h.2
    dsimp only
    rw [if_neg hprompt]
    exact hscan (meets_readHead ht ho) w₁ ⟨hfresh₁, hstore⟩
  | wait => exact waits_of_ask hfresh hturn

theorem meets_wait (mayPause : Bool) (ticket : Nat) {E : Workspace (Hearing σ) → Prop} :
    Action.Meets (Waits t.number start ticket) (t.advance mayPause (.entering ticket))
      (fun step => Stands t.number start o (.after (.ok step))) E := by
  rintro w ⟨hfresh, hwait⟩
  have hask : t.ask ticket w = (.ok ((t.state w).pin.ask ticket).1,
      t.modifyState (fun s => { s with pin := ((t.state w).pin.ask ticket).2 }) w) := rfl
  have hturn : ((t.state w).pin.ask ticket).1 = .wait := hwait
  rw [advance, Action.bind_apply, hask, hturn]
  exact waits_of_ask hfresh hturn

theorem meets_after {P E : Workspace (Hearing σ) → Prop} {x : Action (Workspace (Hearing σ)) Step}
    (hx : Action.Meets P x (fun step => Stands n start o (.after (.ok step)))
      (Broken n start o)) :
    Action.Meets P (do return .after (← Action.attempt x)) (Stands n start o) E := by
  refine hx.attempt.bind fun step => ?_
  cases step with
  | ok step => exact Action.meets_pure fun _ h => h
  | error e => exact Action.meets_pure fun _ h => h

/-- One step of an iteration that has begun keeps its account. -/
theorem meets_moveOn (ht : t.IsHeard accepts report) (mayPause : Bool) (standing : Standing)
    {E : Workspace (Hearing σ) → Prop} :
    Action.Meets (Stands t.number start o standing) (t.moveOn mayPause standing)
      (Stands t.number start o) E := by
  cases standing with
  | unbegun => exact fun _ h => h.elim
  | due next =>
    rintro w ⟨scan, rfl, h⟩
    have hscan : Action.Meets (Underway t.number start o scan)
        (t.advance mayPause (.scanning scan))
        (fun step => Stands t.number start o (.after (.ok step))) (Broken t.number start o) :=
      (meets_advanceScan ht mayPause).mono_ok fun _ _ h => h.stands
    exact meets_after (E := E) hscan w h
  | waiting ticket => exact meets_after (meets_wait mayPause ticket)
  | ended failure => exact Action.meets_pure fun _ h => h

/-- What is done to the repository between two steps does not matter. -/
theorem maintains_stands_onRepository {α : Type} (x : Action Repository α) (standing : Standing) :
    Action.Maintains (Stands n start o standing) (Workspace.onRepository x) := by
  intro w h
  cases standing with
  | unbegun => exact h
  | due next =>
    obtain ⟨scan, hnext, htold, htally, a, ha, hrest⟩ := h
    exact ⟨scan, hnext, htold, htally, a, maintains_hasAccount_onRepository x w ha, hrest⟩
  | waiting ticket =>
    obtain ⟨hfresh, hwait⟩ := h
    exact ⟨⟨hfresh.enrolled, hfresh.ids, hfresh.paths, hfresh.tallies⟩, hwait⟩
  | ended failure =>
    cases failure with
    | none =>
      obtain ⟨htold, a, ha, hrest⟩ := h
      exact ⟨htold, a, maintains_hasAccount_onRepository x w ha, hrest⟩
    | some e =>
      obtain ⟨a, ha, hrest⟩ := h
      exact ⟨a, maintains_hasAccount_onRepository x w ha, hrest⟩

theorem meets_moveAmid (ht : t.IsHeard accepts report) (mayPause : Bool)
    (changes : List (Action Repository Unit)) (standing : Standing)
    {E : Workspace (Hearing σ) → Prop} :
    Action.Meets (Stands t.number start o standing) (t.moveAmid mayPause changes standing)
      (Stands t.number start o) E := by
  induction changes generalizing standing with
  | nil => exact Action.meets_pure fun _ h => h
  | cons change changes ih =>
    have hchange : Action.Maintains (Stands t.number start o standing)
        (Workspace.onRepository change) :=
      maintains_stands_onRepository change standing
    refine (hchange.meets fun _ h => h).attempt.bind fun result => ?_
    have hmoves : Action.Meets (Stands t.number start o standing)
        (do t.moveAmid mayPause changes (← t.moveOn mayPause standing))
        (Stands t.number start o) E :=
      (meets_moveOn ht mayPause standing).bind fun standing => ih standing
    cases result <;> exact hmoves

/-- An iteration that begins opens its scan on the store that its first step finds. -/
theorem meets_begin (ht : t.IsHeard accepts report) (ho : o.range = t.range) (mayPause : Bool)
    {E : Workspace (Hearing σ) → Prop} :
    Action.Meets (fun w => Fresh t.number start w ∧ w.store = o.store)
      (t.moveOn mayPause .unbegun) (Stands t.number start o) E := by
  have hiterate : Action.Meets (fun w => Fresh t.number start w ∧ w.store = o.store) t.iterate
      (fun _ w => Fresh t.number start w ∧ w.store = o.store) E := fun w h =>
    ⟨h.1.modifyTraverser fun _ => rfl, h.2⟩
  exact hiterate.bind fun ticket => meets_after (meets_enter ht ho mayPause ticket)

theorem Stands.exists_account {standing : Standing} (h : Stands n start o standing w) :
    ∃ reported handed, w.caller.ids = start.caller.ids ++ reported ∧
      w.caller.paths = start.caller.paths ++ handed ∧ reported <+: o.ids ∧
      ((standing = .ended none ∨ ∃ next, standing = .due next) →
        ∃ tally, (w.traverser n).tallies = (start.traverser n).tallies ++ [tally] ∧
          tally.idsSeen = reported.length ∧
          tally.idsSeen = tally.idsRejected + tally.documentsRejected + handed.length ∧
          (standing = .ended none → reported = o.ids ∧ o.Told)) := by
  cases standing with
  | unbegun => exact h.elim
  | due next =>
    obtain ⟨scan, rfl, -, -, a, hkept, ha, hids⟩ := h
    refine ⟨a.reported, a.handed, hkept.ids, hkept.paths, ⟨_, hids⟩, fun _ => ?_⟩
    exact ⟨a.tally, hkept.tallies, ha.seen, ha.split, fun h => nomatch h⟩
  | waiting ticket =>
    obtain ⟨hfresh, -⟩ := h
    refine ⟨[], [], ?_, ?_, List.nil_prefix, fun h => ?_⟩
    · rw [hfresh.ids, List.append_nil]
    · rw [hfresh.paths, List.append_nil]
    · rcases h with h | ⟨_, h⟩ <;> cases h
  | ended failure =>
    cases failure with
    | none =>
      obtain ⟨htold, a, hkept, ha, hids⟩ := h
      refine ⟨a.reported, a.handed, hkept.ids, hkept.paths, hids ▸ List.prefix_rfl, fun _ => ?_⟩
      exact ⟨a.tally, hkept.tallies, ha.seen, ha.split, fun _ => ⟨hids, htold⟩⟩
    | some e =>
      obtain ⟨a, hkept, hids⟩ := h
      refine ⟨a.reported, a.handed, hkept.ids, hkept.paths, hids, fun h => ?_⟩
      rcases h with h | ⟨_, h⟩ <;> cases h

theorem sorted_ids (o : Opening) : o.ids.Pairwise (· < ·) :=
  List.pairwise_map.2 (o.store.catalog.sorted.filter _)

/-- Whatever is done to the repository before each step of an iteration: the ids that it has
reported are the first of those that were in range when its cursor was opened, in ascending order,
each once. Unless a step failed, those it has counted as seen were rejected by one of the stages or
handed on; when the iteration has come to its end, they are all, as many as the store told at the
opening. -/
theorem moves_account (label : String) (range : TimeRange) (delivery : Delivery)
    (accepts : String → Bool) (report : String → Action (Repository × σ) Unit) (mayPause : Bool)
    {n : Nat} {w : Workspace (Hearing σ)} (hn : n < w.traversers.length)
    (change : Action Repository Unit) (changes : List (Action Repository Unit)) :
    let t := heard label range delivery accepts report n
    let opening := (change w.repository).2.store
    let ids := (opening.select range).map Stored.id
    ∃ standing w' reported handed,
      t.moveAmid mayPause (change :: changes) .unbegun w = (.ok standing, w') ∧
      w'.caller.ids = w.caller.ids ++ reported ∧ w'.caller.paths = w.caller.paths ++ handed ∧
      reported <+: ids ∧ ids.Pairwise (· < ·) ∧
      ((standing = .ended none ∨ ∃ next, standing = .due next) →
        ∃ tally, (t.state w').tallies = (t.state w).tallies ++ [tally] ∧
          tally.idsSeen = reported.length ∧
          tally.idsSeen = tally.idsRejected + tally.documentsRejected + handed.length ∧
          (standing = .ended none →
            reported = ids ∧ opening.estimatedSize range = .ok tally.idsSeen)) := by
  intro t opening ids
  let o : Opening := ⟨opening, range⟩
  have ht : t.IsHeard accepts report := ⟨rfl, rfl, rfl⟩
  have hmoves : Action.Meets (fun w₁ => Fresh n w w₁ ∧ w₁.store = o.store)
      (do t.moveAmid mayPause changes (← t.moveOn mayPause .unbegun)) (Stands n w o)
      fun _ => False :=
    (meets_begin ht rfl mayPause).bind fun standing => meets_moveAmid ht mayPause changes standing
  -- The first change comes before the cursor is opened.
  obtain ⟨standing, w', hrun, hstands⟩ := hmoves.answers
    (s := { w with repository := (change w.repository).2 }) ⟨⟨hn, rfl, rfl, rfl⟩, rfl⟩
  obtain ⟨reported, handed, hids, hpaths, hreported, haccount⟩ := hstands.exists_account
  refine ⟨standing, w', reported, handed, hrun, hids, hpaths, hreported, sorted_ids o, fun h => ?_⟩
  obtain ⟨tally, htallies, hseen, hsplit, hended⟩ := haccount h
  refine ⟨tally, htallies, hseen, hsplit, fun hstanding => ?_⟩
  obtain ⟨hall, htold⟩ := hended hstanding
  have hlength : tally.idsSeen = (opening.select range).length := by
    rw [hseen, hall, Opening.ids, List.length_map]
  have htimes : opening.requireTimes range = .ok () := htold
  rw [DocumentStore.estimatedSize, htimes, hlength]
  exact ⟨hall, rfl⟩

/-- A document that is deleted while an iteration goes on is reported all the same. -/
theorem moves_account_beside_deletion :
    let t := heard (σ := Unit) "all" .all .nodes (fun _ => true) (fun _ => pure ()) 0
    let w₀ : Workspace (Hearing Unit) := (WriteCall.makeAll
      [.commit "/b" [] .empty (some (.time 1)), .commit "/a" [] .empty (some (.time 2))]
      (.start {} 1 { own := () })).2
    let w := (t.create (some w₀.head) [] w₀).2
    let delete : Action Repository Unit := do
      let _ ← Repository.onStore (DocumentStore.delete "1:/b")
    let changes := [pure (), delete, pure (), pure ()]
    0 < w.traversers.length ∧
      (t.moveAmid false changes .unbegun w).2.caller.ids = ["1:/a", "1:/b"] ∧
      ∃ standing w' reported, t.moveAmid false changes .unbegun w = (.ok standing, w') ∧
        w'.caller.ids = w.caller.ids ++ reported ∧
        reported <+: (w.store.select .all).map Stored.id := by
  intro t w₀ w delete changes
  have hn : 0 < w.traversers.length := by decide +kernel
  obtain ⟨standing, w', reported, handed, hrun, hids, -, hreported, -⟩ :=
    moves_account "all" .all .nodes (fun _ => true) (fun _ => pure ()) false hn (pure ())
      [delete, pure (), pure ()]
  exact ⟨hn, by decide +kernel, standing, w', reported, hrun, hids, hreported⟩

end Traverser

end VersionedTree
