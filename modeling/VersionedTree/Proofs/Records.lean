import VersionedTree.Proofs.Ledgers

/-! # Records

What the iterations of a traverser ask of the stores is recorded beside the state of the caller. The
record changes nothing: with it and without it all goes alike. What a step of an iteration asks for,
and what it does to the pin that all iterations share, is told of all steps by one relation.
-/

namespace VersionedTree

/-- What an iteration asks of the stores. -/
inductive Use where
  | head (answer : Except Failure RevisionVector)
  | cursor
  | node (path : String) (snapshot : RevisionVector)

namespace Use

/-- The snapshot that was read, by a reading that succeeded. -/
def read? : Use → Option RevisionVector
  | .head (.ok v) => some v
  | .head (.error _) | .cursor | .node _ _ => none

/-- A cursor is opened once a snapshot is pinned, and nodes are read at that one. -/
inductive Fits (pinned : Option RevisionVector) : Use → Prop where
  | head (answer : Except Failure RevisionVector) : Fits pinned (.head answer)
  | cursor (hpinned : pinned.isSome = true) : Fits pinned .cursor
  | node (path : String) {v : RevisionVector} (hv : pinned = some v) : Fits pinned (.node path v)

theorem Fits.mono {pinned pinned' : Option RevisionVector} {use : Use} (h : use.Fits pinned)
    (hpinned : ∀ v, pinned = some v → pinned' = some v) : use.Fits pinned' := by
  cases h with
  | head answer => exact .head answer
  | cursor hsome =>
    obtain ⟨v, hv⟩ := Option.isSome_iff_exists.1 hsome
    exact .cursor (hpinned v hv ▸ rfl)
  | node path hv => exact .node path (hpinned _ hv)

end Use

/-- What the iterations have asked of the stores, each with the number of its iteration. -/
structure Record where
  /-- The iteration that takes a step now. -/
  running : Nat := 0
  uses : List (Nat × Use) := []

namespace Record

def after (r : Record) (uses : List Use) : Record :=
  { r with uses := r.uses ++ uses.map fun use => (r.running, use) }

theorem after_nil (r : Record) : r.after [] = r := by
  rw [after, List.map_nil, List.append_nil]

theorem after_append (r : Record) (uses more : List Use) :
    r.after (uses ++ more) = (r.after uses).after more := by
  simp only [after, List.map_append, List.append_assoc]

end Record

namespace Workspace

variable {υ υ' α : Type} {n : Nat}

/-- The same workspace, with another state of the caller's. -/
def withCaller (w : Workspace υ) (own : υ') : Workspace υ' where
  repository := w.repository
  cursors := w.cursors
  traversers := w.traversers
  planted := w.planted
  log := w.log
  caller := own

/-- What is pinned for the traverser of this number, if there is one. -/
def pin? (n : Nat) (w : Workspace υ) : Option Pin := w.traversers[n]?.map TraverserState.pin

/-- The action leaves alone what is pinned for the traverser of this number. -/
def KeepsPin (n : Nat) (x : Action (Workspace υ) α) : Prop := ∀ w, (x w).2.pin? n = w.pin? n

/-- The workspace without the record that is kept beside the caller's state. -/
def plain (w : Workspace (υ × Record)) : Workspace υ := w.withCaller w.caller.1

/-- An action that knows of no record. -/
def unrecorded (x : Action (Workspace υ) α) : Action (Workspace (υ × Record)) α :=
  .zoom plain (fun w' w => w'.withCaller (w'.caller, w.caller.2)) x

def modifyRecord (f : Record → Record) (w : Workspace (υ × Record)) : Workspace (υ × Record) :=
  w.withCaller (w.caller.1, f w.caller.2)

/-- What is recorded from now on is asked for by this iteration. -/
def running (i : Nat) (w : Workspace (υ × Record)) : Workspace (υ × Record) :=
  w.modifyRecord fun r => { r with running := i }

def recording (w : Workspace υ) : Workspace (υ × Record) := w.withCaller (w.caller, {})

def use (u : Use) : Action (Workspace (υ × Record)) Unit :=
  Action.modify (modifyRecord (·.after [u]))

end Workspace

open Workspace

/-- The backend, where a record is kept of what it is asked for. -/
def Backend.recorded {υ : Type} (b : Backend υ) : Backend (υ × Record) where
  openCursor range := do
    use .cursor
    unrecorded (b.openCursor range)
  head := do
    let answer ← Action.attempt (unrecorded b.head)
    use (.head answer)
    Action.ofExcept answer
  headPauses := b.headPauses
  node path snapshot := do
    use (.node path snapshot)
    unrecorded (b.node path snapshot)

namespace Traverser

variable {υ : Type}

def recorded (t : Traverser υ) : Traverser (υ × Record) where
  number := t.number
  label := t.label
  range := t.range
  delivery := t.delivery
  predicate path := unrecorded (t.predicate path)
  progress id := unrecorded (t.progress id)
  backend := t.backend.recorded

/-- The functions that the traverser calls leave alone what is pinned for it. -/
structure Discreet (t : Traverser υ) : Prop where
  openCursor : ∀ range, KeepsPin t.number (t.backend.openCursor range)
  head : KeepsPin t.number t.backend.head
  node : ∀ path v, KeepsPin t.number (t.backend.node path v)
  predicate : ∀ path, KeepsPin t.number (t.predicate path)
  progress : ∀ id, KeepsPin t.number (t.progress id)

/-- One step of an iteration, up to its next entry or pause. -/
def stepOn (t : Traverser υ) (it : Iteration) : Action (Workspace υ) Standing := do
  Turntaker.setFetching false it
  let step ← Action.attempt (t.advance true it)
  let taker : Turntaker υ := { traverser := t }
  return (← taker.settled step).standing

/-- The next step of an iteration, which begins with its first one. One that waits may be roused
before it is called: it asks again, and waits on. -/
def step (t : Traverser υ) : Standing → Action (Workspace υ) Standing
  | .unbegun => do t.stepOn (.entering (← t.iterate))
  | .due it => t.stepOn it
  | .waiting ticket => t.stepOn (.entering ticket)
  | .ended failure => pure (.ended failure)

end Traverser

/-! ## The record changes nothing -/

namespace Workspace

variable {υ α β : Type}

/-- The action on the plain workspace does what the one beside the record does. -/
def Erases (x' : Action (Workspace (υ × Record)) α) (x : Action (Workspace υ) α) : Prop :=
  ∀ w, x w.plain = ((x' w).1, (x' w).2.plain)

variable {x' : Action (Workspace (υ × Record)) α} {x : Action (Workspace υ) α}

theorem erases_pure (a : α) :
    Erases (pure a) (pure a : Action (Workspace υ) α) := fun _ => rfl

theorem erases_get_bind {f' : Workspace (υ × Record) → Action (Workspace (υ × Record)) α}
    {f : Workspace υ → Action (Workspace υ) α} (h : ∀ w, Erases (f' w) (f w.plain)) :
    Erases (Action.get >>= f') (Action.get >>= f) := fun w => h w w

theorem Erases.bind {f' : α → Action (Workspace (υ × Record)) β} {f : α → Action (Workspace υ) β}
    (hx : Erases x' x) (hf : ∀ a, Erases (f' a) (f a)) : Erases (x' >>= f') (x >>= f) := by
  intro w
  rw [Action.bind_apply, Action.bind_apply, hx w]
  rcases x' w with ⟨e | a, w'⟩
  · rfl
  · exact hf a w'

theorem Erases.attempt (hx : Erases x' x) : Erases (Action.attempt x') (Action.attempt x) := by
  intro w
  rw [Action.attempt, hx w]
  rfl

theorem erases_unrecorded (x : Action (Workspace υ) α) : Erases (unrecorded x) x := fun _ => rfl

theorem Erases.after_use (hx : Erases x' x) (u : Use) : Erases (do use u; x') x :=
  fun w => hx (w.modifyRecord (·.after [u]))

/-- The record erased, as a relation of steps. -/
def erasure : Coupling (Workspace (υ × Record)) (Workspace υ) where
  Rel := Erases
  pure := erases_pure
  fail _ _ := rfl
  bind := Erases.bind

end Workspace

namespace Traverser

variable {υ : Type} (t : Traverser υ)

theorem erases_modifyState (f : TraverserState → TraverserState) :
    Erases (Action.modify (t.recorded.modifyState f)) (Action.modify (t.modifyState f)) :=
  fun _ => rfl

theorem erases_parts (v : RevisionVector) : erasure.Parts t.recorded t v where
  delivery := rfl
  available _ := rfl
  remember _ _ := rfl
  count _ _ := t.erases_modifyState _
  complete _ _ _ := rfl
  predicate path := erases_unrecorded (t.predicate path)
  progress id := erases_unrecorded (t.progress id)
  node path := (erases_unrecorded (t.backend.node path v)).after_use _
  requireOpen number := erases_get_bind fun w => erasure.ofExcept (w.cursor number).requireOpen
  resumeFetch number :=
    erases_get_bind fun w => erasure.ofExcept (w.cursor number).requireUninterrupted

theorem erases_openScan (v : RevisionVector) :
    Erases (t.recorded.openScan v) (t.openScan v) := by
  refine erases_get_bind fun w => (t.erases_modifyState _).bind fun _ => ?_
  refine ((erases_unrecorded (t.backend.openCursor t.range)).after_use _).bind fun opened => ?_
  refine (t.erases_modifyState _).bind fun _ => Erases.bind (fun _ => rfl) fun _ => ?_
  exact erases_pure _

theorem erases_head : Erases t.recorded.backend.head t.backend.head := by
  intro w
  rw [erases_unrecorded t.backend.head w]
  simp only [recorded, Backend.recorded, Action.bind_apply, Action.attempt]
  rcases unrecorded t.backend.head w with ⟨e | v, w'⟩
  · rfl
  · rfl

theorem erases_readHead : Erases t.recorded.readHead t.readHead := by
  refine t.erases_head.attempt.bind fun answer => (t.erases_modifyState _).bind fun _ => ?_
  exact Erases.bind (erasure.ofExcept answer) fun v => t.erases_openScan v

theorem erases_ask (ticket : Nat) : Erases (t.recorded.ask ticket) (t.ask ticket) :=
  erases_get_bind fun _ => (t.erases_modifyState _).bind fun _ => erases_pure _

theorem erases_iterates : erasure.Iterates t.recorded t where
  parts := t.erases_parts
  headPauses := rfl
  ask := t.erases_ask
  openScan := t.erases_openScan
  readHead := t.erases_readHead

theorem erases_advance (mayPause : Bool) (it : Iteration) :
    Erases (t.recorded.advance mayPause it) (t.advance mayPause it) :=
  t.erases_iterates.advance mayPause it

theorem erases_iterate : Erases t.recorded.iterate t.iterate :=
  erases_get_bind fun _ => (t.erases_modifyState _).bind fun _ => erases_pure _

theorem erases_setFetching (fetching : Bool) (it : Iteration) :
    Erases (Turntaker.setFetching fetching it)
      (Turntaker.setFetching fetching it : Action (Workspace υ) Unit) := by
  cases it <;> exact fun _ => rfl

theorem erases_stepOn (it : Iteration) : Erases (t.recorded.stepOn it) (t.stepOn it) := by
  refine (erases_setFetching false it).bind fun _ => ?_
  refine (t.erases_advance true it).attempt.bind fun step => ?_
  rcases step with e | ⟨e, next⟩ | next | ticket | _
  · exact erases_pure _
  · exact erases_pure _
  · cases next <;> exact fun _ => rfl
  · exact erases_pure _
  · exact erases_pure _

/-- With the record and without it an iteration takes the same step. -/
theorem erases_step (s : Standing) : Erases (t.recorded.step s) (t.step s) := by
  cases s with
  | unbegun => exact t.erases_iterate.bind fun ticket => t.erases_stepOn (.entering ticket)
  | due it => exact t.erases_stepOn it
  | waiting ticket => exact t.erases_stepOn (.entering ticket)
  | ended failure => exact erases_pure _

end Traverser

/-! ## What the steps of an iteration do -/

namespace Workspace

variable {υ α β : Type} {n : Nat} {p : Pin}

/-- What is pinned for the traverser of this number, and what was recorded. -/
def sight (n : Nat) (w : Workspace (υ × Record)) : Option Pin × Record := (w.pin? n, w.caller.2)

/-- The action leaves the pin and the record alone. -/
def Silent (n : Nat) (x : Action (Workspace (υ × Record)) α) : Prop :=
  ∀ w, (x w).2.sight n = w.sight n

theorem silent_unrecorded {x : Action (Workspace υ) α} (hx : KeepsPin n x) :
    Silent n (unrecorded x) := fun w =>
  congrArg (·, w.caller.2) (hx w.plain)

theorem pin?_eq (n : Nat) (w : Workspace υ) :
    w.pin? n = w.ledger.traversers[n]?.map Holding.pin := by
  simp only [pin?, ledger, List.getElem?_map, Option.map_map]
  rfl

theorem KeepsPin.of_upholds {x : Action (Workspace υ) α}
    (hx : ∀ p, Upholds (fun l => l.traversers[n]?.map Holding.pin = p) x) : KeepsPin n x := by
  intro w
  rw [pin?_eq, pin?_eq]
  exact hx _ w rfl

theorem keepsPin_callback (f : Callback υ α) : KeepsPin n f.perform :=
  .of_upholds fun _ => upholds_callback f

theorem keepsPin_node (path : String) (v : RevisionVector) :
    KeepsPin n (node path v : Action (Workspace υ) (Option NodeState)) :=
  .of_upholds fun _ => upholds_node path v

theorem keepsPin_openCursor (range : TimeRange) :
    KeepsPin n (openCursor range : Action (Workspace υ) (Nat × List Stored)) := by
  intro w
  rw [pin?_eq, pin?_eq]
  rcases ledger_openCursor range w with ⟨e, w', hopen, hw'⟩ | ⟨stream, w', hopen, hw'⟩
  · rw [hopen, hw']
  · rw [hopen, hw']
    rfl

/-- Begun where `p` is pinned, the action ends with an outcome, leaves something pinned and has
asked the stores for something: the three are as `Q` says. -/
def Does (n : Nat) (p : Pin) (x : Action (Workspace (υ × Record)) α)
    (Q : Except Failure α → Pin → List Use → Prop) : Prop :=
  ∀ w r, w.sight n = (some p, r) →
    ∃ p' uses, Q (x w).1 p' uses ∧ (x w).2.sight n = (some p', r.after uses)

variable {x : Action (Workspace (υ × Record)) α} {f : α → Action (Workspace (υ × Record)) β}
  {Q : Except Failure α → Pin → List Use → Prop} {Q' : Except Failure β → Pin → List Use → Prop}

theorem does_of_silent (hx : Silent n x) (hQ : ∀ w, Q (x w).1 p []) : Does n p x Q := by
  intro w r hw
  refine ⟨p, [], hQ w, ?_⟩
  rw [hx w, hw, Record.after_nil]

theorem does_silently {a : α} (hx : Silent n x) (ha : ∀ w, (x w).1 = .ok a) :
    Does n p x fun out p' uses => out = .ok a ∧ p' = p ∧ uses = [] :=
  does_of_silent hx fun w => ⟨ha w, rfl, rfl⟩

theorem does_pure {a : α} (h : Q (.ok a) p []) :
    Does n p (pure a : Action (Workspace (υ × Record)) α) Q :=
  does_of_silent (fun _ => rfl) fun _ => h

theorem does_use (u : Use) : Does n p (use u : Action (Workspace (υ × Record)) Unit)
    fun out p' uses => out = .ok () ∧ p' = p ∧ uses = [u] := by
  intro w r hw
  obtain ⟨hpin, rfl⟩ := Prod.mk.inj hw
  exact ⟨p, [u], ⟨rfl, rfl, rfl⟩, congrArg (·, _) hpin⟩

theorem Does.mono {R : Except Failure α → Pin → List Use → Prop} (hx : Does n p x R)
    (h : ∀ out p' uses, R out p' uses → Q out p' uses) : Does n p x Q := by
  intro w r hw
  obtain ⟨p', uses, hR, hw'⟩ := hx w r hw
  exact ⟨p', uses, h _ _ _ hR, hw'⟩

theorem Does.attempt {Q : Except Failure (Except Failure α) → Pin → List Use → Prop}
    (hx : Does n p x fun out p' uses => Q (.ok out) p' uses) : Does n p (Action.attempt x) Q := hx

theorem Does.bind {R : Except Failure α → Pin → List Use → Prop} (hx : Does n p x R)
    (hok : ∀ a p' uses, R (.ok a) p' uses →
      Does n p' (f a) fun out p'' more => Q' out p'' (uses ++ more))
    (herror : ∀ e p' uses, R (.error e) p' uses → Q' (.error e) p' uses) :
    Does n p (x >>= f) Q' := by
  intro w r hw
  obtain ⟨p', uses, hR, hw'⟩ := hx w r hw
  rw [Action.bind_apply]
  rcases hxw : x w with ⟨e | a, w'⟩
  · rw [hxw] at hR hw'
    exact ⟨p', uses, herror e p' uses hR, hw'⟩
  · rw [hxw] at hR hw'
    obtain ⟨p'', more, hQ, hw''⟩ := hok a p' uses hR w' _ hw'
    refine ⟨p'', uses ++ more, hQ, ?_⟩
    rw [Record.after_append]
    exact hw''

theorem Does.then {a : α} {p' : Pin} {uses : List Use}
    (hx : Does n p x fun out p'' more => out = .ok a ∧ p'' = p' ∧ more = uses)
    (hf : Does n p' (f a) fun out p'' more => Q' out p'' (uses ++ more)) :
    Does n p (x >>= f) Q' := by
  apply hx.bind
  · rintro _ _ _ ⟨⟨⟩, rfl, rfl⟩
    exact hf
  · rintro e _ _ ⟨⟨⟩, -⟩

theorem does_get_bind {f : Workspace (υ × Record) → Action (Workspace (υ × Record)) β}
    (h : ∀ w, Does n p (f w) Q') : Does n p (Action.get >>= f) Q' := fun w => h w w

end Workspace

namespace Traverser

variable {υ : Type} {t : Traverser υ} {p : Pin}

theorem pin?_modifyState {f : TraverserState → TraverserState} {g : Pin → Pin}
    (hf : ∀ x, (f x).pin = g x.pin) (t : Traverser υ) (w : Workspace υ) :
    (t.modifyState f w).pin? t.number = (w.pin? t.number).map g := by
  simp only [modifyState, modifyTraverser, pin?, List.getElem?_modify_eq, Option.map_eq_map]
  cases w.traversers[t.number]? with
  | none => rfl
  | some x => exact congrArg some (hf x)

theorem pin_of_pin? {w : Workspace υ} (h : w.pin? t.number = some p) : (t.state w).pin = p := by
  obtain ⟨x, hx, rfl⟩ := Option.map_eq_some_iff.1 h
  rw [state, traverser, List.getD_eq_getElem?_getD, hx]
  rfl

theorem silent_modifyState {f : TraverserState → TraverserState} (hf : ∀ x, (f x).pin = x.pin)
    (t : Traverser (υ × Record)) : Silent t.number (Action.modify (t.modifyState f)) := by
  intro w
  have hpin := pin?_modifyState (g := id) hf t w
  rw [Option.map_id] at hpin
  exact congrArg (·, w.caller.2) hpin

theorem does_repin (t : Traverser (υ × Record)) (g : Pin → Pin) :
    Does t.number p (Action.modify (t.modifyState fun s => { s with pin := g s.pin }))
      fun out p' uses => out = .ok () ∧ p' = g p ∧ uses = [] := by
  intro w r hw
  obtain ⟨hpin, rfl⟩ := Prod.mk.inj hw
  have hpin' := pin?_modifyState (f := fun s => { s with pin := g s.pin }) (g := g)
    (fun _ => rfl) t w
  rw [hpin] at hpin'
  refine ⟨g p, [], ⟨rfl, rfl, rfl⟩, ?_⟩
  rw [Record.after_nil]
  exact congrArg (·, w.caller.2) hpin'

theorem does_ask (t : Traverser (υ × Record)) (ticket : Nat) :
    Does t.number p (t.ask ticket)
      fun out p' uses => out = .ok (p.ask ticket).1 ∧ p' = (p.ask ticket).2 ∧ uses = [] := by
  intro w r hw
  obtain ⟨_, _, ⟨-, rfl, rfl⟩, hw'⟩ := does_repin t (fun _ => (p.ask ticket).2) w r hw
  have hstate : (t.state w).pin = p := pin_of_pin? (congrArg Prod.fst hw)
  subst hstate
  exact ⟨_, [], ⟨rfl, rfl, rfl⟩, hw'⟩

theorem does_modifyState (t : Traverser (υ × Record)) {f : TraverserState → TraverserState}
    (hf : ∀ x, (f x).pin = x.pin) :
    Does t.number p (Action.modify (t.modifyState f)) fun out p' uses =>
      out = .ok () ∧ p' = p ∧ uses = [] :=
  does_silently (silent_modifyState hf t) fun _ => rfl

theorem does_openScan (ht : t.Discreet) (v : RevisionVector) :
    Does t.number p (t.recorded.openScan v) fun out p' uses =>
      (∀ scan, out = .ok scan → scan.snapshot = v) ∧ p' = p ∧ uses = [.cursor] := by
  have hcursor : Does t.number p (t.recorded.backend.openCursor t.range) fun _ p' uses =>
      p' = p ∧ uses = [.cursor] :=
    (does_use .cursor).then <|
      does_of_silent (silent_unrecorded (ht.openCursor t.range)) fun _ => ⟨rfl, rfl⟩
  refine does_get_bind fun w => ?_
  refine (does_modifyState t.recorded fun _ => by rfl).then ?_
  apply hcursor.bind
  · rintro ⟨cursor, remaining⟩ _ _ ⟨rfl, rfl⟩
    refine (does_modifyState t.recorded fun _ => by rfl).then ?_
    refine (does_silently (a := ()) (fun _ => rfl) fun _ => rfl).then (does_pure ⟨?_, rfl, rfl⟩)
    rintro scan ⟨⟩
    rfl
  · rintro e _ _ ⟨rfl, rfl⟩
    exact ⟨nofun, rfl, rfl⟩

/-- The step failed, ended the scan, or left it at the same snapshot. -/
inductive GoesOn (v : RevisionVector) : Except Failure Step → Prop where
  | failed (e : Failure) : GoesOn v (.error e)
  | finished : GoesOn v (.ok .finished)
  | paused (next : Scan) (hnext : next.snapshot = v) : GoesOn v (.ok (.paused (.scanning next)))
  | entry (e : Entry) (next : Scan) (hnext : next.snapshot = v) :
    GoesOn v (.ok (.entry e (.scanning next)))

theorem goesOn_seek (t : Traverser υ) (mayPause : Bool) (scan : Scan) (items : List Stored)
    (w : Workspace υ) : GoesOn scan.snapshot (t.seek mayPause scan items w).1 := by
  induction items generalizing w with
  | nil => exact .finished
  | cons item rest ih =>
    rw [seek, Action.bind_apply]
    rcases t.visit scan item w with ⟨e | visited, w₁⟩
    · exact .failed e
    cases visited with
    | skipped => exact ih w₁
    | dropped =>
      simp only [Action.bind_apply]
      rcases requireOpen scan.cursor w₁ with ⟨e | ⟨⟩, w₂⟩
      · exact .failed e
      · cases mayPause with
        | true => exact .paused _ rfl
        | false => exact ih w₂
    | found first more => exact .entry _ _ rfl

theorem goesOn_advanceScan (t : Traverser υ) (mayPause : Bool) (scan : Scan) (w : Workspace υ) :
    GoesOn scan.snapshot (t.advanceScan mayPause scan w).1 := by
  cases hstates : scan.pending.states with
  | cons s rest =>
    simp only [advanceScan, hstates]
    exact .entry _ _ rfl
  | nil =>
    cases hfailure : scan.pending.failure with
    | some e =>
      simp only [advanceScan, hstates, hfailure]
      exact .failed e
    | none =>
      simp only [advanceScan, hstates, hfailure]
      split
      · rw [Action.bind_apply]
        rcases resumeFetch scan.cursor w with ⟨e | ⟨⟩, w₁⟩
        · exact .failed e
        · exact goesOn_seek t mayPause scan _ w₁
      · rw [Action.bind_apply]
        rcases requireOpen scan.cursor w with ⟨e | ⟨⟩, w₁⟩
        · exact .failed e
        · cases mayPause with
          | true => exact .paused _ rfl
          | false => exact goesOn_seek t false scan _ w₁

/-- Since the record was `r`, nodes were read at a snapshot, and nothing else was asked for. -/
def ReadsAt (n : Nat) (p : Pin) (r : Record) (v : RevisionVector)
    (w : Workspace (υ × Record)) : Prop :=
  ∃ paths : List String, w.sight n = (some p, r.after (paths.map (.node · v)))

variable {n : Nat} {r : Record} {v : RevisionVector}

theorem maintains_readsAt {α : Type} {x : Action (Workspace (υ × Record)) α} (hx : Silent n x) :
    Action.Maintains (ReadsAt n p r v) x := by
  rintro w ⟨paths, hw⟩
  exact ⟨paths, (hx w).trans hw⟩

theorem maintains_readsAt_use (path : String) :
    Action.Maintains (ReadsAt n p r v)
      (use (.node path v) : Action (Workspace (υ × Record)) Unit) := by
  rintro w ⟨paths, hw⟩
  obtain ⟨_, _, ⟨-, rfl, rfl⟩, hw'⟩ := does_use (.node path v) w _ hw
  refine ⟨paths ++ [path], ?_⟩
  rw [List.map_append, Record.after_append]
  exact hw'

theorem Discreet.upkeep (ht : t.Discreet) (p : Pin) (r : Record) (v : RevisionVector) :
    t.recorded.Upkeep (ReadsAt t.number p r v) v where
  available := maintains_readsAt fun _ => rfl
  remember _ := maintains_readsAt fun _ => rfl
  count _ _ := maintains_readsAt (silent_modifyState (fun _ => by rfl) t.recorded)
  note _ := maintains_readsAt fun _ => rfl
  predicate path := maintains_readsAt (silent_unrecorded (ht.predicate path))
  progress id := maintains_readsAt (silent_unrecorded (ht.progress id))
  node path := (maintains_readsAt_use path).bind fun _ =>
    maintains_readsAt (silent_unrecorded (ht.node path v))

/-- A step of a scan asks the stores for nodes at the scan's snapshot, and for nothing else. -/
theorem does_advanceScan (ht : t.Discreet) (mayPause : Bool) (scan : Scan) :
    Does t.number p (t.recorded.advanceScan mayPause scan) fun out p' uses =>
      GoesOn scan.snapshot out ∧ p' = p ∧
        ∃ paths : List String, uses = paths.map (.node · scan.snapshot) := by
  intro w r hw
  have hstart : ReadsAt t.number p r scan.snapshot w := by
    refine ⟨[], ?_⟩
    rw [List.map_nil, Record.after_nil]
    exact hw
  obtain ⟨paths, hw'⟩ := (ht.upkeep p r scan.snapshot).advanceScan mayPause w hstart
  exact ⟨p, _, ⟨goesOn_advanceScan _ mayPause scan w, rfl, paths, rfl⟩, hw'⟩

/-- What a step of an iteration comes to that opens a scan at a snapshot, or goes on with one. -/
structure Scans (p : Pin) (v : RevisionVector) (out : Except Failure Step) (p' : Pin)
    (uses : List Use) : Prop where
  goesOn : GoesOn v out
  pin : p' = p
  fits : ∀ use ∈ uses, use = .cursor ∨ ∃ path, use = .node path v

theorem does_scan (ht : t.Discreet) (mayPause : Bool) (v : RevisionVector) :
    Does t.number p (do t.recorded.advanceScan mayPause (← t.recorded.openScan v)) (Scans p v) := by
  apply (does_openScan ht v).bind
  · rintro scan _ _ ⟨hscan, rfl, rfl⟩
    obtain rfl := hscan scan rfl
    apply (does_advanceScan ht mayPause scan).mono
    rintro out _ _ ⟨hgoesOn, rfl, paths, rfl⟩
    refine ⟨hgoesOn, rfl, fun use huse => ?_⟩
    rcases List.mem_cons.1 huse with rfl | huse
    · exact .inl rfl
    · obtain ⟨path, -, rfl⟩ := List.mem_map.1 huse
      exact .inr ⟨path, rfl⟩
  · rintro e _ _ ⟨-, rfl, rfl⟩
    exact ⟨.failed e, rfl, fun use huse => .inl (List.mem_singleton.1 huse)⟩

theorem does_head (ht : t.Discreet) :
    Does t.number p t.recorded.backend.head fun out p' uses => p' = p ∧ uses = [.head out] := by
  intro w r hw
  have hread := (silent_unrecorded ht.head w).trans hw
  rcases hhead : unrecorded t.backend.head w with ⟨answer, w₁⟩
  rw [hhead] at hread
  obtain ⟨_, _, ⟨-, rfl, rfl⟩, hused⟩ := does_use (.head answer) w₁ r hread
  refine ⟨_, [.head answer], ⟨rfl, ?_⟩, ?_⟩
  · simp only [recorded, Backend.recorded, Action.bind_apply, Action.attempt, hhead]
    cases answer <;> rfl
  · rw [← hused]
    simp only [recorded, Backend.recorded, Action.bind_apply, Action.attempt, hhead]
    cases answer <;> rfl

/-- What a step of an iteration comes to that reads the head. -/
inductive Answers (p : Pin) : Except Failure Step → Pin → List Use → Prop where
  | failed (e : Failure) : Answers p (.error e) (p.answer (.error e)) [.head (.error e)]
  | read (v : RevisionVector) {out : Except Failure Step} {p' : Pin} {uses : List Use}
    (hscans : Scans (p.answer (.ok v)) v out p' uses) : Answers p out p' (.head (.ok v) :: uses)

theorem does_read (ht : t.Discreet) (mayPause : Bool) :
    Does t.number p (do t.recorded.advanceScan mayPause (← t.recorded.readHead)) (Answers p) := by
  simp only [readHead, bind_assoc]
  have hattempt : Does t.number p (Action.attempt t.recorded.backend.head) fun out p' uses =>
      ∃ answer, out = .ok answer ∧ p' = p ∧ uses = [.head answer] :=
    .attempt ((does_head ht).mono fun out _ _ h => ⟨out, rfl, h⟩)
  apply hattempt.bind
  · rintro answer _ _ ⟨_, ⟨⟩, rfl, rfl⟩
    refine (does_repin t.recorded fun pin => pin.answer answer).then ?_
    cases answer with
    | error e => exact does_of_silent (fun _ => rfl) fun _ => .failed e
    | ok v => exact (does_scan ht mayPause v).mono fun out p' uses h => .read v h
  · rintro e _ _ ⟨_, ⟨⟩, -⟩

/-- What a step of an iteration comes to. One that has to read the head pauses before it does, or
does it at once. -/
inductive Advances (p : Pin) : Iteration → Except Failure Step → Pin → List Use → Prop where
  | finished : Advances p .finished (.ok .finished) p []
  | scans (scan : Scan) {out : Except Failure Step} {p' : Pin} {uses : List Use}
    (hscans : Scans p scan.snapshot out p' uses) : Advances p (.scanning scan) out p' uses
  | answers {out : Except Failure Step} {p' : Pin} {uses : List Use}
    (hanswers : Answers p out p' uses) : Advances p .reading out p' uses
  | pinned {ticket : Nat} {v : RevisionVector} {pin p' : Pin} {out : Except Failure Step}
    {uses : List Use} (hask : p.ask ticket = (.pinned v, pin)) (hscans : Scans pin v out p' uses) :
    Advances p (.entering ticket) out p' uses
  | pauses {ticket : Nat} {pin : Pin} (hask : p.ask ticket = (.read, pin)) :
    Advances p (.entering ticket) (.ok (.paused .reading)) pin []
  | reads {ticket : Nat} {pin p' : Pin} {out : Except Failure Step} {uses : List Use}
    (hask : p.ask ticket = (.read, pin)) (hanswers : Answers pin out p' uses) :
    Advances p (.entering ticket) out p' uses
  | waits {ticket : Nat} {pin : Pin} (hask : p.ask ticket = (.wait, pin)) :
    Advances p (.entering ticket) (.ok (.waiting ticket)) pin []

theorem does_advance (ht : t.Discreet) (it : Iteration) :
    Does t.number p (t.recorded.advance true it) (Advances p it) := by
  cases it with
  | finished => exact does_pure .finished
  | scanning scan =>
    apply (does_advanceScan ht true scan).mono
    rintro out _ _ ⟨hgoesOn, rfl, paths, rfl⟩
    refine .scans scan ⟨hgoesOn, rfl, fun use huse => ?_⟩
    obtain ⟨path, -, rfl⟩ := List.mem_map.1 huse
    exact .inr ⟨path, rfl⟩
  | reading => exact (does_read ht true).mono fun _ _ _ h => .answers h
  | entering ticket =>
    apply (does_ask t.recorded ticket).then
    rcases hask : p.ask ticket with ⟨turn, pin⟩
    cases turn with
    | pinned v => exact (does_scan ht true v).mono fun _ _ _ h => .pinned hask h
    | wait => exact does_pure (.waits hask)
    | read =>
      dsimp only
      split
      · exact does_pure (.pauses hask)
      · exact (does_read ht true).mono fun _ _ _ h => .reads hask h

theorem does_setFetching (fetching : Bool) (it : Iteration) :
    Does n p (Turntaker.setFetching fetching it : Action (Workspace (υ × Record)) Unit)
      fun out p' uses => out = .ok () ∧ p' = p ∧ uses = [] := by
  cases it <;> exact does_silently (fun _ => rfl) fun _ => rfl

end Traverser

namespace Standing

/-- Where an iteration stands that went on from here after a step. -/
def after : Except Failure Step → Standing
  | .error e => .ended (some e)
  | .ok .finished => .ended none
  | .ok (.paused next) => .due next
  | .ok (.waiting ticket) => .waiting ticket
  | .ok (.entry _ next) => .due next

/-- Where an iteration goes on that stands here. -/
inductive Resumes : Standing → Iteration → Prop where
  | unbegun (ticket : Nat) : Resumes .unbegun (.entering ticket)
  | due (it : Iteration) : Resumes (.due it) it
  | waiting (ticket : Nat) : Resumes (.waiting ticket) (.entering ticket)

end Standing

namespace Traverser

variable {υ : Type} {t : Traverser υ} {n : Nat} {p : Pin}

theorem does_iterate (t : Traverser (υ × Record)) :
    Does t.number p t.iterate fun out p' uses =>
      (∃ ticket, out = .ok ticket) ∧ p' = p ∧ uses = [] := by
  refine does_get_bind fun w => ?_
  exact (does_modifyState t fun _ => by rfl).then (does_pure ⟨⟨_, rfl⟩, rfl, rfl⟩)

theorem does_settled (t : Traverser (υ × Record)) (step : Except Failure Step) :
    Does n p (({ traverser := t } : Turntaker (υ × Record)).settled step) fun out p' uses =>
      ∃ r, out = .ok r ∧ r.standing = .after step ∧ p' = p ∧ uses = [] := by
  rcases step with e | ⟨e, next⟩ | next | ticket | _
  · exact does_pure ⟨_, rfl, rfl, rfl, rfl⟩
  · exact does_pure ⟨_, rfl, rfl, rfl, rfl⟩
  · exact (does_setFetching true next).then (does_pure ⟨_, rfl, rfl, rfl, rfl⟩)
  · exact does_pure ⟨_, rfl, rfl, rfl, rfl⟩
  · exact does_pure ⟨_, rfl, rfl, rfl, rfl⟩

theorem does_stepOn (ht : t.Discreet) (it : Iteration) :
    Does t.number p (t.recorded.stepOn it) fun out p' uses =>
      ∃ step, out = .ok (.after step) ∧ Advances p it step p' uses := by
  have hadvance : Does t.number p (Action.attempt (t.recorded.advance true it))
      fun out p' uses => ∃ step, out = .ok step ∧ Advances p it step p' uses :=
    .attempt ((does_advance ht it).mono fun step _ _ h => ⟨step, rfl, h⟩)
  apply (does_setFetching false it).then
  apply hadvance.bind
  · rintro step p' uses ⟨_, ⟨⟩, hstep⟩
    apply (does_settled t.recorded step).bind
    · rintro r _ _ ⟨_, ⟨⟩, hr, rfl, rfl⟩
      apply does_pure
      refine ⟨step, congrArg _ hr, ?_⟩
      rwa [List.append_nil, List.append_nil]
    · rintro e _ _ ⟨_, ⟨⟩, -⟩
  · rintro e _ _ ⟨_, ⟨⟩, -⟩

/-- What the next step of an iteration comes to, by where it stands. -/
inductive Steps (p : Pin) : Standing → Standing → Pin → List Use → Prop where
  | ended (failure : Option Failure) : Steps p (.ended failure) (.ended failure) p []
  | goesOn {s : Standing} {it : Iteration} {step : Except Failure Step} {p' : Pin}
    {uses : List Use} (hs : s.Resumes it) (hstep : Advances p it step p' uses) :
    Steps p s (.after step) p' uses

theorem does_step (ht : t.Discreet) (s : Standing) :
    Does t.number p (t.recorded.step s) fun out p' uses =>
      ∃ s', out = .ok s' ∧ Steps p s s' p' uses := by
  have hstep {it : Iteration} (hs : s.Resumes it) :
      Does t.number p (t.recorded.stepOn it) fun out p' uses =>
        ∃ s', out = .ok s' ∧ Steps p s s' p' uses := by
    apply (does_stepOn ht it).mono
    rintro _ p' uses ⟨step, rfl, h⟩
    exact ⟨_, rfl, .goesOn hs h⟩
  cases s with
  | unbegun =>
    apply (does_iterate t.recorded).bind
    · rintro ticket _ _ ⟨_, rfl, rfl⟩
      exact hstep (.unbegun ticket)
    · rintro e _ _ ⟨⟨_, ⟨⟩⟩, -⟩
  | due it => exact hstep (.due it)
  | waiting ticket => exact hstep (.waiting ticket)
  | ended failure => exact does_pure ⟨_, rfl, .ended failure⟩

end Traverser

end VersionedTree
