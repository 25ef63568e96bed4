import VersionedTree.Proofs.Closers
import VersionedTree.Proofs.Truncation
import VersionedTree.Traversal.FaultPlan

/-! # A traverser closes each of its cursors once

A traverser registers a cursor for every scan that it opens. A close sets off all the releases of
every cursor that was opened since the last one, the last opened first, whatever fails on the way.
-/

namespace VersionedTree

/-! ## A cursor by itself -/

namespace Cursor

variable {α : Type} {c : Cursor}

/-- What an open cursor releases when it is closed. -/
def due (c : Cursor) : List Release :=
  if c.fetching then c.releases.map Release.interrupted else c.releases

theorem map_part_due (c : Cursor) : c.due.map Release.part = c.releases.map Release.part := by
  rw [due]
  split
  · exact Workspace.map_part_interrupted c.releases
  · rfl

inductive Call where
  | iterate
  | next
  | close
  /-- A fetch begins that others can run beside, or it ends. -/
  | fetch (fetching : Bool)

/-- A cursor in use: the items that it still has, and every release that was set off so far. -/
structure Reading (α : Type) where
  cursor : Cursor
  items : List α
  released : List Release := []

namespace Reading

variable {r : Reading α}

def closed (r : Reading α) : Reading α :=
  { r with cursor := r.cursor.close.2, released := r.released ++ r.cursor.close.1 }

/-- Answers with an item if one was asked for. -/
def perform : Call → Reading α → Except Failure (Option α) × Reading α
  | .iterate, r => (r.cursor.requireOpen.map fun _ => none, r)
  | .next, r =>
    match r.cursor.next r.items with
    | .ok (item, items) => (.ok item, { r with items })
    | .error e => (.error e, r)
  | .close, r => ((outcome r.cursor.close.1).map fun _ => none, r.closed)
  | .fetch fetching, r => (.ok none, { r with cursor := { r.cursor with fetching } })

def run (calls : List Call) (r : Reading α) : Reading α :=
  calls.foldl (fun r call => (perform call r).2) r

theorem run_append (calls more : List Call) (r : Reading α) :
    run (calls ++ more) r = run more (run calls r) := List.foldl_append

theorem perform_of_ne_close {call : Call} (h : call ≠ .close) (r : Reading α) :
    ∃ fetching items,
      (perform call r).2 = { r with cursor := { r.cursor with fetching }, items } := by
  cases call with
  | iterate => exact ⟨_, _, rfl⟩
  | fetch fetching => exact ⟨fetching, _, rfl⟩
  | close => exact absurd rfl h
  | next =>
    rw [perform]
    split <;> exact ⟨_, _, rfl⟩

theorem run_of_not_mem {calls : List Call} (h : .close ∉ calls) (r : Reading α) :
    ∃ fetching items, run calls r = { r with cursor := { r.cursor with fetching }, items } := by
  induction calls generalizing r with
  | nil => exact ⟨_, _, rfl⟩
  | cons call calls ih =>
    obtain ⟨hcall, hcalls⟩ := List.ne_and_not_mem_of_not_mem_cons h
    obtain ⟨fetching, items, hr⟩ := perform_of_ne_close hcall.symm r
    obtain ⟨fetching', items', hrun⟩ := ih hcalls (perform call r).2
    refine ⟨fetching', items', hrun.trans ?_⟩
    rw [hr]

/-- A closed cursor serves nobody, and another close does nothing. -/
theorem perform_of_closed (h : r.cursor.closed = true) :
    perform .close r = (.ok none, r) ∧
      perform .iterate r = (.error (.cursorClosed r.cursor.description), r) ∧
      perform .next r = (.error (.cursorClosed r.cursor.description), r) := by
  rcases r with ⟨⟨description, query, closed, fetching, releases⟩, items, released⟩
  cases h
  refine ⟨?_, rfl, rfl⟩
  exact congrArg (fun released => (Except.ok none, Reading.mk _ items released))
    (List.append_nil released)

theorem run_of_closed (h : r.cursor.closed = true) (calls : List Call) :
    ∃ fetching, run calls r = { r with cursor := { r.cursor with fetching } } := by
  induction calls generalizing r with
  | nil => exact ⟨_, rfl⟩
  | cons call calls ih =>
    obtain ⟨hclose, hiterate, hnext⟩ := perform_of_closed h
    rw [run, List.foldl_cons, ← run]
    cases call with
    | iterate => exact hiterate ▸ ih h
    | next => exact hnext ▸ ih h
    | close => exact hclose ▸ ih h
    | fetch fetching => exact ih (r := { r with cursor := { r.cursor with fetching } }) h

/-- The first close sets off all that the cursor releases, once and whatever of it fails. Before it
nothing is released, and after it nothing more. -/
theorem released_at_first_close (h : c.closed = false) (items : List α) {before : List Call}
    (hbefore : .close ∉ before) (after : List Call) :
    let r := run before { cursor := c, items }
    let r' := run (before ++ .close :: after) { cursor := c, items }
    r.released = [] ∧ (perform .close r).1 = (outcome r.cursor.due).map (fun _ => none) ∧
      r'.released = r.cursor.due ∧ r.cursor.due.map Release.part = c.releases.map Release.part ∧
      perform .close r' = (.ok none, r') ∧
      perform .iterate r' = (.error (.cursorClosed c.description), r') ∧
      perform .next r' = (.error (.cursorClosed c.description), r') := by
  intro r r'
  -- What comes before the close leaves the cursor open, and what comes after it finds it closed.
  obtain ⟨fetching, rest, hr⟩ := run_of_not_mem hbefore { cursor := c, items }
  have hr : r = { cursor := { c with fetching }, items := rest } := hr
  have hdue : r.cursor.close.1 = r.cursor.due := by
    rw [hr, Cursor.close, if_neg (by rw [h]; exact Bool.false_ne_true)]
    rfl
  have hclosed : r.closed.cursor.closed = true := rfl
  obtain ⟨fetching', hafter⟩ := run_of_closed hclosed after
  have hr' : r' = { r.closed with cursor := { r.closed.cursor with fetching := fetching' } } := by
    rw [← hafter]
    exact run_append before (.close :: after) _
  have hdescription : r'.cursor.description = c.description := by
    rw [hr', Reading.closed, hr]
    rfl
  obtain ⟨hclose, hiterate, hnext⟩ := perform_of_closed (r := r') (by rw [hr']; rfl)
  rw [hdescription] at hiterate hnext
  refine ⟨?_, ?_, ?_, ?_, hclose, hiterate, hnext⟩
  · rw [hr]
  · rw [perform, hdue]
  · rw [hr', Reading.closed, hdue, hr]
    rfl
  · rw [map_part_due, hr]

end Reading

end Cursor

/-! ## A traverser's cursors -/

namespace Ledger

variable {l : Ledger} {n : Nat} {cursors : List Nat}

/-- The traverser of this number is known, and has these cursors to close. -/
def Holds (n : Nat) (cursors : List Nat) (l : Ledger) : Prop :=
  Knows n l ∧ (l.holding n).cursors = cursors

theorem Holds.opened (h : l.Holds n cursors) : l.opened.Holds n cursors := h

theorem Holds.repinned (h : l.Holds n cursors) (m : Nat) (pin : Pin → Pin) :
    (l.repinned m pin).Holds n cursors := by
  refine ⟨(stable_knows n).repinned l m pin h.1, ?_⟩
  by_cases hm : m = n
  · rw [hm, Ledger.repinned, holding_modifyHolding_same h.1]
    exact h.2
  · rw [Ledger.repinned, holding_modifyHolding_ne hm]
    exact h.2

theorem Holds.settled (h : l.Holds n cursors) : (l.settled n).Holds n [] :=
  ⟨(stable_knows n).settled l n h.1, cursors_holding_settled l n⟩

end Ledger

namespace Workspace

variable {υ α : Type} {n : Nat}

/-- The action leaves alone what the traverser of this number has registered. -/
def Spares (n : Nat) (x : Action (Workspace υ) α) : Prop :=
  ∀ cursors, Upholds (Ledger.Holds n cursors) x

theorem spares_openCursor (n : Nat) (range : TimeRange) :
    Spares n (openCursor range : Action (Workspace υ) (Nat × List Stored)) := by
  intro cursors w hw
  rcases ledger_openCursor range w with ⟨e, w', hopen, h⟩ | ⟨stream, w', hopen, h⟩
  · rw [hopen, h]
    exact hw
  · rw [hopen, h]
    exact hw.opened

end Workspace

open Workspace

/-- Opening cursors and reading leave alone what the traverser of this number has registered. -/
structure Backend.Spares {υ : Type} (n : Nat) (b : Backend υ) : Prop where
  openCursor : ∀ range, Workspace.Spares n (b.openCursor range)
  head : Workspace.Spares n b.head
  node : ∀ path v, Workspace.Spares n (b.node path v)

theorem Backend.spares_memory (υ : Type) (n : Nat) : (Backend.memory : Backend υ).Spares n where
  openCursor range := spares_openCursor n range
  head _ := Action.Maintains.bind Action.maintains_get fun _ => Action.maintains_pure _
  node path v _ := upholds_node path v

theorem Backend.Spares.planned {υ : Type} {n : Nat} {real : Backend υ} (h : real.Spares n)
    (plan : FaultPlan) {beforeHead : Action (Workspace υ) Unit}
    (hhead : Workspace.Spares n beforeHead) : (plan.backend beforeHead real).Spares n where
  openCursor range cursors := by
    refine (h.openCursor range cursors).bind fun opened => ?_
    cases plan.closing with
    | none => exact (Action.maintains_pure ()).bind fun _ => Action.maintains_pure _
    | some e =>
      refine Action.Maintains.bind (Action.maintains_modify fun w hw => ?_) fun _ =>
        Action.maintains_pure _
      exact hw
  head cursors := (hhead cursors).bind fun _ => h.head cursors
  node path v cursors := by
    dsimp only [FaultPlan.backend]
    split
    · exact Action.maintains_fail _
    · split
      · exact Action.maintains_pure _
      · exact h.node path v cursors

namespace Traverser

variable {υ α : Type} {t : Traverser υ} {w w' : Workspace υ} {cursors : List Nat}

/-- What the traverser calls leaves alone what it has registered. -/
structure Careful (t : Traverser υ) : Prop where
  backend : t.backend.Spares t.number
  predicate : ∀ path, Spares t.number (t.predicate path)
  progress : ∀ id, Spares t.number (t.progress id)

/-- The traverser, with nothing registered at first, came to this workspace as it opened scans and
was closed any number of times, and other things went on beside. These are the cursors of the scans
that were opened since the last close, in that order. -/
inductive Scoped (t : Traverser υ) : List Nat → Workspace υ → Prop where
  | unopened {w : Workspace υ} (h : w.ledger.Holds t.number []) : Scoped t [] w
  | opened {cursors : List Nat} {w w' : Workspace υ} {v : RevisionVector} {scan : Scan}
    (h : Scoped t cursors w) (hscan : t.openScan v w = (.ok scan, w')) :
    Scoped t (cursors ++ [scan.cursor]) w'
  | refused {cursors : List Nat} {w w' : Workspace υ} {v : RevisionVector} {e : Failure}
    (h : Scoped t cursors w) (hscan : t.openScan v w = (.error e, w')) : Scoped t cursors w'
  | closed {cursors : List Nat} {w : Workspace υ} (h : Scoped t cursors w) :
    Scoped t [] (t.close w).2
  | beside {cursors : List Nat} {w : Workspace υ} {α : Type} {x : Action (Workspace υ) α}
    (h : Scoped t cursors w) (hx : Spares t.number x) : Scoped t cursors (x w).2

theorem resources_of_holds (h : w.ledger.Holds t.number cursors) :
    (t.state w).closer.resources = cursors :=
  (congrArg Holding.cursors (holding_traverser w t.number)).trans h.2

theorem spares_repin (t : Traverser υ) (pin : Pin → Pin) :
    Spares t.number (Action.modify (t.modifyState fun s => { s with pin := pin s.pin })) := by
  intro cursors
  refine Action.maintains_modify fun w hw => ?_
  rw [ledger_repin pin w]
  exact hw.repinned t.number pin

section

variable (ht : ∀ range, Spares t.number (t.backend.openCursor range))

include ht

/-- Who opens a scan registers its cursor behind those that it has, and does so only then. -/
theorem holds_openScan (cursors : List Nat) (v : RevisionVector) :
    Action.Meets (fun w => w.ledger.Holds t.number cursors) (t.openScan v)
      (fun scan w => w.ledger.Holds t.number (cursors ++ [scan.cursor]))
      (fun w => w.ledger.Holds t.number cursors) := by
  have htallied : Upholds (Ledger.Holds t.number cursors)
      (Action.modify (t.modifyState fun s => { s with tallies := s.tallies ++ [{}] })) :=
    upholds_modifyState fun _ => rfl
  rw [openScan]
  refine Action.meets_get_bind fun _ => ?_
  rintro w ⟨hw, rfl⟩
  refine ((htallied.meets fun _ h => h).bind fun _ =>
    ((ht t.range cursors).meets fun _ h => h).bind fun opened => ?_) w hw
  obtain ⟨cursor, remaining⟩ := opened
  have hregistered : Action.Meets (fun w => w.ledger.Holds t.number cursors)
      (Action.modify (t.modifyState fun s => { s with closer := s.closer.register cursor }))
      (fun _ w => w.ledger.Holds t.number (cursors ++ [cursor]))
      (fun w => w.ledger.Holds t.number cursors) := by
    refine Action.meets_modify fun w h => ?_
    rw [ledger_modifyState (g := fun h => { h with cursors := h.cursors ++ [cursor] }) fun _ => rfl]
    refine ⟨Nat.lt_of_lt_of_eq h.1 (Ledger.length_modifyHolding ..).symm, ?_⟩
    rw [Ledger.holding_modifyHolding_same h.1, h.2]
  refine hregistered.bind fun _ => ?_
  exact fun w h => h

theorem Scoped.holds (h : t.Scoped cursors w) : w.ledger.Holds t.number cursors := by
  induction h with
  | unopened h => exact h
  | @opened cursors w w' v scan h hscan ih =>
    have hopened := holds_openScan ht cursors v w ih
    rwa [hscan] at hopened
  | @refused cursors w w' v e h hscan ih =>
    have hrefused := holds_openScan ht cursors v w ih
    rwa [hscan] at hrefused
  | closed h ih =>
    rw [ledger_close]
    exact ih.settled
  | beside h hx ih => exact hx _ _ ih

theorem Scoped.closed_cursor (h : t.Scoped cursors w) {i : Nat} (hi : i ∈ cursors)
    (hlength : i < w.cursors.length) : ((t.close w).2.cursor i).closed = true := by
  apply Workspace.closed_cursor
  rw [ledger_close]
  have hget : w.ledger.cursors[i]? = some w.cursors[i].account := by
    rw [show w.ledger.cursors[i]? = w.cursors[i]?.map Cursor.account from List.getElem?_map ..,
      List.getElem?_eq_getElem hlength, Option.map_some]
  refine Ledger.InCare.isClosed_settled ⟨_, hget, .inr ?_⟩
  rwa [(h.holds ht).2]

theorem Scoped.close_again (h : t.Scoped cursors w) :
    (t.state (t.close w).2).closer.resources = [] ∧
      t.close (t.close w).2 = (.ok (), (t.close w).2) := by
  have hnone := resources_of_holds (h.closed.holds ht)
  exact ⟨hnone, close_of_nil hnone⟩

end

/-- A step of an iteration opens a scan, or it goes on beside the cursors. -/
theorem Scoped.advance (ht : t.Careful) (h : t.Scoped cursors w) (mayPause : Bool)
    (it : Iteration) : ∃ opened, t.Scoped (cursors ++ opened) (t.advance mayPause it w).2 := by
  let P (w : Workspace υ) : Prop := ∃ opened, t.Scoped (cursors ++ opened) w
  -- Of all that a step does, only the opening of a scan touches what is registered.
  have hspares {α : Type} {x : Action (Workspace υ) α} (hx : Spares t.number x) :
      Action.Maintains P x := by
    rintro w ⟨opened, h⟩
    exact ⟨opened, h.beside hx⟩
  have hopen (v : RevisionVector) : Action.Maintains P (t.openScan v) := by
    rintro w ⟨opened, h⟩
    rcases hscan : t.openScan v w with ⟨e | scan, w'⟩
    · exact ⟨opened, h.refused hscan⟩
    · refine ⟨opened ++ [scan.cursor], ?_⟩
      rw [← List.append_assoc]
      exact h.opened hscan
  have hupkeep (v : RevisionVector) : t.Upkeep P v :=
    { available := hspares fun _ => upholds_onStore DocumentStore.discreet_requireAvailable
      remember := fun item => hspares fun _ =>
        upholds_changeStore fun s => s.counts_rememberIfCurrent item
      count := fun _ _ => hspares fun _ => upholds_modifyState fun _ => rfl
      note := fun e => hspares fun _ => upholds_note e
      predicate := fun path => hspares (ht.predicate path)
      progress := fun id => hspares (ht.progress id)
      node := fun path => hspares (ht.backend.node path v) }
  have hsteps : (maintaining P).Iterates t t :=
    { parts := fun v => (hupkeep v).parts
      headPauses := rfl
      ask := fun ticket => Action.Maintains.bind Action.maintains_get fun _ =>
        (hspares (t.spares_repin fun _ => _)).bind fun _ => Action.maintains_pure _
      openScan := hopen
      readHead := (hspares ht.backend.head).attempt.bind fun head =>
        (hspares (t.spares_repin fun pin => pin.answer head)).bind fun _ =>
          Action.Maintains.bind (Action.maintains_ofExcept _) hopen }
  exact hsteps.advance mayPause it w ⟨[], by rwa [List.append_nil]⟩

end Traverser

namespace Closer

/-- Whoever registers resources and closes them does so once for each time they were registered,
at the first close after it and the last registered first, and learns of all failures. This is so
of a closer, of the cursors of a traverser, and of what a cursor releases. -/
theorem released_exactly_once {ρ τ υ α : Type} :
    (∀ (behave : ρ → Action τ Unit) (report : ρ → Failure → τ → τ)
      (calls : List (Scope.Call ρ τ)) (state : τ),
      let s := Scope.run behave report calls { state }
      (∃ earlier, Scope.batches calls = earlier ++ [s.closer.resources] ∧
        s.closings.map Closing.resource = earlier.flatMap List.reverse) ∧
      ∃ closings state', closings.map Closing.resource = s.closer.resources.reverse ∧
        Closes behave report closings s.state state' ∧
        let s' : Scope ρ τ := ⟨{}, state', s.closings ++ closings⟩
        Scope.close behave report s = (verdict closings, s') ∧
          Scope.close behave report s' = (.ok (), s')) ∧
    (∀ (t : Traverser υ) (cursors : List Nat) (w : Workspace υ),
      (∀ range, Spares t.number (t.backend.openCursor range)) → t.Scoped cursors w →
      (t.Careful → ∀ mayPause it, ∃ opened,
        t.Scoped (cursors ++ opened) (t.advance mayPause it w).2) ∧
      (∃ closings w', closings.map Closing.resource = cursors.reverse ∧
        Closes closeCursor t.closeFailed closings (t.emptied w) w' ∧
        t.close w = (verdict closings,
          if (verdict closings).isOk ∧ t.delivery = .nodes ∧ cursors.length ≠ 0 then
            noted (.traverserClosed t.label cursors.length) w'
          else w')) ∧
      (∀ i ∈ cursors, i < w.cursors.length → ((t.close w).2.cursor i).closed = true) ∧
      (t.state (t.close w).2).closer.resources = [] ∧
      t.close (t.close w).2 = (.ok (), (t.close w).2)) ∧
    (∀ (i : Nat) (w : Workspace υ),
      let (releases, closed) := (w.cursor i).close
      closeCursor i w = (Cursor.outcome releases,
        releases.foldl (fun w r => released r w) (modifyCursor i (fun _ => closed) w))) ∧
    (∀ (i : Nat) (filter : String → Action (Workspace υ) Bool) (stream : List Stored),
      (∀ id, Quiet (filter id)) → Quiet (fetch i filter stream)) ∧
    ∀ (c : Cursor) (items : List α) (before after : List Cursor.Call), c.closed = false →
      .close ∉ before →
      let r := Cursor.Reading.run before { cursor := c, items }
      let r' := Cursor.Reading.run (before ++ .close :: after) { cursor := c, items }
      r.released = [] ∧
        (Cursor.Reading.perform .close r).1 = (Cursor.outcome r.cursor.due).map (fun _ => none) ∧
        r'.released = r.cursor.due ∧
        r.cursor.due.map Release.part = c.releases.map Release.part ∧
        Cursor.Reading.perform .close r' = (.ok none, r') ∧
        Cursor.Reading.perform .iterate r' = (.error (.cursorClosed c.description), r') ∧
        Cursor.Reading.perform .next r' = (.error (.cursorClosed c.description), r') := by
  refine ⟨fun behave report calls state => ?_, fun t cursors w ht h => ?_, fun i w => ?_,
    fun i filter stream hfilter =>
      quiet_of_upholds fun _ => upholds_fetch (fun id => (hfilter id).upholds) i stream,
    fun c items before after h hbefore =>
      Cursor.Reading.released_at_first_close h items hbefore after⟩
  · obtain ⟨earlier, hbatches, hclosings⟩ :=
      Scope.exists_earlier behave report calls { state }
    obtain ⟨closings, state', hresources, hcloses, hclose⟩ :=
      Scope.exists_closings behave report (Scope.run behave report calls { state })
    refine ⟨⟨earlier, ?_, hclosings⟩, closings, state', hresources, hcloses, hclose,
      Scope.close_of_nil behave report state' _⟩
    rw [← hbatches]
    cases Scope.batches calls <;> rfl
  · have hresources := Traverser.resources_of_holds (h.holds ht)
    obtain ⟨closings, w', hclosings, hcloses, hclose⟩ := Traverser.exists_closings t w
    rw [pending, hresources] at hclose
    rw [hresources] at hclosings
    exact ⟨fun hcareful => h.advance hcareful, ⟨closings, w', hclosings, hcloses, hclose⟩,
      fun i hi => h.closed_cursor ht hi, h.close_again ht⟩
  · simp only [closeCursor, Action.bind_apply, Action.get_apply, Action.modify_apply]
    cases Cursor.outcome (w.cursor i).close.1 <;> rfl

/-- A resource that fails to close after one that does not, a traverser whose cursors both fail to
close, and a cursor that is closed amid a fetch. -/
theorem released_exactly_once_of_failures :
    let behave (r : Nat) : Action Unit Unit := if r = 1 then Action.fail .fetching else pure ()
    let report (_ : Nat) (_ : Failure) (u : Unit) : Unit := u
    let s := Scope.run behave report [.register 3, .close, .register 1, .register 2] { state := () }
    let t : Traverser Unit :=
      { label := "", delivery := .documents
        backend := FaultPlan.backend { closing := some .fetching } (pure ()) .memory }
    let w₁ := (t.openScan .empty { traversers := [{}], caller := () }).2
    let w₂ := (t.openScan .empty w₁).2
    let c : Cursor := { releases := [⟨.stream, none⟩, ⟨.hook, some .fetching⟩] }
    let r := Cursor.Reading.run [.iterate, .fetch true] { cursor := c, items := [()] }
    (∃ earlier, [[3], [1, 2]] = earlier ++ [s.closer.resources] ∧
      s.closings.map Closing.resource = earlier.flatMap List.reverse) ∧
    (∃ closings, closings.map Closing.resource = [2, 1] ∧
      (Scope.close behave report s).1 = verdict closings) ∧
    (Scope.close behave report s).1 = .error (.unreleased [.fetching]) ∧
    t.Careful ∧ t.Scoped [0, 1] w₂ ∧
    (∃ closings, closings.map Closing.resource = [1, 0] ∧ (t.close w₂).1 = verdict closings) ∧
    (t.close w₂).1.mapError Failure.kind = .error .resourceRelease ∧
    t.close (t.close w₂).2 = (.ok (), (t.close w₂).2) ∧
    c.closed = false ∧ r.released = [] ∧
    (Cursor.Reading.run [.iterate, .fetch true, .close, .next, .close]
      { cursor := c, items := [()] }).released = r.cursor.due ∧
    r.cursor.due = [⟨.stream, some .fetching⟩, ⟨.hook, some .fetching⟩] := by
  intro behave report s t w₁ w₂ c r
  obtain ⟨hcloser, htraverser, -, -, hcursor⟩ := @released_exactly_once Nat Unit Unit Unit
  obtain ⟨hearlier, closings, state, hresources, -, hclose, -⟩ := hcloser behave report
    [.register 3, .close, .register 1, .register 2] ()
  have hbackend : t.backend.Spares t.number :=
    (Backend.spares_memory Unit t.number).planned { closing := some .fetching }
      fun _ => Action.maintains_pure ()
  have hcareful : t.Careful :=
    ⟨hbackend, fun _ _ => Action.maintains_pure true, fun _ _ => Action.maintains_pure ()⟩
  obtain ⟨first, hfirst, hzero⟩ : ∃ scan : Scan,
      t.openScan .empty { traversers := [{}], caller := () } = (.ok scan, w₁) ∧ scan.cursor = 0 :=
    ⟨_, rfl, rfl⟩
  obtain ⟨second, hsecond, hone⟩ : ∃ scan : Scan,
      t.openScan .empty w₁ = (.ok scan, w₂) ∧ scan.cursor = 1 := ⟨_, rfl, rfl⟩
  have hunopened : t.Scoped [] { traversers := [{}], caller := () } :=
    .unopened ⟨Nat.zero_lt_one, rfl⟩
  have hscoped : t.Scoped [first.cursor, second.cursor] w₂ :=
    (hunopened.opened hfirst).opened hsecond
  rw [hzero, hone] at hscoped
  obtain ⟨-, ⟨cursors, w', hcursors, -, hcloses⟩, -, -, hagain⟩ :=
    htraverser t [0, 1] w₂ hcareful.backend.openCursor hscoped
  obtain ⟨hunreleased, -, hreleased, -⟩ :=
    hcursor c [()] [.iterate, .fetch true] [.next, .close] rfl (by simp)
  have hfails : (t.close w₂).1.mapError Failure.kind = .error .resourceRelease := by decide +kernel
  exact ⟨hearlier, ⟨closings, hresources, congrArg Prod.fst hclose⟩, rfl, hcareful, hscoped,
    ⟨cursors, hcursors, congrArg Prod.fst hcloses⟩, hfails, hagain, rfl, hunreleased, hreleased,
    rfl⟩

end Closer

end VersionedTree
