import VersionedTree.Traversal.Scan

/-!
# Concurrent iterations

Iterations that deliver document by document can take turns: a turn goes on until the iteration
pauses, has to wait, or ends. Turns are taken in the order of a line. An iteration that waits for
the head is in line again when it is called; one that pauses goes to the end of the line.
-/

namespace VersionedTree

inductive Standing where
  | unbegun
  /-- It goes on from here at its next turn. -/
  | due (next : Iteration)
  | waiting (ticket : Nat)
  | ended (failure : Option Failure)
  deriving Inhabited

/-- An iteration that takes turns with others, and what it has delivered. -/
structure Turntaker (υ : Type) where
  traverser : Traverser υ
  standing : Standing := .unbegun
  entries : List Entry := []
  /-- Is its traverser closed when it ends? -/
  closes : Bool := false

namespace Turntaker

variable {υ : Type}

def failure? (r : Turntaker υ) : Option Failure :=
  match r.standing with
  | .ended failure => failure
  | .unbegun | .due _ | .waiting _ => none

def ready : Iteration → List Entry × Iteration
  | .scanning scan =>
    (scan.pending.states.map (Entry.ofState scan.modified),
      .scanning
        { scan with
          pending := { scan.pending with states := [] }
          produced := scan.produced + scan.pending.states.length })
  | it => ([], it)

/-- It ends, with a failure or well, and closes its traverser if it is to. A failure of closing
counts for more. -/
def ended (r : Turntaker υ) (failure : Option Failure) : Action (Workspace υ) (Turntaker υ) := do
  if r.closes then
    match ← Action.attempt r.traverser.close with
    | .ok () => pure { r with standing := .ended failure }
    | .error e => pure { r with standing := .ended (some e) }
  else pure { r with standing := .ended failure }

/-- Notes that an iteration pauses while its cursor fetches, or that it goes on. -/
def setFetching (fetching : Bool) : Iteration → Action (Workspace υ) Unit
  | .scanning scan => Workspace.setFetching scan.cursor fetching
  | .entering _ | .reading | .finished => pure ()

def settled (r : Turntaker υ) : Except Failure Step → Action (Workspace υ) (Turntaker υ)
  | .error e => r.ended (some e)
  | .ok .finished => r.ended none
  | .ok (.paused it) => do
    setFetching true it
    pure { r with standing := .due it }
  | .ok (.waiting ticket) => pure { r with standing := .waiting ticket }
  | .ok (.entry e it) => pure { r with entries := r.entries ++ [e], standing := .due it }

/-- Goes on from an iteration: all that is ready of one document, and on to the next pause. -/
def goOn (r : Turntaker υ) (it : Iteration) : Action (Workspace υ) (Turntaker υ) := do
  setFetching false it
  let step ← Action.attempt (r.traverser.advance true it)
  match step with
  | .ok (.entry e it) =>
    let (more, it) := ready it
    let r := { r with entries := r.entries ++ e :: more }
    r.settled (← Action.attempt (r.traverser.advance true it))
  | step => r.settled step

def turn (r : Turntaker υ) : Action (Workspace υ) (Turntaker υ) :=
  match r.standing with
  | .unbegun => do r.goOn (.entering (← r.traverser.iterate))
  | .due it => r.goOn it
  | .waiting ticket => r.goOn (.entering ticket)
  | .ended _ => pure r

def isDue (r : Turntaker υ) : Bool :=
  match r.standing with
  | .unbegun | .due _ => true
  | .waiting _ | .ended _ => false

def isCalled (w : Workspace υ) (r : Turntaker υ) : Bool :=
  match r.standing with
  | .waiting ticket => (r.traverser.state w).pin.called == some ticket
  | .unbegun | .due _ | .ended _ => false

def turnsToScan (r : Turntaker υ) : Nat :=
  match r.standing with
  | .unbegun | .due (.entering _) => 3
  | .waiting _ => 2
  | .due .reading => 1
  | .due (.scanning _) | .due .finished | .ended _ => 0

/-- How many turns it may take to scan what it knows of: one for each document, and one to end. -/
def turnsToEnd (r : Turntaker υ) : Nat :=
  match r.standing with
  | .due (.scanning scan) => scan.remaining.length + 1
  | .due _ => 1
  | .unbegun | .waiting _ | .ended _ => 0

end Turntaker

/-- Iterations that take turns. They are numbered by their places in the list. -/
structure Line (υ : Type) where
  takers : List (Turntaker υ)
  /-- The numbers of those in line, first in line first. -/
  order : List Nat

namespace Line

variable {υ : Type}

def ofTakers (takers : List (Turntaker υ)) : Line υ := ⟨takers, List.range takers.length⟩

def turnOf (takers : List (Turntaker υ)) (i : Nat) :
    Action (Workspace υ) (List (Turntaker υ)) :=
  match takers[i]? with
  | none => pure takers
  | some r => return takers.set i (← r.turn)

def called (w : Workspace υ) (takers : List (Turntaker υ)) : List Nat :=
  (List.range takers.length).filter fun i => takers[i]?.any (Turntaker.isCalled w)

/-- The first in line takes a turn. Behind the others come those that were called during it, and
then the first one again if it only paused. -/
def turn (l : Line υ) : Action (Workspace υ) (Line υ) :=
  match l.order with
  | [] => pure l
  | i :: rest => do
    let takers ← turnOf l.takers i
    let called := (called (← Action.get) takers).filter fun j => !rest.contains j
    pure ⟨takers, rest ++ called ++ if takers[i]?.any Turntaker.isDue then [i] else []⟩

def turnsToScan (l : Line υ) : Nat :=
  l.takers.foldr (fun r n => r.turnsToScan + n) 0

def turnsToEnd (l : Line υ) : Nat :=
  l.takers.foldr (fun r n => r.turnsToEnd + n) 0

/-- Takes so many turns; nothing happens in those that nobody is in line for. -/
def turns : Nat → Line υ → Action (Workspace υ) (Line υ)
  | 0, l => pure l
  | n + 1, l => do turns n (← l.turn)

/-- Takes as many turns as are known to be enough for all that scan, and one more, so many times. -/
def rounds : Nat → Line υ → Action (Workspace υ) (Line υ)
  | 0, l => pure l
  | n + 1, l => do rounds n (← turns (l.turnsToEnd + 1) l)

/-- Takes turns until all iterations have ended. A round ends with nobody in line, unless a turn
was taken in it by an iteration that did not scan yet: so few rounds are enough. -/
def run (l : Line υ) : Action (Workspace υ) (Line υ) := l.rounds (l.turnsToScan + 1)

end Line

namespace Traverser

variable {υ : Type}

/-- Iterates one traverser so many times at once; answers with what came of each iteration. -/
def gather (t : Traverser υ) (times : Nat) :
    Action (Workspace υ) (List (List Entry × Option Failure)) := do
  let l ← (Line.ofTakers (List.replicate times { traverser := t })).run
  return l.takers.map fun r => (r.entries, r.failure?)

/-- Runs traversers at once and closes them; answers with the entries of each, or fails with the
first failure in the order of the list once all have ended. -/
def concurrent (ts : List (Traverser υ)) : Action (Workspace υ) (List (List Entry)) := do
  let l ← (Line.ofTakers (ts.map fun traverser => { traverser, closes := true })).run
  l.takers.mapM fun r =>
    match r.failure? with
    | some e => Action.fail e
    | none => pure r.entries

end Traverser

end VersionedTree
