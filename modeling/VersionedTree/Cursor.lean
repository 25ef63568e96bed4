import VersionedTree.Failure

/-!
# Cursors

A cursor is the open end of a query. It is read until it is closed; closing it sets off the release
of its stream and whatever else hangs on it, once and in order, and a failure on the way keeps
nothing from being released. A stream that is in the middle of a fetch cannot be released; the
fetch then goes on and fails in the name of the query.
-/

namespace VersionedTree

inductive CursorPart where
  | stream
  | count
  /-- A function that the cursor was opened with. -/
  | hook
  deriving DecidableEq, Inhabited

/-- One release that a closing sets off, and how it fails if it does. -/
structure Release where
  part : CursorPart
  failure : Option Failure := none
  deriving Inhabited

def Release.interrupted (r : Release) : Release :=
  if r.part = .stream then { r with failure := some .fetching } else r

structure Cursor where
  description : String := ""
  /-- The description of the query itself. A cursor may call itself something else. -/
  query : String := description
  closed : Bool := false
  /-- Is a fetch under way that others can run beside? Only a fetch that pauses is marked. A caller's
  function that closes the cursor in whose fetch it is called itself, with no pause between, finds
  it unmarked, and its stream is released as if it were at rest. -/
  fetching : Bool := false
  releases : List Release := []
  deriving Inhabited

namespace Cursor

def requireOpen (c : Cursor) : Except Failure Unit :=
  if c.closed then .error (.cursorClosed c.description) else .ok ()

/-- Fails if the cursor was closed beside a fetch that is to go on. -/
def requireUninterrupted (c : Cursor) : Except Failure Unit :=
  if c.closed then .error (.cursorClosed c.query) else .ok ()

/-- Reads on from an open cursor that still has these items: the next one, if there is one, and
what is left. -/
def next {α : Type} (c : Cursor) (items : List α) : Except Failure (Option α × List α) := do
  c.requireOpen
  return (items.head?, items.tail)

/-- The releases that closing the cursor now sets off, and the closed cursor. -/
def close (c : Cursor) : List Release × Cursor :=
  (if c.closed then [] else if c.fetching then c.releases.map Release.interrupted else c.releases,
    { c with closed := true })

/-- How releases end that were all attempted: of several failures the last one counts. -/
def outcome (releases : List Release) : Except Failure Unit :=
  match (releases.filterMap Release.failure).getLast? with
  | some e => .error e
  | none => .ok ()

def shown (c : Cursor) : String :=
  "DocumentCursor(" ++ Quoted.quote c.description ++ ", "
    ++ (if c.closed then "closed" else "open") ++ ")"

end Cursor

end VersionedTree
