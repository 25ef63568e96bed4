import VersionedTree.Document
import VersionedTree.Failure

/-!
# Node states

The state of one node at a snapshot. The nodes bundled with it become states of their own: its
children first in the order the bundle names them, each followed by its own descendants.
-/

namespace VersionedTree

/-- A node as a snapshot sees it; one that is not present stands for a missing node. A state that
was not read from a store may be of no snapshot. -/
structure NodeState where
  path : String
  snapshot : Option RevisionVector
  lastRevision : Option Revision
  properties : Properties
  bundled : Bundle := .empty
  present : Bool := true
  deriving Inhabited

/-- States of nodes in the order they are to be delivered, and how that ends if not well. -/
structure Expansion where
  states : List NodeState := []
  failure : Option Failure := none
  deriving Inhabited

/-- One expansion after another; nothing follows a failure. -/
def Expansion.append (a b : Expansion) : Expansion :=
  match a.failure with
  | some _ => a
  | none => ⟨a.states ++ b.states, b.failure⟩

namespace NodeState

def snapshotText (s : NodeState) : String :=
  match s.snapshot with
  | some v => v.text
  | none => "None"

def property? (s : NodeState) (name : String) : Option Value := s.properties.lookup name

/-- The names of the bundled nodes that are children of the node itself. -/
def bundledNames (s : NodeState) : List String :=
  s.bundled.keys.filterMap fun key =>
    match Path.names key with
    | [name] => some name
    | _ => none

/-- Has a bundled node no ancestor among the children of the node? -/
def isOrphan (s : NodeState) (key : String) : Bool :=
  match Path.names key with
  | [] => true
  | first :: _ => !s.bundledNames.contains first

/-- What a bundle holds below a name, under the names that remain. -/
def bundledBelow (s : NodeState) (name : String) : Bundle :=
  .ofList <| s.bundled.entries.filterMap fun (key, properties) =>
    if Path.beginsWith (name ++ "/") key then
      some (String.ofList (key.toList.drop (name.length + 1)), properties)
    else none

def child (s : NodeState) (name : String) (properties : Properties) : NodeState :=
  { s with path := Path.join s.path name, properties, bundled := s.bundledBelow name }

/-- The bundled children, or the failure that some bundled node has no place in the tree. -/
def children (s : NodeState) : Except Failure (List NodeState) :=
  match s.bundled.keys.find? s.isOrphan with
  | some key =>
    .error (.unresolved (Path.join s.path key) s.snapshotText (.orphan key s.path))
  | none =>
    .ok <| s.bundled.entries.filterMap fun (key, properties) =>
      match Path.names key with
      | [name] => some (s.child name properties)
      | _ => none

/-- The descendants down to a number of generations, each before its own descendants. -/
def generations : Nat → NodeState → Expansion
  | 0, _ => {}
  | n + 1, s =>
    match s.children with
    | .error e => ⟨[], some e⟩
    | .ok children =>
      children.foldl (fun before c => before.append (.append ⟨[c], none⟩ (generations n c))) {}

/-- No bundled node lies deeper than this: a name and a slash are taken off a key in each
generation. -/
def depthBound (s : NodeState) : Nat := s.bundled.keys.foldr (fun key bound => key.length + bound) 1

/-- All bundled descendants, depth first, each before its own descendants. -/
def descendants (s : NodeState) : Expansion := generations s.depthBound s

/-- Are the states the same? The snapshots they were read at do not count. -/
def same (s t : NodeState) : Bool :=
  s.path == t.path && s.lastRevision == t.lastRevision && s.present == t.present
    && s.properties.same t.properties && s.bundled.same Properties.same t.bundled

def shown (s : NodeState) : String :=
  "DocumentNodeState(path=" ++ Quoted.quote s.path ++ ", rev="
    ++ (match s.lastRevision with
      | some r => r.text
      | none => "None") ++ ")"

end NodeState

/-- What a traversal delivers: the state of a node, its path, and the modification time of the
document it was read from. -/
structure Entry where
  path : String
  state : NodeState
  lastModified : Option Modified := none
  deriving Inhabited

namespace Entry

def ofState (modified : Option Modified) (s : NodeState) : Entry := ⟨s.path, s, modified⟩

def same (a b : Entry) : Bool :=
  a.path == b.path && a.state.same b.state && Modified.same a.lastModified b.lastModified

end Entry

end VersionedTree
