import VersionedTree.Interchange
import VersionedTree.Workspace

/-!
# Building trees

A tree is built by planting nodes one after the other; the revision at which a path was planted
last is remembered. What is to be planted can be read from records.
-/

namespace VersionedTree

inductive Planting where
  | node (path : String) (modified : Option Modified) (bundled : Bundle) (properties : Properties)
  | removed (path : String) (modified : Option Modified)
  | previous (path : String) (modified : Option Modified) (height : Int) (split : SplitKind)
  | document (d : Document)

namespace Planting

/-- Properties of these names are none: they set the modification time and the bundle of a node
to be planted. -/
def settingNames : List String := ["modified", "bundled"]

/-- Properties cannot have these names: they stand for the node and for who plants it. -/
def reservedNames : List String := ["path", "self"]

/-- A property that a record cannot have. -/
inductive Clash where
  /-- The record has a setting of this name itself. -/
  | setting (name : String)
  | reserved (name : String)
  deriving DecidableEq

def clash? (v : Value) : Option Clash :=
  let names := (v.field "props").fields.map Prod.fst
  ((names.find? fun name => settingNames.contains name && v.has name).map .setting)
    <|> (names.find? reservedNames.contains).map .reserved

/-- The planting of a node that a record describes. A setting that the record itself does not have
is looked for among the properties. -/
def nodeOfValue (v : Value) : Except Failure Planting := do
  let properties := v.field "props"
  let bundled ←
    if v.has "bundled" then pure (Bundle.ofValue (v.field "bundled"))
    else Bundle.ofAny (properties.field "bundled")
  let modified := (if v.has "modified" then v else properties).field "modified"
  return .node (v.textAt "path") (Modified.ofValue? modified) bundled
    (properties.fields.filter fun (name, _) => !settingNames.contains name)

/-- The planting that a record describes; `refuse` says how a clash fails. -/
def ofValue (v : Value) (refuse : Clash → Failure) : Except Failure Planting := do
  let modified := Modified.ofValue? (v.field "modified")
  match v.textAt "k" with
  | "node" =>
    match clash? v with
    | some clash => throw (refuse clash)
    | none => nodeOfValue v
  | "removed" => return .removed (v.textAt "path") modified
  | "previous" =>
    return .previous (v.textAt "path") modified ((v.int? "height").getD 0)
      (← SplitKind.ofValue v .ordinary)
  | _ => return .document (← Document.ofValue (v.field "doc"))

variable {υ : Type}

def planted (path : String) (r : Revision) (w : Workspace υ) : Workspace υ :=
  { w with planted := w.planted.put path r }

def plant : Planting → Action (Workspace υ) Unit
  | node path modified bundled properties => do
    Action.modify (planted path (← Workspace.commit path properties bundled modified))
  | removed path modified => do
    Action.modify (planted path (← Workspace.remove path modified))
  | previous path modified height split => do
    let _ ← Workspace.onRepository (Repository.addPrevious path height modified split)
  | document d => Workspace.onStore (DocumentStore.write d)

def plantAll (plantings : List Planting) : Action (Workspace υ) Unit := plantings.forM plant

end Planting

end VersionedTree
