import VersionedTree.DocumentCache
import VersionedTree.Event
import VersionedTree.NodeState
import VersionedTree.Settings
import VersionedTree.Value.Reading

/-!
# Interchange

How the things of the library are written down as values, and read back. Revisions and vectors are
written as their texts and ranges as their two limits; a revision may also be read from its
numbers, and a vector from a list of revisions.
-/

namespace VersionedTree

/-! ## Revisions and ranges -/

def Revision.toValue (r : Revision) : Value := .text r.text

def Revision.ofValue : Value → Except Failure Revision
  | .text s => (ofText s).mapError .revision
  | v =>
    let numbers := v.items.map Value.asInt
    (ofInts (numbers.getD 0 0) (numbers.getD 1 0) (numbers.getD 2 1)).mapError .revision

def RevisionVector.toValue (v : RevisionVector) : Value := .text v.text

def RevisionVector.ofValue : Value → Except Failure RevisionVector
  | .text s => (ofText s).mapError .revision
  | v => ofList <$> v.items.mapM Revision.ofValue

def TimeRange.toValue (r : TimeRange) : Value := .list [.number r.lower, .number r.upper]

/-- The lower limit is 0 and the upper one open unless they are given. Limits have to be numbers. -/
def TimeRange.ofValue (v : Value) : Except Failure TimeRange :=
  let lower := v.items.getD 0 (.number 0)
  let upper := v.items.getD 1 (.number unlimited)
  match lower.number?, upper.number? with
  | some lower, some upper => (ofLimits lower upper).mapError .range
  | _, _ => .error (.incomparable ">" lower upper)

/-! ## Documents -/

def SplitKind.names : List (String × SplitKind) :=
  [("NONE", live), ("DEFAULT", ordinary), ("INTERMEDIATE", intermediate), ("DEFAULT_LEAF", leaf),
    ("COMMIT_ROOT_ONLY", commitRootOnly), ("DEFAULT_NO_BRANCH", noBranch)]

def SplitKind.name (k : SplitKind) : String :=
  ((names.find? fun (_, kind) => kind = k).map Prod.fst).getD ""

def SplitKind.ofName (name : String) : Except Failure SplitKind :=
  match names.lookup name with
  | some kind => .ok kind
  | none => .error (.unknownName name)

/-- The kind that a record names, or what stands for it when it names none. -/
def SplitKind.ofValue (v : Value) (otherwise : SplitKind) : Except Failure SplitKind :=
  ofName ((v.text? "split").getD otherwise.name)

theorem SplitKind.ofName_name (k : SplitKind) : ofName k.name = .ok k := by
  cases k <;> rfl

/-- A bundle is written as a list of pairs, for its order counts. -/
def Bundle.toValue (b : Bundle) : Value :=
  .list (b.entries.map fun (key, properties) => .list [.text key, .record properties])

def Bundle.ofValue (v : Value) : Bundle :=
  .ofList <| v.items.map fun pair =>
    match pair.items with
    | [key, properties] => (key.asText, properties.fields)
    | _ => ("", [])

/-- The bundle that any value stands for: one that stands for nothing, a record, or pairs. -/
def Bundle.ofAny (v : Value) : Except Failure Bundle := do
  if v.isVoid then return .empty
  match v with
  | .record fields => return .ofList (fields.map fun (key, properties) => (key, properties.fields))
  | .list items =>
    for (item, i) in items.zipIdx do
      match item.length? with
      | none => throw (.partless i)
      | some parts => if parts ≠ 2 then throw (.notAPair i parts)
    return ofValue v
  | .text _ => throw (.notAPair 0 1)
  | v => throw (.notIterable v)

def Commit.toValue (c : Commit) : Value :=
  .record [("rev", c.revision.toValue), ("props", (c.properties.map Value.record).getD .null),
    ("bundled", Bundle.toValue c.bundled), ("deletion", .flag c.isDeletion)]

def Commit.ofValue (v : Value) : Except Failure Commit := do
  return {
    revision := ← Revision.ofValue (v.field "rev")
    properties := (v.given? "props").map Value.fields
    bundled := Bundle.ofValue (v.field "bundled") }

def Document.fields (d : Document) : List (String × Value) :=
  [("id", .text d.id), ("path", .text d.path), ("modified", Modified.toValue d.modified),
    ("split", .text d.split.name), ("commits", .list (d.commits.map Commit.toValue))]

def Document.toValue (d : Document) : Value := .record d.fields

/-- A document without an id is the main one of its path. -/
def Document.ofValue (v : Value) : Except Failure Document := do
  let path := v.textAt "path"
  return {
    id := (v.text? "id").getD (DocumentId.ofPath path)
    path
    modified := Modified.ofValue? (v.field "modified")
    split := ← SplitKind.ofValue v .live
    commits := ← (v.itemsAt "commits").mapM Commit.ofValue }

/-! ## Node states -/

def NodeState.fields (s : NodeState) : List (String × Value) :=
  [("path", .text s.path), ("read", .text s.snapshotText),
    ("last", .ofText? (s.lastRevision.map Revision.text)), ("props", .record s.properties),
    ("exists", .flag s.present)]

def NodeState.toValue (s : NodeState) : Value := .record s.fields

def NodeState.ofValue (v : Value) : Except Failure NodeState := do
  return {
    path := v.textAt "path"
    snapshot := ← (v.given? "read").mapM RevisionVector.ofValue
    lastRevision := ← (v.given? "last").mapM Revision.ofValue
    properties := (v.field "props").fields
    bundled := Bundle.ofValue (v.field "bundled")
    present := v.flagAt "exists" true }

def Entry.toValue (e : Entry) : Value :=
  .list [.text e.path, Modified.toValue e.lastModified,
    .ofText? (e.state.lastRevision.map Revision.text), .record e.state.properties]

/-- Of the modification times that are listed, the last one counts. -/
def Entry.ofValue (v : Value) : Except Failure Entry := do
  return {
    path := v.textAt "path"
    state := ← NodeState.ofValue (v.field "state")
    lastModified := (v.itemsAt "modified").getLast?.bind Modified.ofValue? }

/-! ## Settings and counts -/

def CacheSettings.ofValue (v : Value) : CacheSettings where
  enabled := v.flagAt "enabled" true
  bounded := v.flagAt "enable_protection" true
  maxEntries := if v.has "max_entries" then v.int? "max_entries" else some 10000

/-- The settings of a traversal. The callers' functions are made of what is given for them, but no
text stands for a function. -/
def TraversalSettings.ofValue {σ : Type} (v : Value) (predicate : Value → String → Action σ Bool)
    (progress : Value → String → Action σ Unit) : Except Failure (TraversalSettings σ) := do
  let plain : TraversalSettings σ := {}
  if v.has "hidden_roots" && (v.given? "hidden_roots").isNone then throw (.notIterable .null)
  return {
    label := if v.has "label" then v.text? "label" else plain.label
    range := ((← (v.given? "range").mapM TimeRange.ofValue)).getD plain.range
    hiddenRoots := if v.has "hidden_roots" then v.textsAt "hidden_roots" else plain.hiddenRoots
    predicate := match v.given? "predicate" with
      | none => plain.predicate
      | some (.text _) => none
      | some p => some (predicate p)
    progress := match v.given? "progress" with
      | none => plain.progress
      | some (.text _) => none
      | some p => some (progress p)
    partitions := if v.has "partitions" then v.int? "partitions" else plain.partitions
    maxWorkers := v.int? "max_workers" }

def TraversalSettings.ofPreset {σ : Type} (purpose : String) (args : List Value) :
    Except Failure (TraversalSettings σ) := do
  let label := (args.getD 0 .null).asText?
  match purpose with
  | "incremental" =>
    let limits := match args.drop 1 with
      | [since, .null] => [since]
      | limits => limits
    let range ← TimeRange.ofValue (.list limits)
    (incremental label range.lower (some range.upper)).mapError .range
  | _ => return partitioned label (args.getD 1 .null).number? (args.getD 2 .null).number?

def TraversalSettings.toValue {σ : Type} (s : TraversalSettings σ) : Except Failure Value := do
  return .record [("label", .ofText? s.label), ("range", s.range.toValue),
    ("range_str", .text s.range.text), ("hidden_roots", .ofTexts s.hiddenRoots),
    ("partitions", .ofInt? s.partitions), ("max_workers", .ofInt? s.maxWorkers),
    ("default_predicate", .flag s.predicate.isSome), ("errors", .ofTexts (← s.problems))]

def Tally.toValue (t : Tally) : Value :=
  .list [.number t.idsSeen, .number t.idsRejected, .number t.documentsRejected]

def DocumentCache.statistics (c : DocumentCache) : Value :=
  .record <| [("entries", .number c.size), ("hits", .number c.hits), ("misses", .number c.misses),
    ("evictions", .number c.evictions)] ++ (c.hitRate?.map fun s => ("hit_rate", .text s)).toList

/-! ## Failures and events -/

def Kind.all : List Kind :=
  [runtime, value, os, key, missingAttribute, wrongType, traversal, documentStore,
    storeUnavailable, cursorClosed, snapshotResolution, resourceRelease, traversalState]

def Kind.ofName? (name : String) : Option Kind := all.find? fun kind => kind.name = name

theorem Kind.ofName?_name (kind : Kind) : ofName? kind.name = some kind := by
  cases kind <;> rfl

mutual

/-- What is told of a failure: kind, message, and what belongs to its kind. -/
def Failure.fields : Failure → List (String × Value)
  | .unresolved path snapshot cause =>
    [("error", .text Kind.snapshotResolution.name),
      ("message", .text (cause.message path snapshot)),
      ("path", .text path), ("revision", .text snapshot)]
  | .unreleased causes =>
    [("error", .text Kind.resourceRelease.name),
      ("message", .text (Failure.unreleased causes).message),
      ("errors", .list (Failure.records causes))]
  | e => [("error", .text e.kind.name), ("message", .text e.message)]

def Failure.records : List Failure → List Value
  | [] => []
  | e :: rest => .record e.fields :: Failure.records rest

end

/-- Items that were collected up to their end, well or not. -/
def Value.collected (items : List Value) (failure : Option Failure) : Value :=
  .record <| ("items", .list items) :: (failure.map Failure.fields).getD [("end", .flag true)]

def Expansion.toValue (x : Expansion) : Value :=
  .collected (x.states.map NodeState.toValue) x.failure

def FieldValue.toValue : FieldValue → Value
  | .text s => .text s
  | .count n => .number n
  | .flag b => .flag b
  | .texts ss => .ofTexts ss

def Event.toValue (e : Event) : Value :=
  .record <| [("event", .text e.name), ("level", .text e.level.name)] ++
    e.fields.map fun (name, value) => (name, value.toValue)

structure LogSettings where
  threshold : Nat
  /-- Are events shown as records, and not as lines? -/
  records : Bool := true
  deriving Inhabited

def LogSettings.ofValue (v : Value) : Except Failure LogSettings := do
  return {
    threshold := ← Level.threshold ((v.text? "level").getD "INFO")
    records := v.flagAt "json" true }

def LogSettings.shown (s : LogSettings) (events : List Event) : List Value :=
  (events.filter fun e => s.threshold ≤ e.level.rank).map fun e =>
    if s.records then e.toValue else .text e.consoleLine

end VersionedTree
