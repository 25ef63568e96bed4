import VersionedTree.PathFilter
import VersionedTree.Text.Capitals

/-!
# The log

What the library reports while it works. An event has a name, a level and fields; the layouts of
the log are a record of the fields and a console line.
-/

namespace VersionedTree

inductive Level where
  | debug
  | info
  | warning
  | error
  deriving DecidableEq, Inhabited

namespace Level

def name : Level → String
  | debug => "debug"
  | info => "info"
  | warning => "warning"
  | error => "error"

def rank : Level → Nat
  | debug => 10
  | info => 20
  | warning => 30
  | error => 40

def plainLayout : String := "%(levelname)s:%(name)s:%(message)s"

/-- The layouts of a line: a mark, the name of a style, and the layout in that style. -/
def layouts : List (String × String × String) :=
  [("%", "PercentStyle", plainLayout),
    ("\x7b", "StrFormatStyle", "\x7blevelname\x7d:\x7bname\x7d:\x7bmessage\x7d"),
    ("$", "StringTemplateStyle", "$\x7blevelname\x7d:$\x7bname\x7d:$\x7bmessage\x7d")]

def shownLayouts : String :=
  "\x7b" ++ String.intercalate ", " (layouts.map fun (mark, style, layout) =>
    Quoted.quote mark ++ ": (<class 'logging." ++ style ++ "'>, " ++ Quoted.quote layout ++ ")")
    ++ "\x7d"

/-- The rank from which on events are logged, by its name in letters of any case. The plain layout
of a line and the table of layouts have such names too, but are no levels. -/
def threshold (name : String) : Except Failure Nat :=
  let capitals := Capitals.capitalize name
  match capitals with
  | "NOTSET" => .ok 0
  | "DEBUG" => .ok debug.rank
  | "INFO" => .ok info.rank
  | "WARN" | "WARNING" => .ok warning.rank
  | "ERROR" => .ok error.rank
  | "FATAL" | "CRITICAL" => .ok 50
  | "BASIC_FORMAT" => .error (.notALevel plainLayout)
  | "_STYLES" => .error (.nothingLikeALevel shownLayouts)
  | _ => .error (.unknownLevel capitals)

end Level

inductive FieldValue where
  | text (s : String)
  | count (n : Nat)
  | flag (b : Bool)
  | texts (ss : List String)
  deriving DecidableEq

inductive Event where
  | queryOpened (range : TimeRange) (matching : Nat)
  | commitApplied (path : String) (revision : Revision) (deletion : Bool)
  | scanStarted (label : String) (range : TimeRange) (snapshot : RevisionVector)
  | scanCompleted (label : String) (entries : Nat) (tally : Tally)
  | traverserClosed (label : String) (released : Nat)
  /-- A resource failed to close; some resources have no text that tells them apart. -/
  | closeFailed (resource : Option String) (error : String)
  /-- Resources failed to close while another failure was on its way. -/
  | releaseFailed (label : String) (errors : List String)
  | partitionCompleted (label : String) (range : TimeRange) (entries : Nat)
  deriving DecidableEq

namespace Event

def name : Event → String
  | queryOpened .. => "query_opened"
  | commitApplied .. => "commit_applied"
  | scanStarted .. => "scan_started"
  | scanCompleted .. => "scan_completed"
  | traverserClosed .. => "traverser_closed"
  | closeFailed .. => "resource_close_failed"
  | releaseFailed .. => "release_failed_during_error"
  | partitionCompleted .. => "partition_completed"

def level : Event → Level
  | scanCompleted .. => .info
  | closeFailed .. | releaseFailed .. => .warning
  | _ => .debug

/-- The fields of an event, in ascending order of their names. -/
def fields : Event → List (String × FieldValue)
  | queryOpened range matching => [("matching", .count matching), ("range", .text range.text)]
  | commitApplied path revision deletion =>
    [("deletion", .flag deletion), ("path", .text path), ("revision", .text revision.text)]
  | scanStarted label range snapshot =>
    [("label", .text label), ("range", .text range.text), ("revision", .text snapshot.text)]
  | scanCompleted label entries tally =>
    [("documents_rejected", .count tally.documentsRejected), ("entries", .count entries),
      ("ids_rejected", .count tally.idsRejected), ("ids_seen", .count tally.idsSeen),
      ("label", .text label)]
  | traverserClosed label released => [("label", .text label), ("released", .count released)]
  | closeFailed resource error =>
    ("error", .text error) :: (resource.map fun r => ("resource", FieldValue.text r)).toList
  | releaseFailed label errors => [("errors", .texts errors), ("label", .text label)]
  | partitionCompleted label range entries =>
    [("entries", .count entries), ("label", .text label), ("range", .text range.text)]

def padded (width : Nat) (s : String) : String :=
  s ++ String.ofList (List.replicate (width - s.length) ' ')

/-- Must a text on a console line be quoted, so that the line can be told apart? -/
def needsQuotes (s : String) : Bool :=
  s.toList.any fun c => [' ', '\t', '\r', '\n', '=', Quoted.single, Quoted.double].contains c

def consoleValue : FieldValue → String
  | .text s => if needsQuotes s then Quoted.quote s else s
  | .count n => toString n
  | .flag b => if b then "True" else "False"
  | .texts ss => "[" ++ String.intercalate ", " (ss.map Quoted.quote) ++ "]"

/-- The console line of an event: level, name, and the fields in order. -/
def consoleLine (e : Event) : String :=
  "[" ++ padded 9 e.level.name ++ "] " ++ padded 30 e.name
    ++ String.join (e.fields.map fun (name, value) => " " ++ name ++ "=" ++ consoleValue value)

end Event

end VersionedTree
