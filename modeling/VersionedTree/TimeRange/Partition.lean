import VersionedTree.TimeRange
import VersionedTree.StableSort

/-!
# Checking partitions

A list of ranges is a sound partition when, put in order, each range ends where the next one
begins, and the first and the last one reach the limits of what is to be covered.
-/

namespace VersionedTree.TimeRange

/-- What is wrong with a partition. -/
inductive Flaw where
  | overlap (first second : TimeRange)
  | gap (first second : TimeRange)
  | uncovered (range : TimeRange)
  deriving DecidableEq

def Flaw.message : Flaw → String
  | .overlap first second => first.text ++ " overlaps " ++ second.text
  | .gap first second => "gap between " ++ first.text ++ " and " ++ second.text
  | .uncovered range => "partitions do not cover " ++ range.text

def precedes (r s : TimeRange) : Bool :=
  r.lower < s.lower || (r.lower = s.lower && r.upper < s.upper)

/-- The flaw between two neighbours of a partition in order, if there is one. -/
def flawBetween (first second : TimeRange) : Option Flaw :=
  if first.overlaps second then some (.overlap first second)
  else if first.upper ≠ second.lower then some (.gap first second)
  else none

def neighbourFlaws : List TimeRange → List Flaw
  | first :: second :: rest => (flawBetween first second).toList ++ neighbourFlaws (second :: rest)
  | _ => []

/-- The flaw that the outer limits of a partition in order are not those of `range`. Nothing is
said of an empty partition. -/
def coverageFlaw (range : TimeRange) (ordered : List TimeRange) : Option Flaw :=
  match ordered.head?, ordered.getLast? with
  | some first, some last =>
    if first.lower ≠ range.lower ∨ last.upper ≠ range.upper then some (.uncovered range) else none
  | _, _ => none

/-- All that is wrong with `ranges` as a partition, of `range` if one is given. -/
def partitionFlaws (ranges : List TimeRange) (range : Option TimeRange) : List Flaw :=
  let ordered := sortStable precedes ranges
  neighbourFlaws ordered ++ (range.bind fun r => coverageFlaw r ordered).toList

end VersionedTree.TimeRange
