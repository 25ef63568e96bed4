import VersionedTree.Failure

/-!
# Modification times

When something was modified, as callers put it down. That should be a number; what else is put down
is kept and shown as it is, but no range can tell whether it holds it.
-/

namespace VersionedTree

/-- What is put down for the time of a modification. -/
inductive Modified where
  | time (t : Int)
  /-- A value that is no number. -/
  | mark (v : Value)
  deriving Inhabited

namespace Modified

/-- The time, if there is one: truth values stand for the numbers 1 and 0. -/
def time? : Modified → Option Int
  | time t => some t
  | mark v => v.number?

def value : Modified → Value
  | time t => .number t
  | mark v => v

/-- Null puts down nothing. -/
def ofValue? : Value → Option Modified
  | .null => none
  | .number t => some (time t)
  | v => some (mark v)

def toValue (m : Option Modified) : Value := (m.map value).getD .null

theorem toValue_ofValue? (v : Value) : toValue (ofValue? v) = v := by
  cases v <;> rfl

def same (m n : Option Modified) : Bool := (toValue m).same (toValue n)

end Modified

/-- Is a document modified like this in the range? That cannot be told if no time was put down, but
something else was. -/
def TimeRange.admits (r : TimeRange) : Option Modified → Except Failure Bool
  | none => .ok (r.contains none)
  | some m =>
    match m.time? with
    | some t => .ok (r.contains (some t))
    | none => .error (.incomparable "<=" (.number r.lower) m.value)

end VersionedTree
