import VersionedTree.Text.Hexadecimal
import VersionedTree.Text.Quoted

/-!
# Revisions

A revision names one write by one cluster node. Revisions are ordered by timestamp, then counter,
then cluster; their text is `r` and the three fields in hexadecimal, joined by dashes.
-/

namespace VersionedTree

/-- One write of one cluster node. -/
structure Revision where
  timestamp : Nat
  counter : Nat := 0
  cluster : Nat := 1
  deriving DecidableEq, Inhabited

namespace Revision

inductive Error where
  | negativeField (timestamp counter cluster : Int)
  | malformed (text : String)
  deriving DecidableEq

def Error.message : Error → String
  | .negativeField timestamp counter cluster =>
    "Revision fields must be non-negative: Revision(timestamp=" ++ toString timestamp
      ++ ", counter=" ++ toString counter ++ ", cluster_id=" ++ toString cluster ++ ")"
  | .malformed text => "Not a revision: " ++ Quoted.quote text

/-- The revision with these fields, none of which may be negative. -/
def ofInts (timestamp counter cluster : Int) : Except Error Revision :=
  if timestamp < 0 ∨ counter < 0 ∨ cluster < 0 then
    .error (.negativeField timestamp counter cluster)
  else .ok ⟨timestamp.toNat, counter.toNat, cluster.toNat⟩

instance : LT Revision where
  lt a b := a.timestamp < b.timestamp ∨ a.timestamp = b.timestamp ∧
    (a.counter < b.counter ∨ a.counter = b.counter ∧ a.cluster < b.cluster)

instance : LE Revision where
  le a b := ¬ b < a

theorem lt_def (a b : Revision) : a < b ↔ a.timestamp < b.timestamp ∨ a.timestamp = b.timestamp ∧
    (a.counter < b.counter ∨ a.counter = b.counter ∧ a.cluster < b.cluster) := Iff.rfl

theorem le_def (a b : Revision) : a ≤ b ↔ ¬ b < a := Iff.rfl

instance (a b : Revision) : Decidable (a < b) :=
  decidable_of_iff _ (lt_def a b).symm

instance (a b : Revision) : Decidable (a ≤ b) :=
  decidable_of_iff _ (le_def a b).symm

theorem lt_irrefl (a : Revision) : ¬ a < a := by
  simp [lt_def]

theorem lt_trans {a b c : Revision} (hab : a < b) (hbc : b < c) : a < c := by
  rw [lt_def] at *
  omega

theorem lt_trichotomy (a b : Revision) : a < b ∨ a = b ∨ b < a := by
  cases a
  cases b
  simp only [lt_def, mk.injEq]
  omega

def text (r : Revision) : String :=
  "r" ++ Hexadecimal.format r.timestamp ++ "-" ++ Hexadecimal.format r.counter ++ "-"
    ++ Hexadecimal.format r.cluster

/-- A text may end in one line end that is no part of what it says. -/
def withoutLineEnd (text : List Char) : List Char :=
  if text.getLast? == some '\n' then text.dropLast else text

/-- The three numerals of a revision's text: behind an `r`, joined by dashes. -/
def fields? : List Char → Option (List Char × List Char × List Char)
  | 'r' :: rest =>
    match rest.splitOn '-' with
    | [timestamp, counter, cluster] => some (timestamp, counter, cluster)
    | _ => none
  | _ => none

def ofNumerals? (timestamp counter cluster : List Char) : Option Revision := do
  let timestamp ← Hexadecimal.parse? timestamp
  let counter ← Hexadecimal.parse? counter
  let cluster ← Hexadecimal.parse? cluster
  return ⟨timestamp, counter, cluster⟩

/-- The revision that a text names, one line end at its end allowed. -/
def ofText? (text : String) : Option Revision :=
  (fields? (withoutLineEnd text.toList)).bind fun (timestamp, counter, cluster) =>
    ofNumerals? timestamp counter cluster

def ofText (text : String) : Except Error Revision :=
  match ofText? text with
  | some r => .ok r
  | none => .error (.malformed text)

example : ofText? "r1a-0-1" = some ⟨26, 0, 1⟩ ∧ ofText? "r1-0" = none ∧ ofText? "r1--1" = none := by
  decide

end Revision

end VersionedTree
