import VersionedTree.Text.Quoted

/-!
# Property values

The values that nodes carry as properties. They pass through the store unchanged; only comparing
node states looks into them. Then the truth values stand for the numbers 1 and 0, and the order in
which a record names its fields does not count.
-/

namespace VersionedTree

inductive Value where
  | null
  | flag (b : Bool)
  | number (n : Int)
  | text (s : String)
  | list (items : List Value)
  | record (fields : List (String × Value))
  deriving Inhabited

/-- The properties of a node; every name occurs once. -/
abbrev Properties := List (String × Value)

namespace Value

def number? : Value → Option Int
  | .flag b => some (if b then 1 else 0)
  | .number n => some n
  | _ => none

def kindName : Value → String
  | .null => "NoneType"
  | .flag _ => "bool"
  | .number _ => "int"
  | .text _ => "str"
  | .list _ => "list"
  | .record _ => "dict"

/-- How many things a value is made of, if it is made of several. -/
def length? : Value → Option Nat
  | .text s => some s.length
  | .list items => some items.length
  | .record fields => some fields.length
  | _ => none

/-- Does a value stand for nothing? -/
def isVoid : Value → Bool
  | .null | .flag false | .number 0 => true
  | v => v.length? == some 0

mutual

def shown : Value → String
  | .null => "None"
  | .flag b => if b then "True" else "False"
  | .number n => toString n
  | .text s => Quoted.quote s
  | .list items => "[" ++ String.intercalate ", " (shownItems items) ++ "]"
  | .record fields => "\x7b" ++ String.intercalate ", " (shownFields fields) ++ "\x7d"

def shownItems : List Value → List String
  | [] => []
  | x :: rest => shown x :: shownItems rest

def shownFields : List (String × Value) → List String
  | [] => []
  | (name, x) :: rest => (Quoted.quote name ++ ": " ++ shown x) :: shownFields rest

end

mutual

def same : Value → Value → Bool
  | .null, .null => true
  | .text s, .text t => s == t
  | .list xs, .list ys => sameItems xs ys
  | .record fs, .record gs => fs.length == gs.length && sameFields fs gs
  | .flag b, w => w.number? == some (if b then 1 else 0)
  | .number n, w => w.number? == some n
  | _, _ => false

def sameItems : List Value → List Value → Bool
  | [], [] => true
  | x :: xs, y :: ys => same x y && sameItems xs ys
  | _, _ => false

/-- Is each of the first fields among the second ones, with the same value? -/
def sameFields : List (String × Value) → List (String × Value) → Bool
  | [], _ => true
  | (name, x) :: rest, others =>
    (match others.lookup name with
      | some y => same x y
      | none => false) && sameFields rest others

end

example :
    same (.record [("a", .flag true), ("b", .null)]) (.record [("b", .null), ("a", .number 1)])
      = true := by decide

end Value

/-- Are the properties the same, in whatever order they are listed? -/
def Properties.same (p q : Properties) : Bool := Value.same (.record p) (.record q)

end VersionedTree
