import VersionedTree.Value

/-!
# Reading values

A reader takes from a value what it expects there and a plain default for all else. A field that
is null counts as one that is not given.
-/

namespace VersionedTree.Value

def asInt : Value → Int
  | .number n => n
  | .flag b => if b then 1 else 0
  | _ => 0

def asText : Value → String
  | .text s => s
  | _ => ""

def asText? : Value → Option String
  | .text s => some s
  | _ => none

def items : Value → List Value
  | .list items => items
  | _ => []

def fields : Value → List (String × Value)
  | .record fields => fields
  | _ => []

/-- Has a record a field of this name, be it null or not? -/
def has (v : Value) (name : String) : Bool := (v.fields.lookup name).isSome

def field (v : Value) (name : String) : Value := (v.fields.lookup name).getD .null

def given? (v : Value) (name : String) : Option Value :=
  match v.field name with
  | .null => none
  | value => some value

def int? (v : Value) (name : String) : Option Int := (v.given? name).map asInt

def text? (v : Value) (name : String) : Option String := (v.given? name).map asText

def textAt (v : Value) (name : String) : String := (v.field name).asText

def itemsAt (v : Value) (name : String) : List Value := (v.field name).items

def textsAt (v : Value) (name : String) : List String := (v.itemsAt name).map asText

/-- The truth value of a field, or what stands for it when it is not given. -/
def flagAt (v : Value) (name : String) (otherwise : Bool := false) : Bool :=
  match v.field name with
  | .flag b => b
  | _ => otherwise

def ofText? (s : Option String) : Value := (s.map text).getD null

def ofInt? (n : Option Int) : Value := (n.map number).getD null

def ofTexts (ss : List String) : Value := .list (ss.map text)

example : (record [("a", null), ("b", flag true)]).given? "a" = none ∧
    (record [("a", null), ("b", flag true)]).has "a" ∧
    (record [("a", null), ("b", flag true)]).int? "b" = some 1 := by decide

end VersionedTree.Value
