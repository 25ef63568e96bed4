import VersionedTree.StableSort
import VersionedTree.Text.Quoted
import VersionedTree.Value

/-!
# Canonical texts of values

The text of a value in the syntax of JSON: in ASCII, the fields of a record in the order of their
names, a blank behind every comma and colon. Values are put in the order of their texts.
-/

namespace VersionedTree.Value

def unitEscape (n : Nat) : List Char := '\\' :: 'u' :: Quoted.padded 4 n

/-- How a character stands in a text: what is not printable ASCII is escaped, a character beyond
the first plane as two surrogates. -/
def canonicalChar (c : Char) : List Char :=
  if c = Quoted.double then ['\\', Quoted.double]
  else if c = '\\' then ['\\', '\\']
  else if c = '\n' then ['\\', 'n']
  else if c = '\r' then ['\\', 'r']
  else if c = '\t' then ['\\', 't']
  else if c = '\x08' then ['\\', 'b']
  else if c = '\x0c' then ['\\', 'f']
  else if ' ' ≤ c ∧ c ≤ '~' then [c]
  else if c.toNat < 0x10000 then unitEscape c.toNat
  else
    let above := c.toNat - 0x10000
    unitEscape (0xd800 + above / 0x400) ++ unitEscape (0xdc00 + above % 0x400)

def canonicalText (s : String) : String :=
  String.ofList (Quoted.double :: s.toList.flatMap canonicalChar ++ [Quoted.double])

mutual

def canonical : Value → String
  | .null => "null"
  | .flag b => if b then "true" else "false"
  | .number n => toString n
  | .text s => canonicalText s
  | .list items => "[" ++ String.intercalate ", " (canonicalItems items) ++ "]"
  | .record fields =>
    let ordered := sortStable (fun (a, _) (b, _) => a < b) (canonicalFields fields)
    "\x7b" ++ String.intercalate ", " (ordered.map fun (name, written) =>
      canonicalText name ++ ": " ++ written) ++ "\x7d"

def canonicalItems : List Value → List String
  | [] => []
  | v :: rest => canonical v :: canonicalItems rest

def canonicalFields : List (String × Value) → List (String × String)
  | [] => []
  | (name, v) :: rest => (name, canonical v) :: canonicalFields rest

end

def inOrder (vs : List Value) : List Value :=
  (sortStable (fun (a, _) (b, _) => a < b) (vs.map fun v => (v.canonical, v))).map Prod.snd

end VersionedTree.Value
