/-!
# Hexadecimal numerals

Numbers in base sixteen with the digits `0` to `9` and `a` to `f`. Written numerals have no
leading zeros; read ones may, but capital letters are no digits.
-/

namespace VersionedTree.Hexadecimal

def format (n : Nat) : String := String.ofList (Nat.toDigits 16 n)

def digit? (c : Char) : Option Nat :=
  if '0' ≤ c ∧ c ≤ '9' then some (c.toNat - '0'.toNat)
  else if 'a' ≤ c ∧ c ≤ 'f' then some (c.toNat - 'a'.toNat + 10)
  else none

def parseFrom (value : Nat) : List Char → Option Nat
  | [] => some value
  | c :: rest => (digit? c).bind fun d => parseFrom (16 * value + d) rest

/-- The value of a numeral: at least one digit and nothing else. -/
def parse? (numeral : List Char) : Option Nat :=
  if numeral.isEmpty then none else parseFrom 0 numeral

example : format 0 = "0" ∧ format 255 = "ff" ∧ format 4096 = "1000" := by decide

example : parse? "00ff".toList = some 255 ∧ parse? [] = none ∧ parse? "FF".toList = none := by
  decide

end VersionedTree.Hexadecimal
