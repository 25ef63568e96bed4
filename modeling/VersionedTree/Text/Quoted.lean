import VersionedTree.Text.Unprintable

/-!
# Quoted text

A text between quotation marks, with what cannot stand there escaped. The marks are single unless
the text holds a single one and no double one.
-/

namespace VersionedTree.Quoted

def single : Char := '\x27'

def double : Char := '\x22'

def mark (text : List Char) : Char :=
  if text.contains single && !text.contains double then double else single

/-- A number in hexadecimal, filled up with zeros to a width. -/
def padded (width n : Nat) : List Char :=
  let digits := Nat.toDigits 16 n
  List.replicate (width - digits.length) '0' ++ digits

/-- The escape of an unprintable character, as short as its code point allows. -/
def codeEscape (n : Nat) : List Char :=
  if n < 0x100 then '\\' :: 'x' :: padded 2 n
  else if n < 0x10000 then '\\' :: 'u' :: padded 4 n
  else '\\' :: 'U' :: padded 8 n

def encodeChar (mark c : Char) : List Char :=
  if c = '\\' || c = mark then ['\\', c]
  else if c = '\n' then ['\\', 'n']
  else if c = '\r' then ['\\', 'r']
  else if c = '\t' then ['\\', 't']
  else if Unprintable.isUnprintable c then codeEscape c.toNat
  else [c]

def quote (text : String) : String :=
  let m := mark text.toList
  String.ofList (m :: text.toList.flatMap (encodeChar m) ++ [m])

example : quote "it's" = "\"it's\"" ∧ quote "a\nb" = "'a\\nb'" := by decide

end VersionedTree.Quoted
