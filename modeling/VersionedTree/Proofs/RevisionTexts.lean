import VersionedTree.Proofs.Numerals
import Mathlib.Data.List.Basic
import Mathlib.Data.Nat.Digits.Defs
import Mathlib.Tactic.Ring

/-! # Which texts name a revision

A text names a revision if it spells one: an `r` and three hexadecimal numerals joined by dashes,
with nothing around them but, at the end, one line end. The fields of the revision are the values
of the numerals, and its own text is the spelling without zeros in front. Every other text is
malformed.
-/

namespace VersionedTree

namespace Hexadecimal

/-- The digits in the order of their values. -/
def alphabet : List Char :=
  ['0', '1', '2', '3', '4', '5', '6', '7', '8', '9', 'a', 'b', 'c', 'd', 'e', 'f']

theorem idxOf_lt {c : Char} (h : c ∈ alphabet) : alphabet.idxOf c < 16 :=
  List.idxOf_lt_length_of_mem h

theorem get_idxOf {c : Char} (h : c ∈ alphabet) :
    alphabet.get ⟨alphabet.idxOf c, idxOf_lt h⟩ = c := List.idxOf_get (idxOf_lt h)

theorem digit?_of_mem {c : Char} (h : c ∈ alphabet) : digit? c = some (alphabet.idxOf c) := by
  have allDigits : ∀ i : Fin alphabet.length, digit? (alphabet.get i) = some i.val := by decide
  have hdigit := allDigits ⟨alphabet.idxOf c, idxOf_lt h⟩
  rwa [get_idxOf h] at hdigit

theorem digitChar_idxOf {c : Char} (h : c ∈ alphabet) : (alphabet.idxOf c).digitChar = c := by
  have allDigits : ∀ i : Fin alphabet.length, i.val.digitChar = alphabet.get i := by decide
  have hdigit := allDigits ⟨alphabet.idxOf c, idxOf_lt h⟩
  rwa [get_idxOf h] at hdigit

theorem mem_of_digit? {c : Char} (h : digit? c ≠ none) : c ∈ alphabet := by
  have hrange : 48 ≤ c.toNat ∧ c.toNat ≤ 57 ∨ 97 ≤ c.toNat ∧ c.toNat ≤ 102 := by
    refine Decidable.byContradiction fun hnot => h ?_
    have hdecimal : ¬ ('0' ≤ c ∧ c ≤ '9') := fun hc => hnot (.inl hc)
    have hletter : ¬ ('a' ≤ c ∧ c ≤ 'f') := fun hc => hnot (.inr hc)
    rw [digit?, if_neg hdecimal, if_neg hletter]
  rw [← Char.ofNat_toNat c]
  obtain ⟨hlow, hhigh⟩ | ⟨hlow, hhigh⟩ := hrange
  · interval_cases c.toNat <;> decide
  · interval_cases c.toNat <;> decide

/-- The number that digits stand for, the last of them counting once. -/
def valueOf (digits : List Char) : Nat := Nat.ofDigits 16 (digits.map alphabet.idxOf).reverse

theorem valueOf_cons (c : Char) (l : List Char) :
    valueOf (c :: l) = 16 ^ l.length * alphabet.idxOf c + valueOf l := by
  rw [valueOf, List.map_cons, List.reverse_cons, Nat.ofDigits_append, Nat.ofDigits_singleton,
    List.length_reverse, List.length_map, Nat.add_comm, valueOf]

theorem parseFrom_eq {l : List Char} (h : ∀ c ∈ l, c ∈ alphabet) (value : Nat) :
    parseFrom value l = some (16 ^ l.length * value + valueOf l) := by
  induction l generalizing value with
  | nil => simp [parseFrom, valueOf]
  | cons c l ih =>
    have hc : c ∈ alphabet := h c List.mem_cons_self
    rw [parseFrom, digit?_of_mem hc, Option.bind_some,
      ih (fun d hd => h d (List.mem_cons_of_mem c hd)), valueOf_cons, List.length_cons, pow_succ]
    congr 1
    ring

/-- Behind digits that do not begin with zero every further digit is written as it was read. -/
theorem toDigits_append {l : List Char} (h : ∀ c ∈ l, c ∈ alphabet) {value n : Nat}
    (hpos : 0 < value) (hread : parseFrom value l = some n) :
    Nat.toDigits 16 value ++ l = Nat.toDigits 16 n := by
  induction l generalizing value with
  | nil =>
    rw [parseFrom] at hread
    rw [List.append_nil, Option.some.inj hread]
  | cons c l ih =>
    have hc : c ∈ alphabet := h c List.mem_cons_self
    rw [parseFrom, digit?_of_mem hc, Option.bind_some] at hread
    have hstep : Nat.toDigits 16 value ++ [c] =
        Nat.toDigits 16 (16 * value + alphabet.idxOf c) := by
      rw [← Nat.toDigits_append_toDigits (by decide) hpos (idxOf_lt hc),
        Nat.toDigits_of_lt_base (idxOf_lt hc), digitChar_idxOf hc]
    rw [← ih (fun d hd => h d (List.mem_cons_of_mem c hd)) (by omega) hread, ← hstep,
      List.append_assoc, List.singleton_append]

/-- Without zeros in front, but for one digit. -/
def withoutZeros : List Char → List Char
  | '0' :: c :: rest => withoutZeros (c :: rest)
  | digits => digits

theorem toDigits_valueOf {l : List Char} (hne : l ≠ []) (h : ∀ c ∈ l, c ∈ alphabet) :
    Nat.toDigits 16 (valueOf l) = withoutZeros l := by
  fun_induction withoutZeros l with
  | case1 c rest ih =>
    have hrest : ∀ d ∈ c :: rest, d ∈ alphabet := fun d hd => h d (List.mem_cons_of_mem '0' hd)
    rw [← ih (List.cons_ne_nil c rest) hrest, valueOf_cons]
    simp [alphabet]
  | case2 l hzero =>
    obtain ⟨c, rest, rfl⟩ := List.exists_cons_of_ne_nil hne
    have hc : c ∈ alphabet := h c List.mem_cons_self
    have hwritten : Nat.toDigits 16 (alphabet.idxOf c) = [c] := by
      rw [Nat.toDigits_of_lt_base (idxOf_lt hc), digitChar_idxOf hc]
    have hread := parseFrom_eq h 0
    rw [Nat.mul_zero, Nat.zero_add, parseFrom, digit?_of_mem hc, Option.bind_some, Nat.mul_zero,
      Nat.zero_add] at hread
    rcases Nat.eq_zero_or_pos (alphabet.idxOf c) with hvalue | hpos
    · -- a zero in front stands alone
      have hc0 : c = '0' := by
        rw [← digitChar_idxOf hc, hvalue]
        rfl
      subst hc0
      cases rest with
      | nil => decide
      | cons d rest => exact absurd rfl (hzero d rest)
    · have hrest : ∀ d ∈ rest, d ∈ alphabet := fun d hd => h d (List.mem_cons_of_mem c hd)
      rw [← toDigits_append hrest hpos hread, hwritten, List.singleton_append]

theorem withoutZeros_suffix (l : List Char) : withoutZeros l <:+ l := by
  fun_induction withoutZeros l with
  | case1 c rest ih => exact ih.trans (List.suffix_cons '0' (c :: rest))
  | case2 l => exact List.suffix_rfl

theorem withoutZeros_ne_nil {l : List Char} (h : l ≠ []) : withoutZeros l ≠ [] := by
  fun_induction withoutZeros l with
  | case1 c rest ih => exact ih (List.cons_ne_nil c rest)
  | case2 l => exact h

/-- A numeral as it may be written, with zeros in front or without. -/
structure Numeral where
  digits : List Char
  nonempty : digits ≠ []
  digital : ∀ c ∈ digits, c ∈ alphabet

namespace Numeral

def value (x : Numeral) : Nat := valueOf x.digits

/-- The numeral of the same value that has no superfluous zeros. -/
def reduced (x : Numeral) : Numeral where
  digits := withoutZeros x.digits
  nonempty := withoutZeros_ne_nil x.nonempty
  digital c hc := x.digital c ((withoutZeros_suffix x.digits).subset hc)

theorem not_mem_digits (x : Numeral) {c : Char} (h : c ∉ alphabet) : c ∉ x.digits :=
  fun hc => h (x.digital c hc)

theorem toDigits_value (x : Numeral) : Nat.toDigits 16 x.value = x.reduced.digits :=
  toDigits_valueOf x.nonempty x.digital

theorem parse?_digits (x : Numeral) : parse? x.digits = some x.value := by
  have hread := parseFrom_eq x.digital 0
  rw [Nat.mul_zero, Nat.zero_add] at hread
  rw [parse?, List.isEmpty_eq_false_iff.2 x.nonempty]
  exact hread

/-- Whatever is read as a number is a numeral of it. -/
theorem exists_of_parse? {l : List Char} {n : Nat} (h : parse? l = some n) :
    ∃ x : Numeral, x.digits = l ∧ x.value = n := by
  rw [parse?] at h
  split at h
  · cases h
  · rename_i hne
    have hdigital : ∀ c ∈ l, c ∈ alphabet := fun c hc => mem_of_digit? (digit?_of_parseFrom h c hc)
    let x : Numeral := ⟨l, by simpa using hne, hdigital⟩
    have hvalue := x.parse?_digits
    rw [parse?, if_neg hne, h] at hvalue
    exact ⟨x, rfl, (Option.some.inj hvalue).symm⟩

end Numeral

end Hexadecimal

namespace Revision

open Hexadecimal (Numeral)

/-- The numerals that spell the fields of a revision. -/
structure Spelling where
  timestamp : Numeral
  counter : Numeral
  cluster : Numeral

namespace Spelling

def characters (x : Spelling) : List Char :=
  'r' :: (x.timestamp.digits ++ '-' :: (x.counter.digits ++ '-' :: x.cluster.digits))

def text (x : Spelling) : String := String.ofList x.characters

/-- The revision whose fields are the values of the numerals. -/
def revision (x : Spelling) : Revision := ⟨x.timestamp.value, x.counter.value, x.cluster.value⟩

/-- The spelling without superfluous zeros. -/
def reduced (x : Spelling) : Spelling :=
  ⟨x.timestamp.reduced, x.counter.reduced, x.cluster.reduced⟩

/-- The text of the revision is its spelling without superfluous zeros. -/
theorem text_revision (x : Spelling) : x.revision.text = x.reduced.text := by
  rw [← String.toList_inj, toList_text, text, String.toList_ofList]
  simp only [revision, Numeral.toDigits_value, characters, reduced]

theorem lineEnd_not_mem (x : Spelling) : '\n' ∉ x.characters := by
  have hdigits (n : Numeral) : '\n' ∉ n.digits := n.not_mem_digits (by decide)
  simp [characters, hdigits]

theorem ofNumerals?_fields (x : Spelling) :
    (fields? x.characters).bind (fun (timestamp, counter, cluster) =>
      ofNumerals? timestamp counter cluster) = some x.revision := by
  have hdash (n : Numeral) : '-' ∉ n.digits := n.not_mem_digits (by decide)
  rw [characters, fields?_join (hdash _) (hdash _) (hdash _), Option.bind_some]
  simp only [ofNumerals?, Numeral.parse?_digits]
  rfl

end Spelling

theorem eq_of_fields? {l a b c : List Char} (h : fields? l = some (a, b, c)) :
    l = 'r' :: (a ++ '-' :: (b ++ '-' :: c)) := by
  rw [fields?.eq_def] at h
  split at h
  · rename_i rest
    split at h
    · rename_i a' b' c' hsplit
      cases h
      have hjoined : ['-'].intercalate (rest.splitOn '-') = rest := List.intercalate_splitOn '-'
      rw [← hjoined, hsplit]
      simp [List.intercalate]
    · cases h
  · cases h

theorem exists_of_ofNumerals? {a b c : List Char} {r : Revision}
    (h : ofNumerals? a b c = some r) :
    ∃ x : Spelling, x.characters = 'r' :: (a ++ '-' :: (b ++ '-' :: c)) ∧ x.revision = r := by
  obtain ⟨timestamp, hTimestamp, h⟩ := Option.bind_eq_some_iff.1 h
  obtain ⟨counter, hCounter, h⟩ := Option.bind_eq_some_iff.1 h
  obtain ⟨cluster, hCluster, h⟩ := Option.bind_eq_some_iff.1 h
  obtain ⟨x, rfl, rfl⟩ := Numeral.exists_of_parse? hTimestamp
  obtain ⟨y, rfl, rfl⟩ := Numeral.exists_of_parse? hCounter
  obtain ⟨z, rfl, rfl⟩ := Numeral.exists_of_parse? hCluster
  exact ⟨⟨x, y, z⟩, rfl, Option.some.inj h⟩

theorem withoutLineEnd_concat (l : List Char) : withoutLineEnd (l ++ ['\n']) = l := by
  simp [withoutLineEnd]

theorem eq_or_eq_concat_of_withoutLineEnd (l : List Char) :
    l = withoutLineEnd l ∨ l = withoutLineEnd l ++ ['\n'] := by
  rw [withoutLineEnd]
  split
  · rename_i hlast
    rw [beq_iff_eq] at hlast
    exact .inr (List.dropLast_append_getLast? _ hlast).symm
  · exact .inl rfl

/-- A text is read as a revision just if it spells it, up to one line end at its end. -/
theorem ofText?_eq_some_iff {s : String} {r : Revision} :
    ofText? s = some r ↔ ∃ x : Spelling, (s = x.text ∨ s = x.text ++ "\n") ∧ x.revision = r := by
  constructor
  · intro h
    obtain ⟨⟨a, b, c⟩, hfields, hnumerals⟩ := Option.bind_eq_some_iff.1 h
    obtain ⟨x, hx, hr⟩ := exists_of_ofNumerals? hnumerals
    rw [← eq_of_fields? hfields] at hx
    refine ⟨x, ?_, hr⟩
    rw [← String.toList_inj, ← String.toList_inj, String.toList_append, Spelling.text,
      String.toList_ofList, hx]
    exact eq_or_eq_concat_of_withoutLineEnd s.toList
  · rintro ⟨x, rfl | rfl, rfl⟩
    · rw [ofText?, Spelling.text, String.toList_ofList, withoutLineEnd_of_not_mem x.lineEnd_not_mem]
      exact x.ofNumerals?_fields
    · have hline : (x.text ++ "\n").toList = x.characters ++ ['\n'] := by
        rw [String.toList_append, Spelling.text, String.toList_ofList]
        rfl
      rw [ofText?, hline, withoutLineEnd_concat]
      exact x.ofNumerals?_fields

/-- A text names a revision just if it spells one, up to one line end at its end; the fields are
the values of the numerals, and the text of the revision is the spelling without superfluous zeros.
Every other text is malformed. -/
theorem ofText_follows_grammar (s : String) :
    (∀ r, ofText s = .ok r ↔
      ∃ x : Spelling, (s = x.text ∨ s = x.text ++ "\n") ∧ x.revision = r) ∧
    (∀ x : Spelling, x.revision.text = x.reduced.text) ∧
    (ofText s = .error (.malformed s) ↔
      ¬ ∃ x : Spelling, s = x.text ∨ s = x.text ++ "\n") := by
  refine ⟨fun r => ?_, Spelling.text_revision, ?_⟩
  · rw [← ofText?_eq_some_iff, ofText]
    cases ofText? s <;> simp
  · rw [ofText]
    cases hread : ofText? s with
    | none =>
      refine iff_of_true rfl ?_
      rintro ⟨x, hx⟩
      rw [ofText?_eq_some_iff.2 ⟨x, hx, rfl⟩] at hread
      cases hread
    | some r =>
      obtain ⟨x, hx, _⟩ := ofText?_eq_some_iff.1 hread
      exact iff_of_false (fun h => by cases h) fun h => h ⟨x, hx⟩

/-- A line end behind a spelling, which is no part of it, is read over. -/
theorem ofText_accepts_line_end :
    ofText "r1-0-1\n" = .ok ⟨1, 0, 1⟩ ∧ ¬ ∃ x : Spelling, "r1-0-1\n" = x.text := by
  refine ⟨by decide, ?_⟩
  rintro ⟨x, hx⟩
  have hmem : '\n' ∈ x.characters := by
    rw [← String.toList_ofList (l := x.characters), ← Spelling.text, ← hx]
    decide
  exact x.lineEnd_not_mem hmem

end Revision

end VersionedTree
