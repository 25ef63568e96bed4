import VersionedTree.Revision
import Mathlib.Tactic.IntervalCases

/-! # Numerals are read back

Different numbers have different numerals, and a numeral holds digits only. A hexadecimal one is
read digit by digit, as it was written from the other end. The text of a revision is its three
numerals between characters that are no digits, so that it is read back to the same revision and
holds no slash.
-/

namespace VersionedTree

namespace Decimal

theorem not_mem_toDigits {c : Char} (h : c.isDigit = false) (n : Nat) :
    c ∉ Nat.toDigits 10 n := by
  intro hc
  have digit := Nat.isDigit_of_mem_toDigits (by decide) (by decide) hc
  rw [h] at digit
  cases digit

theorem eq_of_toDigits_eq {n m : Nat} (h : Nat.toDigits 10 n = Nat.toDigits 10 m) : n = m := by
  have hread := congrArg (Nat.ofDigitChars 10 · 0) h
  simpa only [Nat.ofDigitChars_toDigits (by decide : 1 < 10) (by decide : 10 ≤ 10)] using hread

theorem toList_of_nonneg {i : Int} (h : 0 ≤ i) :
    (toString i).toList = Nat.toDigits 10 i.toNat := by
  rw [Int.toString_eq_repr, Int.repr_eq_if, if_pos h]
  exact String.toList_ofList

theorem toList_of_negative {i : Int} (h : ¬ 0 ≤ i) :
    (toString i).toList = '-' :: Nat.toDigits 10 (-i).toNat := by
  rw [Int.toString_eq_repr, Int.repr_eq_if, if_neg h]
  simp

theorem eq_of_toString_eq {i j : Int} (h : toString i = toString j) : i = j := by
  have hlist := congrArg String.toList h
  have hdash (n : Nat) : '-' ∉ Nat.toDigits 10 n := not_mem_toDigits (by decide) n
  by_cases hi : 0 ≤ i
  · rw [toList_of_nonneg hi] at hlist
    by_cases hj : 0 ≤ j
    · rw [toList_of_nonneg hj] at hlist
      have := eq_of_toDigits_eq hlist
      omega
    · rw [toList_of_negative hj] at hlist
      exact absurd (hlist ▸ List.mem_cons_self) (hdash _)
  · rw [toList_of_negative hi] at hlist
    by_cases hj : 0 ≤ j
    · rw [toList_of_nonneg hj] at hlist
      exact absurd (hlist ▸ List.mem_cons_self) (hdash _)
    · rw [toList_of_negative hj] at hlist
      have := eq_of_toDigits_eq (List.cons.inj hlist).2
      omega

theorem slash_not_mem_toString (i : Int) : '/' ∉ (toString i).toList := by
  have hdigits (n : Nat) : '/' ∉ Nat.toDigits 10 n := not_mem_toDigits (by decide) n
  by_cases hi : 0 ≤ i
  · rw [toList_of_nonneg hi]
    exact hdigits _
  · rw [toList_of_negative hi]
    simpa using hdigits _

end Decimal

namespace Hexadecimal

theorem digit?_digitChar {d : Nat} (h : d < 16) : digit? d.digitChar = some d := by
  interval_cases d <;> rfl

theorem parseFrom_concat (value : Nat) (l : List Char) (c : Char) :
    parseFrom value (l ++ [c]) =
      (parseFrom value l).bind fun v => (digit? c).map fun d => 16 * v + d := by
  induction l generalizing value with
  | nil =>
    simp only [List.nil_append, parseFrom, Option.bind_some]
    cases digit? c <;> rfl
  | cons a l ih =>
    rw [List.cons_append, parseFrom, parseFrom]
    cases digit? a with
    | none => rfl
    | some d => exact ih _

theorem parseFrom_toDigits (n : Nat) : parseFrom 0 (Nat.toDigits 16 n) = some n := by
  induction n using Nat.strongRecOn with
  | ind n ih =>
    by_cases h : n < 16
    · rw [Nat.toDigits_of_lt_base h, parseFrom, digit?_digitChar h]
      simp [parseFrom]
    · have hrest : n / 16 < n := Nat.div_lt_self (by omega) (by decide)
      rw [Nat.toDigits_of_base_le (by decide) (Nat.not_lt.1 h), parseFrom_concat, ih _ hrest,
        digit?_digitChar (Nat.mod_lt n (by decide))]
      exact congrArg some (Nat.div_add_mod n 16)

theorem parse?_toDigits (n : Nat) : parse? (Nat.toDigits 16 n) = some n := by
  have hne : (Nat.toDigits 16 n).isEmpty = false := by simp
  rw [parse?, hne]
  exact parseFrom_toDigits n

theorem digit?_of_parseFrom {value n : Nat} {l : List Char} (h : parseFrom value l = some n) :
    ∀ c ∈ l, digit? c ≠ none := by
  induction l generalizing value with
  | nil =>
    intro c hc
    cases hc
  | cons a l ih =>
    obtain ⟨d, hd, hrest⟩ := Option.bind_eq_some_iff.1 h
    intro c hc
    rcases List.mem_cons.1 hc with rfl | hc
    · simp [hd]
    · exact ih hrest c hc

theorem not_mem_toDigits {c : Char} (h : digit? c = none) (n : Nat) : c ∉ Nat.toDigits 16 n :=
  fun hc => digit?_of_parseFrom (parseFrom_toDigits n) c hc h

end Hexadecimal

namespace Revision

theorem toList_text (r : Revision) :
    r.text.toList = 'r' :: (Nat.toDigits 16 r.timestamp ++ '-' ::
      (Nat.toDigits 16 r.counter ++ '-' :: Nat.toDigits 16 r.cluster)) := by
  simp [text, Hexadecimal.format]

theorem not_mem_text {c : Char} (hdigit : Hexadecimal.digit? c = none) (hr : c ≠ 'r')
    (hdash : c ≠ '-') (r : Revision) : c ∉ r.text.toList := by
  have hdigits (n : Nat) : c ∉ Nat.toDigits 16 n := Hexadecimal.not_mem_toDigits hdigit n
  simp [toList_text, hdigits, hr, hdash]

theorem withoutLineEnd_of_not_mem {l : List Char} (h : '\n' ∉ l) : withoutLineEnd l = l := by
  rw [withoutLineEnd, if_neg]
  rw [beq_iff_eq]
  exact fun hlast => h (List.mem_of_getLast? hlast)

/-- Numerals that hold no dash are found between the dashes that join them. -/
theorem fields?_join {a b c : List Char} (ha : '-' ∉ a) (hb : '-' ∉ b) (hc : '-' ∉ c) :
    fields? ('r' :: (a ++ '-' :: (b ++ '-' :: c))) = some (a, b, c) := by
  rw [fields?, List.splitOn_append_cons_self_of_not_mem ha,
    List.splitOn_append_cons_self_of_not_mem hb, List.splitOn_eq_singleton hc]

theorem fields?_text (r : Revision) :
    fields? r.text.toList = some
      (Nat.toDigits 16 r.timestamp, Nat.toDigits 16 r.counter, Nat.toDigits 16 r.cluster) := by
  have hdash (n : Nat) : '-' ∉ Nat.toDigits 16 n := Hexadecimal.not_mem_toDigits (by decide) n
  rw [toList_text, fields?_join (hdash _) (hdash _) (hdash _)]

/-- The text of a revision names it. -/
theorem ofText?_text (r : Revision) : ofText? r.text = some r := by
  have hline : '\n' ∉ r.text.toList := r.not_mem_text (by decide) (by decide) (by decide)
  rw [ofText?, withoutLineEnd_of_not_mem hline, fields?_text, Option.bind_some]
  simp only [ofNumerals?, Hexadecimal.parse?_toDigits]
  rfl

theorem ofText_text (r : Revision) : ofText r.text = .ok r := by
  rw [ofText, ofText?_text]

theorem text_inj {r s : Revision} (h : r.text = s.text) : r = s := by
  have hread : ofText? r.text = ofText? s.text := congrArg ofText? h
  rw [ofText?_text, ofText?_text] at hread
  exact Option.some.inj hread

theorem slash_not_mem_text (r : Revision) : '/' ∉ r.text.toList :=
  r.not_mem_text (by decide) (by decide) (by decide)

end Revision

end VersionedTree
