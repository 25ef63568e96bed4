import VersionedTree.DocumentId
import VersionedTree.Proofs.Names
import VersionedTree.Proofs.Numerals

/-! # Kinds of document ids

The decimal depth in front of an id holds no colon, so what follows the first colon is what was
put there. Ids of main documents of absolute paths therefore never look like those of previous
documents, and the path of one that is not long can be read off. The id of a long path tells the
digest of its parent and its name; so normalized paths have different ids unless their parents'
digests collide.
-/

namespace VersionedTree.DocumentId

variable {p : String}

theorem colon_not_mem_digits (n : Nat) : ':' ∉ Nat.toDigits 10 n :=
  Decimal.not_mem_toDigits (by decide) n

theorem body?_of_toList {id : String} {n : Nat} {rest : List Char}
    (h : id.toList = Nat.toDigits 10 n ++ ':' :: rest) : body? id = some rest := by
  have hdrop : (Nat.toDigits 10 n ++ ':' :: rest).dropWhile (· != ':') = ':' :: rest := by
    rw [List.dropWhile_append_of_pos]
    · simp
    · intro c hc
      simp only [bne_iff_ne]
      rintro rfl
      exact colon_not_mem_digits n hc
  rw [body?, h, hdrop]

theorem head?_of_toList {id : String} {n : Nat} {rest : List Char}
    (h : id.toList = Nat.toDigits 10 n ++ ':' :: rest) : id.toList.head? ≠ some ':' := by
  intro hhead
  cases hd : Nat.toDigits 10 n with
  | nil => exact Nat.toDigits_ne_nil hd
  | cons c cs =>
    rw [h, hd] at hhead
    cases hhead
    exact colon_not_mem_digits n (hd ▸ List.mem_cons_self)

theorem toList_ofPath (p : String) :
    (ofPath p).toList = Nat.toDigits 10 (Path.depth p) ++ ':' ::
      if Path.isLong p then
        'h' :: (Sha256.hexDigest (Path.parent p)).toList ++ '/' :: (Path.name p).toList
      else p.toList := by
  rw [ofPath]
  split <;> simp

theorem toList_previous (p : String) (r : Revision) (height : Int) :
    (previous p r height).toList = Nat.toDigits 10 (Path.depth p + 2) ++ ':' :: 'p' ::
      (Path.trimmed p ++ '/' :: r.text.toList ++ '/' :: (toString height).toList) := by
  simp [previous]

theorem head?_of_isAbsolute (h : Path.isAbsolute p = true) : p.toList.head? = some '/' := by
  simpa [Path.isAbsolute] using h

theorem marker?_ofPath (h : Path.isAbsolute p = true) :
    marker? (ofPath p) = some (if Path.isLong p then 'h' else '/') := by
  rw [marker?, body?_of_toList (toList_ofPath p)]
  split
  · rfl
  · exact head?_of_isAbsolute h

theorem marker?_previous (p : String) (r : Revision) (height : Int) :
    marker? (previous p r height) = some 'p' := by
  rw [marker?, body?_of_toList (toList_previous p r height)]
  rfl

theorem isHashed_ofPath (h : Path.isAbsolute p = true) :
    isHashed (ofPath p) = Path.isLong p := by
  rw [isHashed, marker?_ofPath h]
  cases Path.isLong p <;> rfl

theorem isPrevious_ofPath (h : Path.isAbsolute p = true) : isPrevious (ofPath p) = false := by
  rw [isPrevious, marker?_ofPath h]
  cases Path.isLong p <;> simp

theorem path_ofPath (h : Path.isAbsolute p = true) (hp : Path.isLong p = false) :
    path (ofPath p) = .ok p := by
  have hbody : body? (ofPath p) = some p.toList := by
    rw [body?_of_toList (toList_ofPath p), hp]
    rfl
  rw [path, isHashed_ofPath h, hp, hbody]
  simp

theorem isPrevious_previous (p : String) (r : Revision) (height : Int) :
    isPrevious (previous p r height) = true := by
  rw [isPrevious, marker?_previous]
  simpa using head?_of_toList (toList_previous p r height)

theorem previous_ne_ofPath {q : String} (h : Path.isAbsolute p = true) (r : Revision)
    (height : Int) : previous q r height ≠ ofPath p := by
  intro heq
  have hprev := isPrevious_previous q r height
  rw [heq, isPrevious_ofPath h] at hprev
  cases hprev

/-! ## Different ids -/

/-- The digests of the parents of two long paths do not collide. -/
def Apart (p q : String) : Prop :=
  Path.isLong p = true → Path.isLong q = true →
    Sha256.hexDigest (Path.parent p) = Sha256.hexDigest (Path.parent q) →
    Path.parent p = Path.parent q

instance (p q : String) : Decidable (Apart p q) := inferInstanceAs (Decidable (_ → _ → _ → _))

theorem slash_not_mem_name {p : String} (h : Path.IsNormal p) : '/' ∉ (Path.name p).toList := by
  obtain ⟨ns, hns, rfl⟩ := h
  rw [Path.name_ofNames hns]
  rcases List.eq_nil_or_concat ns with rfl | ⟨ns, n, rfl⟩
  · decide
  · have hn : Path.IsName n := hns n (by simp)
    simpa using hn.2

theorem ofPath_inj {q : String} (hp : Path.IsNormal p) (hq : Path.IsNormal q) (hapart : Apart p q)
    (h : ofPath p = ofPath q) : p = q := by
  have hbody : body? (ofPath p) = body? (ofPath q) := congrArg body? h
  rw [body?_of_toList (toList_ofPath p), body?_of_toList (toList_ofPath q)] at hbody
  have hmarker : marker? (ofPath p) = marker? (ofPath q) := congrArg marker? h
  rw [marker?_ofPath (Path.isAbsolute_of_isNormal hp),
    marker?_ofPath (Path.isAbsolute_of_isNormal hq)] at hmarker
  cases hlp : Path.isLong p with
  | false =>
    cases hlq : Path.isLong q with
    | false =>
      simp only [hlp, hlq, Bool.false_eq_true, if_false, Option.some.injEq] at hbody
      exact String.toList_injective hbody
    | true => simp [hlp, hlq] at hmarker
  | true =>
    cases hlq : Path.isLong q with
    | false => simp [hlp, hlq] at hmarker
    | true =>
      simp only [hlp, hlq, if_true, Option.some.injEq] at hbody
      obtain ⟨hdigest, hname⟩ :=
        Path.eq_of_append_slash (slash_not_mem_name hp) (slash_not_mem_name hq) hbody
      have hroot {x : String} (hx : Path.isLong x = true) : x ≠ Path.root := by
        rintro rfl
        exact absurd hx (by decide)
      exact Path.eq_of_parent_of_name hp hq (hroot hlp) (hroot hlq)
        (hapart hlp hlq (String.toList_injective (List.cons.inj hdigest).2)) (String.toList_injective hname)

end VersionedTree.DocumentId
