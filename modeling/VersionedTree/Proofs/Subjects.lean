import VersionedTree.Failure
import VersionedTree.Proofs.DocumentIds

/-! # What an id says of its document

A document is kept for the node at a path, or for what was split off the history of a node at a
revision and a height. Its id tells which of these it is. The id of a previous document is read
from its end: neither a height nor the text of a revision holds a slash, and what stands before
them is the path. The id of a main document is read from its colon.
-/

namespace VersionedTree

namespace Path

theorem trimmed_ofNames {ns : List String} (hns : ∀ n ∈ ns, IsName n) :
    trimmed (ofNames ns) = body ns := by
  rcases List.eq_nil_or_concat ns with rfl | ⟨init, n, rfl⟩
  · rfl
  · rw [List.concat_eq_append] at hns ⊢
    rw [ofNames_of_ne_nil (by simp)]
    exact trimmed_ofList_body (hns n (by simp))

theorem ofNames_eq_of_body {ns ms : List String} (h : body ns = body ms) :
    ofNames ns = ofNames ms := by
  have hempty (ns : List String) : ns.isEmpty = (body ns).isEmpty := by cases ns <;> rfl
  rw [ofNames, ofNames, hempty ns, hempty ms, h]

theorem eq_of_trimmed {p q : String} (hp : IsNormal p) (hq : IsNormal q)
    (h : trimmed p = trimmed q) : p = q := by
  obtain ⟨ns, hns, rfl⟩ := hp
  obtain ⟨ms, hms, rfl⟩ := hq
  rw [trimmed_ofNames hns, trimmed_ofNames hms] at h
  exact ofNames_eq_of_body h

end Path

namespace DocumentId

theorem previous_inj {p q : String} {r s : Revision} {i j : Int} (hp : Path.IsNormal p)
    (hq : Path.IsNormal q) (h : previous p r i = previous q s j) : p = q ∧ r = s ∧ i = j := by
  have hbody : body? (previous p r i) = body? (previous q s j) := congrArg body? h
  rw [body?_of_toList (toList_previous p r i), body?_of_toList (toList_previous q s j)] at hbody
  have hrest := (List.cons.inj (Option.some.inj hbody)).2
  obtain ⟨hbefore, hheight⟩ :=
    Path.eq_of_append_slash (Decimal.slash_not_mem_toString i) (Decimal.slash_not_mem_toString j)
      hrest
  obtain ⟨hpath, hrevision⟩ :=
    Path.eq_of_append_slash r.slash_not_mem_text s.slash_not_mem_text hbefore
  exact ⟨Path.eq_of_trimmed hp hq hpath, Revision.text_inj (String.toList_injective hrevision),
    Decimal.eq_of_toString_eq (String.toList_injective hheight)⟩

theorem isHashed_previous (p : String) (r : Revision) (height : Int) :
    isHashed (previous p r height) = false := by
  rw [isHashed, marker?_previous]
  rfl

/-- What a document is kept for. -/
inductive Subject where
  | node (path : String)
  /-- What was split off the history of a node. -/
  | history (path : String) (revision : Revision) (height : Int)
  deriving DecidableEq

namespace Subject

def path : Subject → String
  | node path | history path _ _ => path

def id : Subject → String
  | node path => ofPath path
  | history path revision height => previous path revision height

/-- Where both ids hold a digest, the digests of different parents differ. -/
def Apart : Subject → Subject → Prop
  | node p, node q => DocumentId.Apart p q
  | node _, history .. | history .., _ => True

theorem id_inj {a b : Subject} (ha : Path.IsNormal a.path) (hb : Path.IsNormal b.path)
    (hapart : a.Apart b) (h : a.id = b.id) : a = b := by
  cases a with
  | node p =>
    cases b with
    | node q => exact congrArg node (ofPath_inj ha hb hapart h)
    | history q s j =>
      exact absurd h.symm (previous_ne_ofPath (Path.isAbsolute_of_isNormal ha) s j)
  | history p r i =>
    cases b with
    | node q => exact absurd h (previous_ne_ofPath (Path.isAbsolute_of_isNormal hb) r i)
    | history q s j =>
      obtain ⟨rfl, rfl, rfl⟩ := previous_inj ha hb h
      rfl

/-- Different documents have different ids. An id alone tells a previous document, and the main
document of a path of more than 165 characters; from the id of any other main document the path is
read back, from that one it is not. -/
theorem id_unambiguous {a b : Subject} (ha : Path.IsNormal a.path) (hb : Path.IsNormal b.path)
    (hapart : a.Apart b) :
    (a.id = b.id ↔ a = b) ∧
    (isPrevious a.id = true ↔ ∃ p r height, a = history p r height) ∧
    (isHashed a.id = true ↔ ∃ p, a = node p ∧ 165 < p.length) ∧
    ∀ p, a = node p →
      (p.length ≤ 165 → DocumentId.path a.id = .ok p) ∧
      (165 < p.length → ∃ e, DocumentId.path a.id = .error e ∧
        (Failure.documentId e).kind = .value) := by
  refine ⟨⟨id_inj ha hb hapart, congrArg id⟩, ?_⟩
  cases a with
  | history p r height =>
    refine ⟨⟨fun _ => ⟨p, r, height, rfl⟩, fun _ => isPrevious_previous p r height⟩, ?_, ?_⟩
    · rw [id, isHashed_previous]
      constructor
      · intro h
        cases h
      · rintro ⟨_, h, _⟩
        cases h
    · rintro _ ⟨⟩
  | node p =>
    have habsolute : Path.isAbsolute p = true := Path.isAbsolute_of_isNormal ha
    have hlong : Path.isLong p = true ↔ 165 < p.length := decide_eq_true_iff
    refine ⟨?_, ?_, ?_⟩
    · rw [id, isPrevious_ofPath habsolute]
      constructor
      · intro h
        cases h
      · rintro ⟨_, _, _, h⟩
        cases h
    · rw [id, isHashed_ofPath habsolute, hlong]
      constructor
      · exact fun h => ⟨p, rfl, h⟩
      · rintro ⟨_, ⟨⟩, h⟩
        exact h
    · rintro _ ⟨⟩
      refine ⟨fun h => path_ofPath habsolute ?_, fun h => ⟨.hashed (ofPath p), ?_, rfl⟩⟩
      · simpa using hlong.not.2 (Nat.not_lt.2 h)
      · rw [id, DocumentId.path, isHashed_ofPath habsolute, hlong.2 h]
        rfl

/-- A path whose last names are the text of a revision and a number, beside what was split off at
that revision and number. -/
theorem id_unambiguous_of_revision_names :
    (history "/p" ⟨5, 0, 1⟩ (-1)).id ≠ (node "/p/r5-0-1/-1").id ∧
    isPrevious (history "/p" ⟨5, 0, 1⟩ (-1)).id = true ∧
    DocumentId.path (node "/p/r5-0-1/-1").id = .ok "/p/r5-0-1/-1" := by
  have hshort : Path.IsNormal "/p" := by decide
  have hdeep : Path.IsNormal "/p/r5-0-1/-1" := by decide
  have hhistory := id_unambiguous (a := history "/p" ⟨5, 0, 1⟩ (-1)) (b := node "/p/r5-0-1/-1")
    hshort hdeep trivial
  have hnode := id_unambiguous (a := node "/p/r5-0-1/-1") (b := history "/p" ⟨5, 0, 1⟩ (-1))
    hdeep hshort trivial
  refine ⟨fun h => ?_, hhistory.2.1.2 ⟨_, _, _, rfl⟩, (hnode.2.2.2 _ rfl).1 (by decide)⟩
  cases hhistory.1.1 h

end Subject

end DocumentId

end VersionedTree
