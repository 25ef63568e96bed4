import VersionedTree.Proofs.Subtrees
import Mathlib.Logic.Function.Iterate

/-! # Names, parents and ancestors

Joining paths, taking a parent and comparing paths each work on the text, in a way of their own.
They agree on one reading. A normalized path is the list of its names: a join puts names behind
names, the parent drops the last name, and the ancestors of a path are those whose names it begins
with, which are the paths that going from parent to parent comes by.
-/

namespace VersionedTree.Path

variable {ns : List String} {a p : String}

/-- The names of any two texts that are joined follow one another. -/
theorem names_join (p r : String) : names (join p r) = names p ++ names r := by
  have hempty : names "" = [] := by decide
  cases hr : r.isEmpty with
  | true => rw [join, hr, if_pos rfl, String.isEmpty_iff.1 hr, hempty, List.append_nil]
  | false =>
    rw [join_of_not_isEmpty hr]
    split
    · -- The slash at the end of the first text parts the names.
      rename_i hlast
      obtain ⟨front, hfront⟩ := List.getLast?_eq_some_iff.1 (beq_iff_eq.1 hlast)
      have hp : names p = names (String.ofList front) ++ names "" :=
        names_of_slash (by simpa using hfront)
      have hnames : names (p ++ r) = names (String.ofList front) ++ names r :=
        names_of_slash (by simp [hfront])
      rw [hnames, hp, hempty, List.append_nil]
    · exact names_of_slash (by simp)

theorem eq_of_names (ha : IsNormal a) (hp : IsNormal p) (h : names a = names p) : a = p := by
  rw [(isNormal_iff.1 ha).2, h, ← (isNormal_iff.1 hp).2]

/-! ## Parents -/

theorem isName_take (hns : ∀ n ∈ ns, IsName n) (k : Nat) : ∀ n ∈ ns.take k, IsName n :=
  fun n hn => hns n (List.mem_of_mem_take hn)

theorem depth_ofNames (hns : ∀ n ∈ ns, IsName n) : depth (ofNames ns) = ns.length :=
  congrArg List.length (names_ofNames hns)

theorem parent_eq_dropLast (hns : ∀ n ∈ ns, IsName n) :
    parent (ofNames ns) = ofNames ns.dropLast := by
  rcases List.eq_nil_or_concat ns with rfl | ⟨init, n, rfl⟩
  · rfl
  · rw [List.concat_eq_append] at hns ⊢
    rw [parent_ofNames (hns n (by simp)), List.dropLast_concat]

theorem depth_parent (hp : IsNormal p) (hroot : p ≠ root) : depth (parent p) + 1 = depth p := by
  obtain ⟨ns, hns, rfl⟩ := hp
  rcases List.eq_nil_or_concat ns with rfl | ⟨init, n, rfl⟩
  · exact absurd ofNames_nil hroot
  · rw [List.concat_eq_append] at hns ⊢
    obtain ⟨hinit, hn⟩ := List.forall_mem_append.1 hns
    rw [parent_ofNames (List.forall_mem_singleton.1 hn), depth_ofNames hinit, depth_ofNames hns,
      List.length_append, List.length_singleton]

/-- Each step to a parent takes the last name away, until none is left. -/
theorem iterate_parent (hns : ∀ n ∈ ns, IsName n) (k : Nat) :
    parent^[k] (ofNames ns) = ofNames (ns.take (ns.length - k)) := by
  induction k with
  | zero => rw [Function.iterate_zero_apply, Nat.sub_zero, List.take_length]
  | succ k ih =>
    have hlength : min (min (ns.length - k) ns.length - 1) (ns.length - k) =
        ns.length - (k + 1) := by omega
    rw [Function.iterate_succ_apply', ih, parent_eq_dropLast (isName_take hns _),
      List.dropLast_eq_take, List.take_take, List.length_take, hlength]

/-! ## Ancestors -/

theorem isAncestor_iff_isPrefix (ha : IsNormal a) (hp : IsNormal p) :
    isAncestor a p = true ↔ names a <+: names p ∧ names a ≠ names p := by
  rw [isAncestor_iff (isAbsolute_of_isNormal ha) hp]
  constructor
  · rintro ⟨-, hfront, hne⟩
    exact ⟨hfront, fun h => hne (eq_of_names ha hp h)⟩
  · rintro ⟨hfront, hne⟩
    exact ⟨ha, hfront, fun h => hne (congrArg names h)⟩

theorem isStrictOrder_isAncestor :
    IsStrictOrder {p // IsNormal p} fun a p => isAncestor a p = true where
  irrefl a h := ((isAncestor_iff_isPrefix a.2 a.2).1 h).2 rfl
  trans a b c hab hbc := by
    rw [isAncestor_iff_isPrefix a.2 b.2] at hab
    rw [isAncestor_iff_isPrefix b.2 c.2] at hbc
    rw [isAncestor_iff_isPrefix a.2 c.2]
    refine ⟨hab.1.trans hbc.1, fun h => hbc.2 ?_⟩
    -- The names in the middle are at most as many as those on the right, and those at least as
    -- many as those in the middle.
    exact hbc.1.eq_of_length (Nat.le_antisymm hbc.1.length_le (h ▸ hab.1.length_le))

/-- The ancestors of a path are what one comes by from parent to parent. -/
theorem isAncestor_iff_iterate_parent (hp : IsNormal p) :
    IsNormal a ∧ isAncestor a p = true ↔
      ∃ k, 0 < k ∧ k ≤ depth p ∧ parent^[k] p = a := by
  obtain ⟨ns, hns, rfl⟩ := hp
  rw [depth_ofNames hns]
  constructor
  · rintro ⟨ha, h⟩
    obtain ⟨hfront, hne⟩ := (isAncestor_iff_isPrefix ha ⟨ns, hns, rfl⟩).1 h
    rw [names_ofNames hns] at hfront hne
    have hlt : (names a).length < ns.length :=
      Nat.lt_of_le_of_ne hfront.length_le fun hlength => hne (hfront.eq_of_length hlength)
    refine ⟨ns.length - (names a).length, Nat.sub_pos_of_lt hlt, Nat.sub_le _ _, ?_⟩
    rw [iterate_parent hns, Nat.sub_sub_self (Nat.le_of_lt hlt),
      ← List.prefix_iff_eq_take.1 hfront]
    exact (isNormal_iff.1 ha).2.symm
  · rintro ⟨k, hpos, hk, rfl⟩
    rw [iterate_parent hns]
    have hnormal : IsNormal (ofNames (ns.take (ns.length - k))) := ⟨_, isName_take hns _, rfl⟩
    refine ⟨hnormal, (isAncestor_iff_isPrefix hnormal ⟨ns, hns, rfl⟩).2 ?_⟩
    rw [names_ofNames (isName_take hns _), names_ofNames hns]
    refine ⟨List.take_prefix _ _, fun h => ?_⟩
    have hlength := congrArg List.length h
    rw [List.length_take] at hlength
    omega

theorem iterate_parent_eq_root_iff (hp : IsNormal p) (k : Nat) :
    parent^[k] p = root ↔ depth p ≤ k := by
  obtain ⟨ns, hns, rfl⟩ := hp
  rw [iterate_parent hns, depth_ofNames hns]
  constructor
  · intro h
    have hnil : ns.take (ns.length - k) = [] :=
      ofNames_inj (isName_take hns _) (List.forall_mem_nil _) (h.trans ofNames_nil.symm)
    have hlength := congrArg List.length hnil
    rw [List.length_take, List.length_nil] at hlength
    omega
  · intro h
    rw [Nat.sub_eq_zero_of_le h, List.take_zero, ofNames_nil]

/-- Any two texts are joined by their names. A normalized path other than the root is joined of its
parent, which has one name less, and its own name. Another normalized path is an ancestor of it
just if its names are some of the path's first ones, but not all; this orders the paths. From
parent to parent one gets to the root in as many steps as the path is deep, no earlier, by way of
all of its ancestors and of nothing else. -/
theorem ordered_by_names :
    (∀ p r, names (join p r) = names p ++ names r) ∧
    (∀ p, IsNormal p → p ≠ root → join (parent p) (name p) = p ∧ depth (parent p) + 1 = depth p) ∧
    (∀ a p, IsNormal a → IsNormal p →
      (isAncestor a p = true ↔ names a <+: names p ∧ names a ≠ names p)) ∧
    IsStrictOrder {p // IsNormal p} (fun a p => isAncestor a p = true) ∧
    ∀ p, IsNormal p → (∀ k, parent^[k] p = root ↔ depth p ≤ k) ∧
      ∀ a, IsNormal a ∧ isAncestor a p = true ↔
        ∃ k, 0 < k ∧ k ≤ depth p ∧ parent^[k] p = a :=
  ⟨names_join, fun _ hp hroot => ⟨join_parent_name hp hroot, depth_parent hp hroot⟩,
    fun _ _ => isAncestor_iff_isPrefix, isStrictOrder_isAncestor, fun _ hp =>
      ⟨iterate_parent_eq_root_iff hp, fun _ => isAncestor_iff_iterate_parent hp⟩⟩

/-- One path whose text begins with that of another, but not with its names, and one that is two
steps above it. -/
theorem ordered_by_names_of_three :
    IsNormal "/ab/c/d" ∧ "/ab/c/d" ≠ root ∧ IsNormal "/ab" ∧ IsNormal "/a" ∧
      join (parent "/ab/c/d") (name "/ab/c/d") = "/ab/c/d" ∧
      isAncestor "/ab" "/ab/c/d" = true ∧ isAncestor "/a" "/ab/c/d" = false ∧
      parent^[2] "/ab/c/d" = "/ab" ∧ parent^[3] "/ab/c/d" = root := by
  obtain ⟨-, hjoin, hancestor, -, hparents⟩ := ordered_by_names
  have hp : IsNormal "/ab/c/d" := by decide
  have hab : IsNormal "/ab" := by decide
  have ha : IsNormal "/a" := by decide
  have hbeside : ¬ isAncestor "/a" "/ab/c/d" = true :=
    fun h => absurd ((hancestor _ _ ha hp).1 h) (by decide)
  obtain ⟨hroot, hvisited⟩ := hparents _ hp
  have htwo : parent^[2] "/ab/c/d" = "/ab" := by decide
  have habove : isAncestor "/ab" "/ab/c/d" = true :=
    ((hvisited "/ab").2 ⟨2, by decide, by decide, htwo⟩).2
  exact ⟨hp, by decide, hab, ha, (hjoin _ hp (by decide)).1, habove, Bool.eq_false_iff.2 hbeside,
    htwo, (hroot 3).2 (by decide)⟩

end VersionedTree.Path
