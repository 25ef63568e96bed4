import VersionedTree.Proofs.Names
import VersionedTree.Settings

/-! # What hidden roots hide

Paths are compared by their texts. For a normalized path and an absolute root that comes to a
comparison of names: the root hides the paths whose names begin with its own, provided that it is
normalized itself. A root that is spelled otherwise, with a slash at its end or with two slashes in
a row, is let through by the settings and hides nothing.
-/

namespace VersionedTree

namespace Path

variable {ns : List String} {top path : String}

/-! ## Names that begin with a colon -/

/-- Some name of the path begins with a colon. -/
def HasHiddenName (path : String) : Prop := ∃ n ∈ names path, n.toList.head? = some ':'

instance (path : String) : Decidable (HasHiddenName path) :=
  inferInstanceAs (Decidable (∃ n ∈ names path, n.toList.head? = some ':'))

theorem hasColonName_slash (l : List Char) :
    hasColonName ('/' :: l) = true ↔ l.head? = some ':' ∨ hasColonName l = true := by
  cases l with
  | nil => simp [hasColonName]
  | cons c l =>
    by_cases hc : c = ':'
    · simp [hasColonName, hc]
    · simp [hasColonName, hc]

theorem hasColonName_append {n : List Char} (hn : '/' ∉ n) (l : List Char) :
    hasColonName (n ++ l) = hasColonName l := by
  induction n with
  | nil => rfl
  | cons c n ih =>
    obtain ⟨hc, hn⟩ : '/' ≠ c ∧ '/' ∉ n := by simpa using hn
    rw [List.cons_append, hasColonName, ih hn]
    rintro l rfl
    exact absurd rfl hc

theorem head?_append_of_isName {n : String} (hn : IsName n) (l : List Char) :
    (n.toList ++ l).head? = n.toList.head? := by
  obtain ⟨c, cs, hcs⟩ := List.exists_cons_of_ne_nil (toList_ne_nil hn)
  rw [hcs, List.cons_append, List.head?_cons, List.head?_cons]

theorem hasColonName_body (hns : ∀ n ∈ ns, IsName n) :
    hasColonName (body ns) = true ↔ ∃ n ∈ ns, n.toList.head? = some ':' := by
  induction ns with
  | nil => simp [hasColonName]
  | cons n ns ih =>
    obtain ⟨hn, hns⟩ := List.forall_mem_cons.1 hns
    rw [body_cons, hasColonName_slash, hasColonName_append hn.2, ih hns,
      head?_append_of_isName hn]
    simp only [List.mem_cons, exists_eq_or_imp]

theorem hasColonName_iff (hpath : IsNormal path) :
    hasColonName path.toList = true ↔ HasHiddenName path := by
  obtain ⟨ns, hns, rfl⟩ := hpath
  rw [HasHiddenName, names_ofNames hns]
  rcases eq_or_ne ns [] with rfl | hne
  · simp [ofNames_nil, root, hasColonName]
  · rw [ofNames_of_ne_nil hne, String.toList_ofList, hasColonName_body hns]

/-! ## Texts and names that continue others -/

theorem append_slash_prefix_append_iff {n : List Char} (hn : '/' ∉ n) {x l : List Char} :
    x ++ ['/'] <+: n ++ l ↔ ∃ y, x = n ++ y ∧ y ++ ['/'] <+: l := by
  constructor
  · rintro ⟨t, h⟩
    rw [List.append_assoc, List.singleton_append] at h
    rcases List.append_eq_append_iff.1 h with ⟨y, rfl, hy⟩ | ⟨y, rfl, hy⟩
    · -- The slash behind `x` cannot be one of the characters of `n`.
      cases y with
      | nil =>
        refine ⟨[], by simp, t, ?_⟩
        simpa using hy
      | cons c y =>
        obtain ⟨rfl, -⟩ := List.cons.inj hy
        exact absurd (by simp) hn
    · refine ⟨y, rfl, t, ?_⟩
      rw [List.append_assoc, List.singleton_append, hy]
  · rintro ⟨y, rfl, h⟩
    rw [List.append_assoc]
    exact (List.prefix_append_right_inj n).2 h

/-- What stands in front of a slash in the text of a path is the text of its first names. -/
theorem append_slash_prefix_body_iff (hns : ∀ n ∈ ns, IsName n) {x : List Char} :
    x ++ ['/'] <+: body ns ↔ ∃ ms, ms <+: ns ∧ ms ≠ ns ∧ x = body ms := by
  induction ns generalizing x with
  | nil =>
    rw [body_nil, List.prefix_nil]
    refine ⟨fun h => absurd h (by simp), ?_⟩
    rintro ⟨ms, hms, hne, -⟩
    exact absurd (List.prefix_nil.1 hms) hne
  | cons n ns ih =>
    obtain ⟨hn, hrest⟩ := List.forall_mem_cons.1 hns
    rw [body_cons]
    constructor
    · intro h
      cases x with
      | nil => exact ⟨[], List.nil_prefix, (List.cons_ne_nil n ns).symm, rfl⟩
      | cons c x =>
        obtain ⟨rfl, hx⟩ := List.cons_prefix_cons.1 h
        obtain ⟨y, rfl, hy⟩ := (append_slash_prefix_append_iff hn.2).1 hx
        obtain ⟨ms, hms, hne, rfl⟩ := (ih hrest).1 hy
        exact ⟨n :: ms, List.cons_prefix_cons.2 ⟨rfl, hms⟩, by simpa using hne, rfl⟩
    · rintro ⟨ms, hms, hne, rfl⟩
      cases ms with
      | nil => exact List.cons_prefix_cons.2 ⟨rfl, List.nil_prefix⟩
      | cons m ms =>
        obtain ⟨rfl, hprefix⟩ := List.cons_prefix_cons.1 hms
        have hbody := (ih hrest).2 ⟨ms, hprefix, by simpa using hne, rfl⟩
        exact List.cons_prefix_cons.2 ⟨rfl, (append_slash_prefix_append_iff hn.2).2 ⟨_, rfl, hbody⟩⟩

theorem beginsWith_slash_iff : beginsWith (top ++ "/") path = true ↔
    top.toList ++ ['/'] <+: path.toList := by
  rw [beginsWith, List.isPrefixOf_iff_prefix, toList_name_slash]

theorem eq_root_of_names_eq_nil (h : IsNormal path) (hnames : names path = []) : path = root := by
  rw [(isNormal_iff.1 h).2, hnames, ofNames_nil]

theorem isNormal_root : IsNormal root := by decide

/-- A normalized path continues an absolute text by a slash and more just if the text is that of
some, but not all, of its names from the outermost one on. -/
theorem append_slash_prefix_iff (htop : isAbsolute top = true) (hroot : top ≠ root)
    (hpath : IsNormal path) : top.toList ++ ['/'] <+: path.toList ↔
      IsNormal top ∧ names top <+: names path ∧ top ≠ path := by
  obtain ⟨ns, hns, rfl⟩ := hpath
  have htext : top.toList ≠ [] := by
    intro hnil
    rw [isAbsolute, hnil] at htop
    cases htop
  rw [names_ofNames hns]
  rcases eq_or_ne ns [] with rfl | hne
  · constructor
    · intro h
      have hlength := h.length_le
      simp [ofNames_nil, root] at hlength
      exact absurd (by simp [hlength]) htext
    · rintro ⟨hnormal, hnames, -⟩
      exact absurd (eq_root_of_names_eq_nil hnormal (List.prefix_nil.1 hnames)) hroot
  · rw [ofNames_of_ne_nil hne, String.toList_ofList, append_slash_prefix_body_iff hns]
    constructor
    · rintro ⟨ms, hms, hmn, hbody⟩
      have hmsne : ms ≠ [] := by
        rintro rfl
        exact htext hbody
      have hmnames : ∀ m ∈ ms, IsName m := fun m hm => hns m (hms.subset hm)
      have hofNames : top = ofNames ms := by
        rw [ofNames_of_ne_nil hmsne, ← hbody, String.ofList_toList]
      rw [hofNames, names_ofNames hmnames, ← ofNames_of_ne_nil hne]
      exact ⟨⟨ms, hmnames, rfl⟩, hms, fun heq => hmn (ofNames_inj hmnames hns heq)⟩
    · rintro ⟨⟨ms, hmnames, rfl⟩, hms, hmn⟩
      rw [names_ofNames hmnames] at hms
      have hmsne : ms ≠ [] := by
        rintro rfl
        exact hroot ofNames_nil
      refine ⟨ms, hms, ?_, ?_⟩
      · rintro rfl
        exact hmn (ofNames_of_ne_nil hmsne)
      · rw [ofNames_of_ne_nil hmsne, String.toList_ofList]

theorem isAncestor_iff (htop : isAbsolute top = true) (hpath : IsNormal path) :
    isAncestor top path = true ↔ IsNormal top ∧ names top <+: names path ∧ top ≠ path := by
  rw [isAncestor]
  by_cases heq : top = path
  · simp [heq]
  rw [if_neg (by simpa using heq)]
  by_cases hroot : top = root
  · have hnames : names root = [] := by decide
    rw [if_pos (by simpa using hroot), hroot, hnames]
    rw [hroot] at heq
    simp [isAbsolute_of_isNormal hpath, isNormal_root, heq]
  · rw [if_neg (by simpa using hroot), beginsWith_slash_iff]
    exact append_slash_prefix_iff htop hroot hpath

/-- A root and what lies below it are the paths whose names begin with the root's. -/
theorem beq_or_isAncestor_iff (htop : isAbsolute top = true) (hpath : IsNormal path) :
    (path == top || isAncestor top path) = true ↔
      IsNormal top ∧ names top <+: names path := by
  rw [Bool.or_eq_true, beq_iff_eq, isAncestor_iff htop hpath]
  constructor
  · rintro (rfl | ⟨hnormal, hnames, -⟩)
    · exact ⟨hpath, List.prefix_rfl⟩
    · exact ⟨hnormal, hnames⟩
  · rintro ⟨hnormal, hnames⟩
    by_cases heq : path = top
    · exact .inl heq
    · exact .inr ⟨hnormal, hnames, Ne.symm heq⟩

theorem isHidden_iff {roots : List String} (hroots : ∀ top ∈ roots, isAbsolute top = true)
    (hpath : IsNormal path) : isHidden path roots = true ↔
      HasHiddenName path ∨ ∃ top ∈ roots, IsNormal top ∧ names top <+: names path := by
  rw [isHidden, Bool.or_eq_true, hasColonName_iff hpath, List.any_eq_true]
  have hany : (∃ top ∈ roots, (path == top || isAncestor top path) = true) ↔
      ∃ top ∈ roots, IsNormal top ∧ names top <+: names path :=
    exists_congr fun top => and_congr_right fun htop =>
      beq_or_isAncestor_iff (hroots top htop) hpath
  rw [hany]

theorem HasHiddenName.mono (h : HasHiddenName top) (hnames : names top <+: names path) :
    HasHiddenName path := by
  obtain ⟨n, hn, hcolon⟩ := h
  exact ⟨n, hnames.subset hn, hcolon⟩

end Path

namespace TraversalSettings

variable {σ : Type} {s : TraversalSettings σ}

theorem isAbsolute_of_problems (h : s.problems = .ok []) :
    ∀ top ∈ s.hiddenRoots, Path.isAbsolute top = true := by
  rw [problems] at h
  cases hparts : s.partitions with
  | none =>
    rw [hparts] at h
    cases h
  | some parts =>
    rw [hparts] at h
    have hnone := Except.ok.inj h
    simp only [List.append_eq_nil_iff, List.map_eq_nil_iff, List.filter_eq_nil_iff] at hnone
    obtain ⟨⟨⟨⟨⟨-, hroots⟩, -⟩, -⟩, -⟩, -⟩ := hnone
    exact fun top htop => by simpa using hroots top htop

/-- The hidden roots of settings without problems hide the normalized paths with a name that begins
with a colon, and those whose names begin with the names of a normalized root. That is all that
lies at or below the roots just if the names of each root that is not normalized either have such a
name among them or begin with those of a normalized root. -/
theorem hidden_subtrees (hs : s.problems = .ok []) :
    (∀ path, Path.IsNormal path → (Path.isHidden path s.hiddenRoots = true ↔
      Path.HasHiddenName path ∨
        ∃ top ∈ s.hiddenRoots, Path.IsNormal top ∧ Path.names top <+: Path.names path)) ∧
    ((∀ path, Path.IsNormal path → (Path.isHidden path s.hiddenRoots = true ↔
        Path.HasHiddenName path ∨
          ∃ top ∈ s.hiddenRoots, Path.names top <+: Path.names path)) ↔
      ∀ top ∈ s.hiddenRoots, Path.HasHiddenName top ∨
        ∃ above ∈ s.hiddenRoots, Path.IsNormal above ∧ Path.names above <+: Path.names top) := by
  have hroots := isAbsolute_of_problems hs
  refine ⟨fun path hpath => Path.isHidden_iff hroots hpath, fun h top htop => ?_, ?_⟩
  · -- The path of the root's names is below the root.
    let path := Path.ofNames (Path.names top)
    have hnames : ∀ n ∈ Path.names top, Path.IsName n := fun n => Path.isName_of_mem_names
    have hpath : Path.IsNormal path := ⟨_, hnames, rfl⟩
    have hsame : Path.names path = Path.names top := Path.names_ofNames hnames
    have hbelow : Path.names top <+: Path.names path := ⟨[], by rw [List.append_nil, hsame]⟩
    have hhidden := (h path hpath).2 (.inr ⟨top, htop, hbelow⟩)
    rw [Path.isHidden_iff hroots hpath, Path.HasHiddenName, hsame] at hhidden
    exact hhidden
  · intro h path hpath
    rw [Path.isHidden_iff hroots hpath]
    constructor
    · rintro (hname | ⟨top, htop, -, hnames⟩)
      · exact .inl hname
      · exact .inr ⟨top, htop, hnames⟩
    · rintro (hname | ⟨top, htop, hnames⟩)
      · exact .inl hname
      · rcases h top htop with hname | ⟨above, habove, hnormal, hprefix⟩
        · exact .inl (hname.mono hnames)
        · exact .inr ⟨above, habove, hnormal, hprefix.trans hnames⟩

/-- A root beside one with which its name begins, one that is a root already, and one that a name
with a colon hides in any case. -/
theorem hidden_subtrees_of_spellings :
    let s : TraversalSettings Unit := { hiddenRoots := ["/ab", "/ab//c/", "//:x"] }
    s.problems = .ok [] ∧ Path.isHidden "/ab/c" s.hiddenRoots = true ∧
      Path.isHidden "/abc" s.hiddenRoots = false ∧
      ∀ path, Path.IsNormal path → (Path.isHidden path s.hiddenRoots = true ↔
        Path.HasHiddenName path ∨
          ∃ top ∈ s.hiddenRoots, Path.names top <+: Path.names path) := by
  intro s
  have hs : s.problems = .ok [] := rfl
  exact ⟨hs, by decide, by decide, (hidden_subtrees hs).2.2 (by decide)⟩

/-- A root with a slash at its end passes, and what lies below it is not hidden. -/
theorem hides_nothing_of_slash :
    let s : TraversalSettings Unit := { hiddenRoots := ["/a/"] }
    s.problems = .ok [] ∧ Path.IsNormal "/a/b" ∧ Path.names "/a/" <+: Path.names "/a/b" ∧
      Path.isHidden "/a/b" s.hiddenRoots = false :=
  ⟨rfl, by decide, by decide, by decide⟩

end TraversalSettings

end VersionedTree
