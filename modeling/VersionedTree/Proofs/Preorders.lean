import VersionedTree.Proofs.Spellings

/-! # Bundles of relative paths

The keys of a bundle that are relative paths are placed, and no two of them spell the same node.
Such a bundle unfolds exactly if it is closed, whatever the path of the node that carries it; it is
then gone through depth first. If it is not closed, the failure names a key that has no place.
-/

namespace VersionedTree

namespace Path

theorem relative_singleton (n : String) : relative [n] = n := by
  apply String.toList_injective
  rw [toList_relative_cons, body_nil, List.append_nil]

theorem relative_cons {n : String} {ns : List String} (h : ns ≠ []) :
    relative (n :: ns) = n ++ "/" ++ relative ns := by
  cases ns with
  | nil => exact absurd rfl h
  | cons m ms =>
    apply String.toList_injective
    rw [String.toList_append, toList_name_slash, toList_relative_cons, toList_relative_cons,
      body_cons, List.append_assoc]
    rfl

theorem relative_ne_empty {ns : List String} (hns : ∀ n ∈ ns, IsName n) (h : ns ≠ []) :
    (relative ns).isEmpty = false := by
  rw [Bool.eq_false_iff]
  intro hempty
  apply h
  rw [← names_relative hns, String.isEmpty_iff.1 hempty]
  decide

theorem getLast?_join {p n : String} (hn : IsName n) : (join p n).toList.getLast? ≠ some '/' := by
  have hempty : n.isEmpty = false := by simpa using hn.1
  rw [join_of_not_isEmpty hempty, String.toList_append, List.getLast?_append]
  cases hlast : n.toList.getLast? with
  | none => exact absurd (List.getLast?_eq_none_iff.1 hlast) (toList_ne_nil hn)
  | some c =>
    rintro ⟨⟩
    exact hn.2 (List.mem_of_getLast? hlast)

theorem join_join {p n rest : String} (hn : IsName n) (hrest : rest.isEmpty = false) :
    join (join p n) rest = join p (n ++ "/" ++ rest) := by
  have hempty : n.isEmpty = false := by simpa using hn.1
  have hwhole : (n ++ "/" ++ rest).isEmpty = false := by simp
  have hlast := getLast?_join (p := p) hn
  rw [join_of_not_isEmpty hrest, if_neg (by simpa using hlast), join_of_not_isEmpty hempty,
    join_of_not_isEmpty hwhole, String.append_assoc, String.append_assoc, String.append_assoc]

/-- Names that are joined one after the other are joined as their relative path. -/
theorem foldl_join {p : String} {ns : List String} (hns : ∀ n ∈ ns, IsName n) (h : ns ≠ []) :
    ns.foldl join p = join p (relative ns) := by
  induction ns generalizing p with
  | nil => exact absurd rfl h
  | cons n ns ih =>
    obtain ⟨hn, hns⟩ := List.forall_mem_cons.1 hns
    rw [List.foldl_cons]
    by_cases hnil : ns = []
    · rw [hnil, relative_singleton]
      rfl
    · rw [ih hns hnil, join_join hn (relative_ne_empty hns hnil), relative_cons hnil]

theorem foldl_join_ofNames {ns ms : List String} (hns : ∀ n ∈ ns, IsName n)
    (hms : ∀ m ∈ ms, IsName m) : ms.foldl join (ofNames ns) = ofNames (ns ++ ms) := by
  induction ms generalizing ns with
  | nil => rw [List.foldl_nil, List.append_nil]
  | cons m ms ih =>
    obtain ⟨hm, hms⟩ := List.forall_mem_cons.1 hms
    rw [List.foldl_cons, join_ofNames hns hm,
      ih (List.forall_mem_append.2 ⟨hns, List.forall_mem_singleton.2 hm⟩) hms, List.append_assoc]
    rfl

theorem behind?_relative {base ns : List String} (hbase : ∀ n ∈ base, IsName n) (h : ns ≠ []) :
    behind? base (relative (base ++ ns)) = some (relative ns) := by
  induction base with
  | nil => rfl
  | cons n base ih =>
    obtain ⟨hn, hbase⟩ := List.forall_mem_cons.1 hbase
    have hne : base ++ ns ≠ [] := List.append_ne_nil_of_right_ne_nil base h
    rw [List.cons_append, behind?, if_pos ((beginsWith_relative hn hn).2 ⟨rfl, hne⟩),
      drop_relative hne, ih hbase]

theorem behind?_relative_self {base : List String} (hbase : ∀ n ∈ base, IsName n) (h : base ≠ []) :
    behind? base (relative base) = none := by
  induction base with
  | nil => exact absurd rfl h
  | cons n base ih =>
    obtain ⟨hn, hbase⟩ := List.forall_mem_cons.1 hbase
    rw [behind?]
    split
    · rename_i hbegins
      have hne := ((beginsWith_relative hn hn).1 hbegins).2
      rw [drop_relative hne, ih hbase hne]
    · rfl

theorem length_names_le {key : String} (hkey : IsRelative key) :
    (names key).length ≤ key.length := by
  obtain ⟨hne, hnames, heq⟩ := hkey
  have hbody (ns : List String) (hns : ∀ n ∈ ns, IsName n) :
      2 * ns.length ≤ (body ns).length := by
    induction ns with
    | nil => exact Nat.le_refl _
    | cons n ns ih =>
      have hn : 0 < n.toList.length :=
        List.length_pos_of_ne_nil (toList_ne_nil (hns n List.mem_cons_self))
      have hrest := ih fun m hm => hns m (List.mem_cons_of_mem n hm)
      rw [body_cons, List.length_cons, List.length_cons, List.length_append]
      omega
  have hlength : key.length = (body (names key)).tail.length := by
    conv_lhs => rw [heq]
    rw [relative, String.length_ofList]
  have hpositive := List.length_pos_of_ne_nil hne
  have htwice := hbody _ hnames
  rw [hlength, List.length_tail]
  omega

/-- What is left of a relative path is one. -/
theorem IsRelative.behind? {base : List String} {key rest : String} (hkey : IsRelative key)
    (hbase : ∀ n ∈ base, IsName n) (h : behind? base key = some rest) : IsRelative rest := by
  have hnames := names_of_behind? hbase h
  have hne : names rest ≠ [] := by
    intro hnil
    rw [hnil, List.append_nil] at hnames
    rw [hkey.2.2, hnames, behind?_relative_self hbase (hnames ▸ hkey.1)] at h
    cases h
  refine ⟨hne, fun n hn => isName_of_mem_names hn, ?_⟩
  rw [hkey.2.2, hnames, behind?_relative hbase hne] at h
  exact (Option.some.inj h).symm

theorem IsRelative.isPlaced {key : String} (hkey : IsRelative key) : IsPlaced key := by
  obtain ⟨hne, hnames, htext⟩ := hkey
  obtain ⟨init, last, hsplit⟩ : ∃ init last, names key = init ++ [last] :=
    ⟨_, _, (List.dropLast_append_getLast hne).symm⟩
  rw [hsplit] at hnames htext
  have hbehind := behind?_relative (List.forall_mem_append.1 hnames).1 (List.cons_ne_nil last [])
  rw [IsPlaced, hsplit, List.dropLast_concat, htext, hbehind]
  rfl

theorem spelled?_of_isRelative {base : List String} {key name : String} (hkey : IsRelative key)
    (hbase : ∀ n ∈ base, IsName n) :
    spelled? base key = some name ↔ names key = base ++ [name] := by
  rw [spelled?_iff hbase]
  exact and_iff_right hkey.isPlaced

end Path

namespace Bundle

variable {b : Bundle} {base : List String}

theorem mem_map_fst_outline {ns : List String} :
    ns ∈ b.outline.map Prod.fst ↔ ∃ key ∈ b.keys, Path.names key = ns := by
  have hkeys : b.outline.map Prod.fst = b.keys.map Path.names := by
    rw [outline, OrderedMap.keys, List.map_map, List.map_map]
    rfl
  rw [hkeys, List.mem_map]

/-- The keys of a closed bundle contain the relative path of each node above a key. -/
theorem IsClosed.above (hb : b.IsClosed) {key : String} (hkey : key ∈ b.keys) {above : List String}
    (habove : above <+: Path.names key) (hne : above ≠ []) : Path.relative above ∈ b.keys := by
  have hmem := mem_map_fst_outline.2 ⟨key, hkey, rfl⟩
  obtain ⟨outer, houter, hnames⟩ :=
    mem_map_fst_outline.1 (Outline.mem_of_above (isTree_outline hb) hmem habove hne)
  have htext := (hb.isRelative outer houter).2.2
  rw [hnames] at htext
  exact htext ▸ houter

/-- Among relative paths, the key of a node is its relative path. -/
theorem exists_names_eq_iff (hb : ∀ key ∈ b.keys, Path.IsRelative key)
    (hbase : ∀ n ∈ base, Path.IsName n) {name : String} (hname : Path.IsName name) :
    (∃ key ∈ (b.under base).keys, Path.names key = [name]) ↔
      Path.relative (base ++ [name]) ∈ b.keys := by
  constructor
  · rintro ⟨x, hx, hspells⟩
    obtain ⟨key, hkey, hbehind⟩ := mem_keys_under.1 hx
    have hnames := Path.names_of_behind? hbase hbehind
    rw [hspells] at hnames
    rwa [← hnames, ← (hb key hkey).2.2]
  · intro h
    have hbehind := Path.behind?_relative hbase (List.cons_ne_nil name [])
    exact ⟨_, mem_keys_under.2 ⟨_, h, hbehind⟩,
      Path.names_relative (List.forall_mem_singleton.2 hname)⟩

/-- A bundle of relative paths unfolds exactly if it is closed. -/
theorem unfolds_iff (hb : ∀ key ∈ b.keys, Path.IsRelative key) : b.Unfolds ↔ b.IsClosed := by
  constructor
  · intro h
    refine ⟨hb, fun key hkey hne => ?_⟩
    obtain ⟨hnonempty, hnames, -⟩ := hb key hkey
    obtain ⟨more, name, hmore⟩ : ∃ more name, (Path.names key).dropLast = more ++ [name] :=
      ⟨_, _, (List.dropLast_append_getLast hne).symm⟩
    have hsplit := List.dropLast_append_getLast hnonempty
    rw [hmore, List.append_assoc] at hsplit
    have hmoreNames : ∀ n ∈ more, Path.IsName n := fun n hn =>
      hnames n (hsplit ▸ List.mem_append_left _ hn)
    obtain ⟨rest, hrest, hbehind⟩ :=
      (hb key hkey).isPlaced.exists_behind? hsplit.symm (List.cons_ne_nil name _)
    obtain ⟨first, ns, hfirst, hparent⟩ :=
      h more hmoreNames rest (mem_keys_under.2 ⟨key, hkey, hrest⟩)
    rw [hbehind] at hfirst
    cases hfirst
    have hname : Path.IsName name := hnames name (hsplit ▸ by simp)
    rw [hmore]
    exact (exists_names_eq_iff hb hmoreNames hname).1 hparent
  · intro h base hbase rest hrest
    obtain ⟨key, hkey, hbehind⟩ := mem_keys_under.1 hrest
    obtain ⟨hne, hnames, -⟩ := (hb key hkey).behind? hbase hbehind
    obtain ⟨name, ns, hname⟩ := List.exists_cons_of_ne_nil hne
    refine ⟨name, ns, hname, (exists_names_eq_iff hb hbase ?_).2 (h.above hkey ?_ (by simp))⟩
    · exact hnames name (hname ▸ List.mem_cons_self)
    · rw [Path.names_of_behind? hbase hbehind, hname]
      exact ⟨ns, List.append_assoc _ _ _⟩

/-- What is below some names in a closed bundle is what its outline holds below them. -/
theorem under_eq_bundle (hb : b.IsClosed) (hbase : ∀ n ∈ base, Path.IsName n) :
    b.under base = (b.outline.below base).bundle := by
  have htree := isTree_outline hb
  apply OrderedMap.ext
  rw [Outline.entries_bundle (fun e he => Outline.isName_below htree he)
    (Outline.nodup_below htree base), entries_under, Outline.below, outline, List.filterMap_map,
    List.map_filterMap]
  refine List.filterMap_congr fun e he => ?_
  have hkey := hb.isRelative e.1 (List.mem_map_of_mem he)
  rw [Function.comp_apply, left?]
  cases hrest : Path.behind? base e.1 with
  | some rest =>
    have hrelative := hkey.behind? hbase hrest
    obtain ⟨n, ns, hnames⟩ := List.exists_cons_of_ne_nil hrelative.1
    rw [Path.names_of_behind? hbase hrest, hnames, Outline.from?_append, Option.map_some,
      Option.map_some, ← hnames, ← hrelative.2.2]
  | none =>
    rw [Outline.from?_eq_none]
    · rfl
    · intro n ns hnames
      have hbehind := Path.behind?_relative hbase (List.cons_ne_nil n ns)
      rw [← hnames, ← hkey.2.2, hrest] at hbehind
      cases hbehind

end Bundle

namespace Outline

variable {l : Outline} {base : List String} {e : List String × Properties} {n : Nat}

theorem flatMap_children {α : Type} (f : List String × Properties → List α) (l : Outline)
    (base : List String) : (l.children base).flatMap f =
      l.flatMap fun e => if e.1 ≠ [] ∧ e.1.dropLast = base then f e else [] := by
  have hchildren := map_children id l base
  rw [List.map_id] at hchildren
  rw [hchildren, List.filterMap_eq_flatMap_toList, List.flatMap_assoc]
  refine List.flatMap_congr fun e _ => ?_
  by_cases h : e.1 ≠ [] ∧ e.1.dropLast = base
  · rw [if_pos h, if_pos h]
    exact List.flatMap_singleton _ _
  · rw [if_neg h, if_neg h]
    rfl

theorem height_child (hn : l.height ≤ base.length + (n + 1)) (he : e ∈ l.children base) :
    l.height ≤ e.1.length + n := by
  obtain ⟨-, name, hname⟩ := mem_children.1 he
  rw [hname, List.length_append, List.length_singleton]
  omega

theorem above_of_mem (hl : l.IsTree) (hn : l.height ≤ e.1.length + n)
    {x : List String × Properties} (hx : x ∈ e :: l.preorder n e.1) : e.1 <+: x.1 := by
  rcases List.mem_cons.1 hx with rfl | hx
  · exact List.prefix_rfl
  · obtain ⟨-, name, ns, hname⟩ := (mem_preorder hl hn).1 hx
    exact ⟨name :: ns, hname.symm⟩

/-- What is below a child comes right behind it, and nowhere else. -/
theorem preorder_split (hl : l.IsTree) (hn : l.height ≤ base.length + (n + 1))
    (he : e ∈ l.children base) : ∃ before rest,
      l.preorder (n + 1) base = before ++ e :: (l.preorder n e.1 ++ rest) ∧
        ∀ x ∈ before ++ rest, ¬ e.1 <+: x.1 := by
  have hnodup : (l.children base).Nodup := (List.Nodup.of_map _ hl.nodup).filter _
  -- Two children have as many names, so none is above the other or what lies below it.
  have hother {c : List String × Properties} (hc : c ∈ l.children base) (hne : c ≠ e)
      {x : List String × Properties} (hx : x ∈ c :: l.preorder n c.1) : ¬ e.1 <+: x.1 := by
    intro habove
    obtain ⟨hcl, name, hname⟩ := mem_children.1 hc
    obtain ⟨hel, name', hname'⟩ := mem_children.1 he
    have hlength : e.1.length = c.1.length := by
      rw [hname, hname', List.length_append, List.length_append]
      rfl
    have hsame := (List.prefix_of_prefix_length_le habove
      (above_of_mem hl (height_child hn hc) hx) (Nat.le_of_eq hlength)).eq_of_length hlength
    exact hne (List.inj_on_of_nodup_map hl.nodup hcl hel hsame.symm)
  obtain ⟨left, right, hsplit⟩ := List.append_of_mem he
  refine ⟨left.flatMap fun c => c :: l.preorder n c.1, right.flatMap fun c => c :: l.preorder n c.1,
    ?_, ?_⟩
  · rw [preorder, hsplit, List.flatMap_append, List.flatMap_cons, List.cons_append]
  · intro x hx
    rw [← List.flatMap_append] at hx
    obtain ⟨c, hc, hx⟩ := List.mem_flatMap.1 hx
    have hmiddle : (left ++ e :: right).Perm (e :: (left ++ right)) := List.perm_middle
    rw [hsplit, hmiddle.nodup_iff, List.nodup_cons] at hnodup
    refine hother ?_ (fun h => hnodup.1 (h ▸ hc)) hx
    rw [hsplit, hmiddle.mem_iff]
    exact List.mem_cons_of_mem e hc

/-- The nodes below one are those right behind it. -/
theorem preorder_contiguous (hl : l.IsTree) (hn : l.height ≤ base.length + n)
    (he : e ∈ l.preorder n base) : ∃ before inner rest,
      l.preorder n base = before ++ e :: (inner ++ rest) ∧ (∀ x ∈ inner, e.1 <+: x.1) ∧
        ∀ x ∈ before ++ rest, ¬ e.1 <+: x.1 := by
  induction n generalizing base with
  | zero => cases he
  | succ n ih =>
    obtain ⟨c, hc, hmem⟩ := List.mem_flatMap.1 he
    have hheight := height_child hn hc
    obtain ⟨before, rest, hsplit, hapart⟩ := preorder_split hl hn hc
    rcases List.mem_cons.1 hmem with rfl | hmem
    · have habove x hx := above_of_mem hl hheight (List.mem_cons_of_mem e hx : x ∈ _)
      exact ⟨before, _, rest, hsplit, habove, hapart⟩
    · obtain ⟨before', inner, rest', hsplit', hinner, hapart'⟩ := ih hheight hmem
      obtain ⟨-, name, ns, hname⟩ := (mem_preorder hl hheight).1 hmem
      have habove : c.1 <+: e.1 := ⟨name :: ns, hname.symm⟩
      refine ⟨before ++ c :: before', inner, rest' ++ rest, ?_, hinner, fun x hx hex => ?_⟩
      · rw [hsplit, hsplit']
        simp only [List.append_assoc, List.cons_append]
      · have hc : ¬ e.1 <+: c.1 := by
          intro h
          have hlength := h.length_le
          rw [hname, List.length_append, List.length_cons] at hlength
          omega
        rw [List.append_assoc, List.cons_append, List.mem_append, List.mem_cons] at hx
        rcases hx with hx | rfl | hx
        · exact hapart x (List.mem_append_left rest hx) (habove.trans hex)
        · exact hc hex
        · rw [← List.append_assoc, List.mem_append] at hx
          rcases hx with hx | hx
          · exact hapart' x hx hex
          · exact hapart x (List.mem_append_right before hx) (habove.trans hex)

/-- The nodes right below one come in their order. -/
theorem filter_preorder (hl : l.IsTree) (hn : l.height ≤ base.length + n) (ms : List String) :
    (l.preorder n base).filter (fun x => x.1.dropLast = base ++ ms) = l.children (base ++ ms) := by
  induction n generalizing base ms with
  | zero =>
    rw [children_eq_nil (Nat.le_trans hn (by simp))]
    rfl
  | succ n ih =>
    cases ms with
    | nil =>
      have hself {c : List String × Properties} (hc : c ∈ l.children base) :
          (c :: l.preorder n c.1).filter (fun x => x.1.dropLast = base ++ []) = [c] := by
        obtain ⟨hcl, name, hname⟩ := mem_children.1 hc
        rw [List.filter_cons_of_pos, List.filter_eq_nil_iff.2]
        · intro x hx
          obtain ⟨-, next, ns, hnext⟩ := (mem_preorder hl (height_child hn hc)).1 hx
          have hlength : x.1.dropLast.length ≠ base.length := by
            rw [hnext, hname, List.length_dropLast]
            simp
          simpa using fun h => hlength (congrArg List.length h)
        · simp [hname]
      rw [preorder, List.filter_flatMap, List.flatMap_congr fun c hc => hself hc,
        List.flatMap_singleton', List.append_nil]
    | cons m ms =>
      by_cases hnil : l.children (base ++ m :: ms) = []
      · rw [hnil, List.filter_eq_nil_iff]
        intro x hx h
        have hxl := ((mem_preorder hl hn).1 hx).1
        have hchild : x ∈ l.children (base ++ m :: ms) :=
          List.mem_filter.2 ⟨hxl, decide_eq_true ⟨hl.ne_nil x hxl, of_decide_eq_true h⟩⟩
        rw [hnil] at hchild
        cases hchild
      · obtain ⟨x, hx⟩ := List.exists_mem_of_ne_nil _ hnil
        obtain ⟨hxl, name, hname⟩ := mem_children.1 hx
        obtain ⟨c, hcl, hcm⟩ : ∃ c ∈ l, c.1 = base ++ [m] := by
          refine List.mem_map.1 (mem_of_above hl (List.mem_map_of_mem hxl) ⟨ms ++ [name], ?_⟩ ?_)
          · rw [hname, List.append_assoc, List.append_assoc]
            rfl
          · simp
        have hc : c ∈ l.children base := mem_children.2 ⟨hcl, m, hcm⟩
        have hbelow : base ++ m :: ms = c.1 ++ ms := by
          rw [hcm, List.append_assoc]
          rfl
        have hself : c.1.dropLast ≠ c.1 ++ ms := by
          intro h
          have hlength := congrArg List.length h
          rw [hcm, List.dropLast_concat] at hlength
          simp at hlength
        -- The siblings are at or below this child, so what lies below the others holds none.
        obtain ⟨before, rest, hsplit, hapart⟩ := preorder_split hl hn hc
        have hnone (part : Outline) (hpart : ∀ y ∈ part, y ∈ before ++ rest) :
            part.filter (fun y => y.1.dropLast = c.1 ++ ms) = [] := by
          rw [List.filter_eq_nil_iff]
          intro y hy h
          refine hapart y (hpart y hy) (List.IsPrefix.trans ?_ (List.dropLast_prefix y.1))
          rw [of_decide_eq_true h]
          exact List.prefix_append _ _
        rw [hbelow, hsplit, List.filter_append, List.filter_cons_of_neg (by simpa using hself),
          List.filter_append, ih (height_child hn hc),
          hnone before fun y hy => List.mem_append_left rest hy,
          hnone rest fun y hy => List.mem_append_right before hy, List.nil_append, List.append_nil]

end Outline

namespace Bundle

variable {b : Bundle} {base : List String}

/-- Unfolding a bundle of relative paths goes through its outline. -/
theorem unrolled_eq_preorder (hb : ∀ key ∈ b.keys, Path.IsRelative key)
    (hbase : ∀ n ∈ base, Path.IsName n) (n : Nat) :
    b.unrolled n base = b.outline.preorder n base := by
  induction n generalizing base with
  | zero => rfl
  | succ n ih =>
    rw [unrolled_succ, Outline.preorder, Outline.flatMap_children, outline, List.flatMap_map]
    refine List.flatMap_congr fun e he => ?_
    have hkey := hb e.1 (List.mem_map_of_mem he)
    cases hname : Path.spelled? base e.1 with
    | some name =>
      have hnames := (Path.spelled?_of_isRelative hkey hbase).1 hname
      have hmore : ∀ n ∈ base ++ [name], Path.IsName n := hnames ▸ hkey.2.1
      rw [Option.elim_some, ih hmore, if_pos ⟨hkey.1, by rw [hnames, List.dropLast_concat]⟩, hnames]
      rfl
    | none =>
      rw [Option.elim_none, if_neg]
      rintro ⟨hne, hlast⟩
      have hsplit := List.dropLast_append_getLast hne
      rw [hlast] at hsplit
      rw [(Path.spelled?_of_isRelative hkey hbase).2 hsplit.symm] at hname
      cases hname

/-- The entries in the order of a walk through the tree of their names: each is followed at once by
those below it and by no more of them later, and siblings come in the order of the bundle. -/
structure IsDepthFirst (b : Bundle) (order : List (String × Properties)) : Prop where
  perm : order.Perm b.entries
  contiguous : ∀ e ∈ order, ∃ before inner rest, order = before ++ e :: (inner ++ rest) ∧
    (∀ x ∈ inner, Path.names e.1 <+: Path.names x.1) ∧
    ∀ x ∈ before ++ rest, ¬ Path.names e.1 <+: Path.names x.1
  siblings : ∀ outer : List String,
    order.filter (fun e => (Path.names e.1).dropLast = outer) =
      b.entries.filter fun e => (Path.names e.1).dropLast = outer

theorem isDepthFirst_preorder (hb : b.IsClosed) :
    b.IsDepthFirst ((b.outline.preorder b.outline.height []).map fun e =>
      (Path.relative e.1, e.2)) := by
  have htree := isTree_outline hb
  have hheight : b.outline.height ≤ ([] : List String).length + b.outline.height := by simp
  have hsub : ∀ x ∈ b.outline.preorder b.outline.height [], x ∈ b.outline :=
    fun x hx => ((Outline.mem_preorder htree hheight).1 hx).1
  have hnames : ∀ x ∈ b.outline, Path.names (Path.relative x.1) = x.1 :=
    fun x hx => Path.names_relative (htree.isName x hx)
  have hfilter (part : Outline) (hpart : ∀ x ∈ part, x ∈ b.outline) (outer : List String) :
      (part.map fun e => (Path.relative e.1, e.2)).filter
          (fun e => (Path.names e.1).dropLast = outer) =
        (part.filter fun x => x.1.dropLast = outer).map fun e => (Path.relative e.1, e.2) := by
    rw [List.filter_map]
    refine congrArg _ (List.filter_congr fun x hx => ?_)
    rw [Function.comp_apply, hnames x (hpart x hx)]
  refine ⟨?_, fun e he => ?_, fun outer => ?_⟩
  · rw [entries_eq hb]
    exact (Outline.preorder_perm htree).map _
  · obtain ⟨x, hx, rfl⟩ := List.mem_map.1 he
    obtain ⟨before, inner, rest, hsplit, hinner, hapart⟩ :=
      Outline.preorder_contiguous htree hheight hx
    refine ⟨before.map fun e => (Path.relative e.1, e.2),
      inner.map fun e => (Path.relative e.1, e.2), rest.map fun e => (Path.relative e.1, e.2),
      ?_, fun y hy => ?_, fun y hy => ?_⟩
    · rw [hsplit, List.map_append, List.map_cons, List.map_append]
    · obtain ⟨z, hz, rfl⟩ := List.mem_map.1 hy
      rw [hnames x (hsub x hx), hnames z (hsub z (hsplit ▸ by simp [hz]))]
      exact hinner z hz
    · rw [← List.map_append] at hy
      obtain ⟨z, hz, rfl⟩ := List.mem_map.1 hy
      have hzsub : z ∈ b.outline.preorder b.outline.height [] := by
        rw [hsplit]
        rcases List.mem_append.1 hz with hz | hz
        · exact List.mem_append_left _ hz
        · exact List.mem_append_right _ (List.mem_cons_of_mem x (List.mem_append_right inner hz))
      rw [hnames x (hsub x hx), hnames z (hsub z hzsub)]
      exact hapart z hz
  · have hsiblings := Outline.filter_preorder htree hheight outer
    rw [List.nil_append] at hsiblings
    rw [hfilter _ hsub, hsiblings, entries_eq hb, hfilter _ fun x hx => hx]
    refine congrArg _ (List.filter_congr fun x hx => ?_)
    simp [htree.ne_nil x hx]

end Bundle

namespace NodeState

variable {s : NodeState}

/-- The state of the node that a relative path names. -/
def bundledAt (s : NodeState) (e : String × Properties) : NodeState :=
  { s with
    path := Path.join s.path e.1
    properties := e.2
    bundled := s.bundled.under (Path.names e.1) }

theorem below_eq_bundledAt {e : List String × Properties} (hnames : ∀ n ∈ e.1, Path.IsName n)
    (hne : e.1 ≠ []) : s.below e.1 e.2 = s.bundledAt (Path.relative e.1, e.2) := by
  rw [below, bundledAt, Path.foldl_join hnames hne, Path.names_relative hnames]

theorem below_eq_inner (hpath : Path.IsNormal s.path) (hb : s.bundled.IsClosed)
    {e : List String × Properties} (hnames : ∀ n ∈ e.1, Path.IsName n) :
    s.below e.1 e.2 = s.inner e := by
  obtain ⟨hself, htext⟩ := Path.isNormal_iff.1 hpath
  have hjoined := Path.foldl_join_ofNames hself hnames
  rw [← htext] at hjoined
  rw [below, inner, hjoined, Bundle.under_eq_bundle hb hnames]

theorem height_le_depthBound (hb : s.bundled.IsClosed) :
    s.bundled.outline.height ≤ s.depthBound := by
  refine Outline.height_le fun e he => ?_
  obtain ⟨x, hx, rfl⟩ := List.mem_map.1 he
  have hkey : x.1 ∈ s.bundled.keys := List.mem_map_of_mem hx
  exact Nat.le_trans (Path.length_names_le (hb.isRelative x.1 hkey))
    (Nat.le_of_lt (length_lt_depthBound hkey))

/-- Each node of the tree in a closed bundle is delivered with its state, depth first. -/
theorem states_of_isClosed (hb : s.bundled.IsClosed) {g : List String × Properties → NodeState}
    (hg : ∀ e ∈ s.bundled.outline, s.below e.1 e.2 = g e) :
    s.descendants.states = (s.bundled.outline.preorder s.bundled.outline.height []).map g := by
  have hbound := height_le_depthBound hb
  have hheight : s.bundled.outline.height ≤
      ([] : List String).length + s.bundled.outline.height := by simp
  rw [states_descendants ((Bundle.unfolds_iff hb.isRelative).2 hb),
    Bundle.unrolled_eq_preorder hb.isRelative (List.forall_mem_nil _),
    Outline.preorder_congr (by simpa using hbound) hheight]
  refine List.map_congr_left fun e he => hg e ?_
  exact ((Outline.mem_preorder (Bundle.isTree_outline hb) hheight).1 he).1

/-- The descendants in a closed bundle are the nodes of its tree, depth first. -/
theorem descendants_eq (hpath : Path.IsNormal s.path) (hb : s.bundled.IsClosed) :
    s.descendants =
      ⟨(s.bundled.outline.preorder s.bundled.outline.height []).map s.inner, none⟩ := by
  have hfailure := failure_descendants_eq_none.2 ((Bundle.unfolds_iff hb.isRelative).2 hb)
  have hstates := states_of_isClosed hb fun e he =>
    below_eq_inner hpath hb ((Bundle.isTree_outline hb).isName e he)
  calc
    s.descendants = ⟨s.descendants.states, s.descendants.failure⟩ := rfl
    _ = _ := by rw [hstates, hfailure]

/-- An entry of relative path without a place is one that some node above is missing for. -/
theorem above_missing (hkeys : ∀ key ∈ s.bundled.keys, Path.IsRelative key) {e : Failure}
    (h : s.descendants.failure = some e) : ∃ key ∈ s.bundled.keys, ∃ above cause,
      e = .unresolved (Path.join s.path key) s.snapshotText cause ∧
      above ≠ [] ∧ above <+: Path.names key ∧ above ≠ Path.names key ∧
      Path.relative above ∉ s.bundled.keys := by
  rw [descendants_below] at h
  obtain ⟨more, ps, rest, hrest, horphan, hmore, rfl⟩ := failure_generations h
  rw [List.nil_append] at hrest horphan ⊢
  obtain ⟨key, hkey, hbehind⟩ := Bundle.mem_keys_under.1 hrest
  have hrelative := (hkeys key hkey).behind? hmore hbehind
  obtain ⟨name, ns, hname⟩ := List.exists_cons_of_ne_nil hrelative.1
  have hnames := Path.names_of_behind? hmore hbehind
  have hmissing : Path.relative (more ++ [name]) ∉ s.bundled.keys := by
    intro hmem
    have hplaced := (Bundle.exists_names_eq_iff hkeys hmore
      (hrelative.2.1 name (hname ▸ List.mem_cons_self))).2 hmem
    rw [isOrphan_below.2 ⟨name, ns, hname, hplaced⟩] at horphan
    cases horphan
  have hpath : Path.join (more.foldl Path.join s.path) rest = Path.join s.path key := by
    obtain ⟨hne, hisName, htext⟩ := hkeys key hkey
    rw [hrelative.2.2, ← Path.foldl_join hrelative.2.1 hrelative.1, ← List.foldl_append, ← hnames,
      Path.foldl_join hisName hne, ← htext]
  refine ⟨key, hkey, more ++ [name], .orphan rest (more.foldl Path.join s.path), by rw [hpath],
    by simp, ?_, ?_, hmissing⟩
  · rw [hnames, hname]
    exact ⟨ns, List.append_assoc _ _ _⟩
  · intro heq
    rw [heq, ← (hkeys key hkey).2.2] at hmissing
    exact hmissing hkey

/-- A bundle of relative paths is gone through depth first if the parent of each key is a key or the
node itself; else the failure names a key that some node above is missing for. -/
theorem descendants_of_relative (hkeys : ∀ key ∈ s.bundled.keys, Path.IsRelative key) :
    (s.descendants.failure = none ↔ ∀ key ∈ s.bundled.keys, (Path.names key).dropLast ≠ [] →
      Path.relative (Path.names key).dropLast ∈ s.bundled.keys) ∧
    (s.descendants.failure = none → ∃ order, s.bundled.IsDepthFirst order ∧
      s.descendants.states = order.map s.bundledAt) ∧
    (s.descendants.failure ≠ none → ∃ key ∈ s.bundled.keys, ∃ above cause,
      s.descendants.failure = some (.unresolved (Path.join s.path key) s.snapshotText cause) ∧
      above ≠ [] ∧ above <+: Path.names key ∧ above ≠ Path.names key ∧
      Path.relative above ∉ s.bundled.keys) := by
  have hclosed : s.descendants.failure = none ↔ s.bundled.IsClosed :=
    failure_descendants_eq_none.trans (Bundle.unfolds_iff hkeys)
  refine ⟨hclosed.trans ⟨fun h => h.parent, fun h => ⟨hkeys, h⟩⟩, fun h => ?_, fun h => ?_⟩
  · have hb := hclosed.1 h
    have htree := Bundle.isTree_outline hb
    refine ⟨_, Bundle.isDepthFirst_preorder hb, ?_⟩
    rw [List.map_map]
    exact states_of_isClosed hb fun e he =>
      below_eq_bundledAt (htree.isName e he) (htree.ne_nil e he)
  · obtain ⟨e, he⟩ := Option.ne_none_iff_exists'.1 h
    obtain ⟨key, hkey, above, cause, rfl, habove⟩ := above_missing hkeys he
    exact ⟨key, hkey, above, cause, he, habove⟩

/-- The keys below a node may stand before it and apart from each other. -/
theorem descendants_of_scattered_keys :
    let s : NodeState :=
      { path := "/p/"
        snapshot := none
        lastRevision := none
        properties := []
        bundled := .ofList [("a/b", []), ("c", []), ("a", [("x", .number 1)]), ("a/d", [])] }
    (∀ key ∈ s.bundled.keys, Path.IsRelative key) ∧
      s.descendants.states.map path = ["/p/c", "/p/a", "/p/a/b", "/p/a/d"] ∧
      ∃ order, s.bundled.IsDepthFirst order ∧ s.descendants.states = order.map s.bundledAt := by
  intro s
  have hkeys : ∀ key ∈ s.bundled.keys, Path.IsRelative key := by decide +kernel
  obtain ⟨-, hcomplete, -⟩ := descendants_of_relative hkeys
  exact ⟨hkeys, by decide +kernel, hcomplete (by decide +kernel)⟩

end NodeState

end VersionedTree
