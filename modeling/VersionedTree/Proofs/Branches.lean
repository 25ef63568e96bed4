import VersionedTree.NodeState
import VersionedTree.Proofs.Bundles

/-! # How a bundle unfolds

The keys of a bundle may be any texts. A name and a slash are taken off a key on the way to each
generation, so the entries of a bundle below some names are those whose keys begin with these names,
a slash after each. When the unfolding comes to its end, it has gone through the tree of these
names; it fails at an entry that has no parent among the entries beside it.
-/

namespace VersionedTree

namespace Path

/-- What is left of a text behind these names, if it begins with them, a slash after each. -/
def behind? : List String → String → Option String
  | [], text => some text
  | n :: ns, text =>
    if beginsWith (n ++ "/") text then behind? ns (String.ofList (text.toList.drop (n.length + 1)))
    else none

theorem behind?_append (base more : List String) (text : String) :
    behind? (base ++ more) text = (behind? base text).bind (behind? more) := by
  induction base generalizing text with
  | nil => rfl
  | cons n base ih =>
    rw [List.cons_append, behind?, behind?]
    split
    · exact ih _
    · rfl

theorem toList_of_beginsWith {n text : String} (h : beginsWith (n ++ "/") text = true) :
    text.toList = n.toList ++ '/' :: text.toList.drop (n.length + 1) := by
  rw [beginsWith, List.isPrefixOf_iff_prefix, toList_name_slash] at h
  obtain ⟨rest, hrest⟩ := h
  have hlength : n.length + 1 = (n.toList ++ ['/']).length := by
    simp [← String.length_toList]
  rw [← hrest, hlength, List.drop_left, List.append_assoc]
  rfl

theorem behind?_cons_eq_some {n : String} {ns : List String} {text rest : String} :
    behind? (n :: ns) text = some rest ↔
      ∃ x : String, text.toList = n.toList ++ '/' :: x.toList ∧ behind? ns x = some rest := by
  rw [behind?]
  constructor
  · intro h
    split at h
    · rename_i hbegins
      refine ⟨_, ?_, h⟩
      rw [String.toList_ofList]
      exact toList_of_beginsWith hbegins
    · cases h
  · rintro ⟨x, htext, hx⟩
    have happend : text.toList = (n ++ "/").toList ++ x.toList := by
      rw [htext, toList_name_slash, List.append_assoc]
      rfl
    have hbegins : beginsWith (n ++ "/") text = true := by
      rw [beginsWith, List.isPrefixOf_iff_prefix, happend]
      exact List.prefix_append _ _
    have hrest := toList_of_beginsWith hbegins
    rw [htext, List.append_cancel_left_eq] at hrest
    rw [if_pos hbegins, htext, ← (List.cons.inj hrest).2, String.ofList_toList]
    exact hx

theorem names_of_toList {n text x : String} (hn : IsName n)
    (h : text.toList = n.toList ++ '/' :: x.toList) : names text = n :: names x := by
  rw [names, h, List.splitOn_append_cons_self_of_not_mem hn.2, List.filter_cons_of_pos,
    List.map_cons, String.ofList_toList]
  · rfl
  · simpa using toList_ne_nil hn

theorem names_of_behind? {base : List String} (hbase : ∀ n ∈ base, IsName n) {text rest : String}
    (h : behind? base text = some rest) : names text = base ++ names rest := by
  induction base generalizing text with
  | nil =>
    cases h
    rfl
  | cons n base ih =>
    obtain ⟨hn, hbase⟩ := List.forall_mem_cons.1 hbase
    obtain ⟨x, htext, hx⟩ := behind?_cons_eq_some.1 h
    rw [names_of_toList hn htext, ih hbase hx, List.cons_append]

theorem names_of_behind?_first {rest first x : String} {ns : List String}
    (hnames : names rest = first :: ns) (hx : behind? [first] rest = some x) : names x = ns := by
  have hfirst : IsName first := isName_of_mem_names (hnames ▸ List.mem_cons_self)
  have hsplit := names_of_behind? (List.forall_mem_singleton.2 hfirst) hx
  rw [hnames] at hsplit
  exact (List.cons.inj hsplit).2.symm

theorem behind?_inj {base : List String} {text text' rest : String}
    (h : behind? base text = some rest) (h' : behind? base text' = some rest) : text = text' := by
  induction base generalizing text text' with
  | nil =>
    cases h
    cases h'
    rfl
  | cons n base ih =>
    obtain ⟨x, htext, hx⟩ := behind?_cons_eq_some.1 h
    obtain ⟨x', htext', hx'⟩ := behind?_cons_eq_some.1 h'
    apply String.toList_injective
    rw [htext, htext', ih hx hx']

theorem length_behind?_lt {n text rest : String} (h : behind? [n] text = some rest) :
    rest.length < text.length := by
  obtain ⟨x, htext, hx⟩ := behind?_cons_eq_some.1 h
  cases hx
  rw [← String.length_toList, ← String.length_toList, htext, List.length_append, List.length_cons]
  omega

end Path

namespace Bundle

/-- What is left of an entry behind some names. -/
def left? (base : List String) (e : String × Properties) : Option (String × Properties) :=
  (Path.behind? base e.1).map fun rest => (rest, e.2)

theorem left?_eq_some {base : List String} {e e' : String × Properties} :
    left? base e = some e' ↔ Path.behind? base e.1 = some e'.1 ∧ e.2 = e'.2 := by
  rw [left?, Option.map_eq_some_iff]
  constructor
  · rintro ⟨rest, hrest, rfl⟩
    exact ⟨hrest, rfl⟩
  · rintro ⟨hrest, hps⟩
    exact ⟨e'.1, hrest, Prod.ext rfl hps⟩

theorem nodup_left (b : Bundle) (base : List String) :
    ((b.entries.filterMap (left? base)).map Prod.fst).Nodup := by
  have hkeys : b.entries.Pairwise fun e e' => e.1 ≠ e'.1 := List.pairwise_map.1 b.nodup
  refine List.pairwise_map.2 (List.Pairwise.filterMap _ (fun e e' hne x hx y hy heq => ?_) hkeys)
  have hx := (left?_eq_some.1 hx).1
  have hy := (left?_eq_some.1 hy).1
  rw [heq] at hx
  exact hne (Path.behind?_inj hx hy)

/-- The entries below some names, under what is left of their keys. -/
def under (b : Bundle) (base : List String) : Bundle :=
  ⟨b.entries.filterMap (left? base), b.nodup_left base⟩

variable {b : Bundle} {base : List String} {e : String × Properties} {key : String}

theorem entries_under (b : Bundle) (base : List String) :
    (b.under base).entries = b.entries.filterMap (left? base) := rfl

theorem mem_entries_under : e ∈ (b.under base).entries ↔
    ∃ key, (key, e.2) ∈ b.entries ∧ Path.behind? base key = some e.1 := by
  rw [under, List.mem_filterMap]
  constructor
  · rintro ⟨⟨key, ps⟩, he, hleft⟩
    obtain ⟨hrest, rfl⟩ := left?_eq_some.1 hleft
    exact ⟨key, he, hrest⟩
  · rintro ⟨key, he, hrest⟩
    exact ⟨_, he, left?_eq_some.2 ⟨hrest, rfl⟩⟩

theorem mem_keys_under {rest : String} : rest ∈ (b.under base).keys ↔
    ∃ key ∈ b.keys, Path.behind? base key = some rest := by
  constructor
  · intro h
    obtain ⟨e, he, rfl⟩ := List.mem_map.1 h
    obtain ⟨key, hkey, hrest⟩ := mem_entries_under.1 he
    exact ⟨key, List.mem_map_of_mem hkey, hrest⟩
  · rintro ⟨key, hkey, hrest⟩
    obtain ⟨e, he, rfl⟩ := List.mem_map.1 hkey
    exact List.mem_map.2 ⟨(rest, e.2), mem_entries_under.2 ⟨e.1, he, hrest⟩, rfl⟩

theorem under_nil (b : Bundle) : b.under [] = b := OrderedMap.ext List.filterMap_some

theorem under_append (b : Bundle) (base more : List String) :
    b.under (base ++ more) = (b.under base).under more := by
  have hentries : b.entries.filterMap (left? (base ++ more)) =
      (b.entries.filterMap (left? base)).filterMap (left? more) := by
    rw [List.filterMap_filterMap]
    refine List.filterMap_congr fun e _ => ?_
    rw [left?, left?, Path.behind?_append]
    cases Path.behind? base e.1 <;> rfl
  exact OrderedMap.ext hentries

/-- The nodes below some names down to a number of generations, by their names: each before those
below it, siblings in the order of the bundle. A node that several keys spell comes with each. -/
def unrolled (b : Bundle) : Nat → List String → Outline
  | 0, _ => []
  | n + 1, base =>
    (b.under base).entries.flatMap fun e =>
      match Path.names e.1 with
      | [name] => (base ++ [name], e.2) :: unrolled b n (base ++ [name])
      | _ => []

end Bundle

namespace Expansion

variable {cs : List NodeState} {below : NodeState → Expansion}

theorem foldl_append_of_failure {before : Expansion} {e : Failure} (h : before.failure = some e) :
    cs.foldl (fun before c => Expansion.append before (.append ⟨[c], none⟩ (below c))) before =
      before := by
  have hkept (x : Expansion) : Expansion.append before x = before := by
    rw [Expansion.append, h]
  induction cs with
  | nil => rfl
  | cons c cs ih =>
    rw [List.foldl_cons, hkept]
    exact ih

/-- Unfolding nodes one after the other fails as the first of them that does. -/
theorem failure_foldl_append {before : Expansion} (h : before.failure = none) :
    (cs.foldl (fun before c => Expansion.append before (.append ⟨[c], none⟩ (below c)))
      before).failure = cs.findSome? fun c => (below c).failure := by
  induction cs generalizing before with
  | nil => exact h
  | cons c cs ih =>
    obtain ⟨states, failure⟩ := before
    cases h
    rw [List.foldl_cons, List.findSome?_cons]
    cases hc : (below c).failure with
    | none => exact ih hc
    | some e =>
      have hfailed : ((⟨states, none⟩ : Expansion).append (.append ⟨[c], none⟩ (below c))).failure =
          some e := hc
      rw [foldl_append_of_failure hfailed, hfailed]

theorem foldl_append_complete {cs : List NodeState} {below : NodeState → Expansion}
    (h : ∀ c ∈ cs, (below c).failure = none) (states : List NodeState) :
    cs.foldl (fun before c => Expansion.append before (.append ⟨[c], none⟩ (below c)))
        ⟨states, none⟩ =
      ⟨states ++ cs.flatMap fun c => c :: (below c).states, none⟩ := by
  induction cs generalizing states with
  | nil => simp
  | cons c cs ih =>
    have hstep : (⟨states, none⟩ : Expansion).append (.append ⟨[c], none⟩ (below c)) =
        ⟨states ++ c :: (below c).states, none⟩ := by
      have hc := h c List.mem_cons_self
      simp [Expansion.append, hc]
    rw [List.foldl_cons, hstep, ih fun x hx => h x (List.mem_cons_of_mem c hx)]
    simp

end Expansion

namespace NodeState

variable {s : NodeState} {base : List String} {ps : Properties} {n : Nat}

/-- The state of a node below another one, by its names and its properties. -/
def below (s : NodeState) (base : List String) (properties : Properties) : NodeState :=
  { s with path := base.foldl Path.join s.path, properties, bundled := s.bundled.under base }

theorem below_nil (s : NodeState) : s.below [] s.properties = s := by
  rw [below, Bundle.under_nil, List.foldl_nil]

theorem bundledBelow_eq_under (s : NodeState) (name : String) :
    s.bundledBelow name = s.bundled.under [name] := by
  have hentries : (s.bundled.entries.filterMap fun e =>
      if Path.beginsWith (name ++ "/") e.1 then
        some (String.ofList (e.1.toList.drop (name.length + 1)), e.2)
      else none) = (s.bundled.under [name]).entries := by
    refine List.filterMap_congr fun e _ => ?_
    by_cases hbegins : Path.beginsWith (name ++ "/") e.1 = true
    · simp only [Bundle.left?, Path.behind?, hbegins, if_true, Option.map_some]
    · simp only [Bundle.left?, Path.behind?, hbegins, Bool.false_eq_true, if_false,
        Option.map_none]
  apply OrderedMap.ext
  refine (congrArg (fun es => (OrderedMap.ofList es).entries) hentries).trans ?_
  exact OrderedMap.entries_ofList (s.bundled.under [name]).nodup

theorem child_below (s : NodeState) (base : List String) (ps : Properties) (name : String)
    (ps' : Properties) : (s.below base ps).child name ps' = s.below (base ++ [name]) ps' := by
  rw [child, bundledBelow_eq_under, below, below, Bundle.under_append, List.foldl_append]
  rfl

/-- An entry has its place if some entry beside it is the node of its first name. -/
theorem isOrphan_below {rest : String} : (s.below base ps).isOrphan rest = false ↔
    ∃ name ns, Path.names rest = name :: ns ∧
      ∃ key ∈ (s.bundled.under base).keys, Path.names key = [name] := by
  have hnames (name : String) : name ∈ (s.below base ps).bundledNames ↔
      ∃ key ∈ (s.bundled.under base).keys, Path.names key = [name] := by
    rw [bundledNames, List.mem_filterMap]
    refine exists_congr fun key => and_congr_right fun _ => ?_
    constructor
    · intro h
      split at h
      · rename_i first hfirst
        cases h
        exact hfirst
      · cases h
    · intro h
      rw [h]
  rw [isOrphan]
  cases hrest : Path.names rest with
  | nil => simp
  | cons name ns =>
    dsimp only
    rw [Bool.not_eq_false', List.contains_iff_mem, hnames]
    constructor
    · exact fun h => ⟨name, ns, rfl, h⟩
    · rintro ⟨_, _, ⟨⟩, h⟩
      exact h

/-- The bundled nodes right below some names, each for a key that is one name. -/
def offspring (s : NodeState) (base : List String) : List NodeState :=
  (s.bundled.under base).entries.filterMap fun e =>
    match Path.names e.1 with
    | [name] => some (s.below (base ++ [name]) e.2)
    | _ => none

theorem mem_offspring {c : NodeState} : c ∈ s.offspring base ↔
    ∃ e ∈ (s.bundled.under base).entries, ∃ name, Path.names e.1 = [name] ∧
      c = s.below (base ++ [name]) e.2 := by
  rw [offspring, List.mem_filterMap]
  refine exists_congr fun e => and_congr_right fun _ => ?_
  constructor
  · intro h
    split at h
    · rename_i name hname
      cases h
      exact ⟨name, hname, rfl⟩
    · cases h
  · rintro ⟨name, hname, rfl⟩
    rw [hname]

theorem children_below (s : NodeState) (base : List String) (ps : Properties) :
    (∃ rest ∈ (s.bundled.under base).keys, (s.below base ps).isOrphan rest = true ∧
      (s.below base ps).children = .error (.unresolved (Path.join (s.below base ps).path rest)
        s.snapshotText (.orphan rest (s.below base ps).path))) ∨
    (∀ rest ∈ (s.bundled.under base).keys, (s.below base ps).isOrphan rest = false) ∧
      (s.below base ps).children = .ok (s.offspring base) := by
  rw [children]
  cases hfind : (s.below base ps).bundled.keys.find? (s.below base ps).isOrphan with
  | some rest =>
    exact .inl ⟨rest, List.mem_of_find?_eq_some hfind, List.find?_some hfind, rfl⟩
  | none =>
    refine .inr ⟨fun rest hrest => by simpa using List.find?_eq_none.1 hfind rest hrest, ?_⟩
    rw [offspring]
    refine congrArg Except.ok (List.filterMap_congr fun e _ => ?_)
    rcases hnames : Path.names e.1 with _ | ⟨name, _ | ⟨_, _⟩⟩
    · simp only [hnames]
    · simp only [hnames, child_below]
    · simp only [hnames]

/-- How far the unfolding of a node came that did not fail. -/
theorem of_generations_succ (h : (generations (n + 1) (s.below base ps)).failure = none) :
    (∀ rest ∈ (s.bundled.under base).keys, (s.below base ps).isOrphan rest = false) ∧
    (∀ c ∈ s.offspring base, (generations n c).failure = none) ∧
    (generations (n + 1) (s.below base ps)).states =
      (s.offspring base).flatMap fun c => c :: (generations n c).states := by
  rw [generations] at h ⊢
  rcases children_below s base ps with ⟨rest, -, -, hchildren⟩ | ⟨hplaced, hchildren⟩
  · rw [hchildren] at h
    cases h
  · rw [hchildren] at h ⊢
    dsimp only at h ⊢
    rw [Expansion.failure_foldl_append rfl, List.findSome?_eq_none_iff] at h
    rw [Expansion.foldl_append_complete h]
    exact ⟨hplaced, h, rfl⟩

/-- An unfolding that does not fail goes through the tree of names. -/
theorem states_generations (h : (generations n (s.below base ps)).failure = none) :
    (generations n (s.below base ps)).states =
      (s.bundled.unrolled n base).map fun e => s.below e.1 e.2 := by
  induction n generalizing base ps with
  | zero => rfl
  | succ n ih =>
    obtain ⟨-, hoffspring, hstates⟩ := of_generations_succ h
    rw [hstates, Bundle.unrolled, List.map_flatMap, offspring, List.filterMap_eq_flatMap_toList,
      List.flatMap_assoc]
    refine List.flatMap_congr fun e he => ?_
    split
    · rename_i name hname
      have hchild := hoffspring _ (mem_offspring.2 ⟨e, he, name, hname, rfl⟩)
      simp only [Option.toList_some, List.flatMap_singleton, List.map_cons, ih hchild]
    · rfl

/-- An unfolding that fails came to an entry without a place. -/
theorem failure_generations {e : Failure}
    (h : (generations n (s.below base ps)).failure = some e) :
    ∃ more ps' rest, rest ∈ (s.bundled.under (base ++ more)).keys ∧
      (s.below (base ++ more) ps').isOrphan rest = true ∧ (∀ name ∈ more, Path.IsName name) ∧
      e = .unresolved (Path.join ((base ++ more).foldl Path.join s.path) rest) s.snapshotText
        (.orphan rest ((base ++ more).foldl Path.join s.path)) := by
  induction n generalizing base ps with
  | zero => cases h
  | succ n ih =>
    rw [generations] at h
    rcases children_below s base ps with ⟨rest, hrest, horphan, hchildren⟩ | ⟨-, hchildren⟩
    · rw [hchildren] at h
      cases h
      refine ⟨[], ps, rest, ?_⟩
      rw [List.append_nil]
      exact ⟨hrest, horphan, List.forall_mem_nil _, rfl⟩
    · rw [hchildren] at h
      dsimp only at h
      rw [Expansion.failure_foldl_append rfl] at h
      obtain ⟨c, hc, hfailure⟩ := List.exists_of_findSome?_eq_some h
      obtain ⟨x, -, name, hname, rfl⟩ := mem_offspring.1 hc
      obtain ⟨more, ps', rest, hrest, horphan, hmore, rfl⟩ := ih hfailure
      have hisName : Path.IsName name :=
        Path.isName_of_mem_names (hname ▸ List.mem_singleton_self name)
      rw [List.append_assoc, List.singleton_append] at hrest horphan ⊢
      exact ⟨name :: more, ps', rest, hrest, horphan, List.forall_mem_cons.2 ⟨hisName, hmore⟩, rfl⟩

theorem length_lt_depthBound {key : String} (h : key ∈ s.bundled.keys) :
    key.length < s.depthBound := by
  have hsum (keys : List String) (h : key ∈ keys) :
      key.length < keys.foldr (fun key bound => key.length + bound) 1 := by
    induction keys with
    | nil => cases h
    | cons k keys ih =>
      rw [List.foldr_cons]
      rcases List.mem_cons.1 h with rfl | h
      · have hpositive (keys : List String) :
            0 < keys.foldr (fun key bound => key.length + bound) 1 := by
          induction keys with
          | nil => exact Nat.one_pos
          | cons k keys ih => exact Nat.add_pos_right _ ih
        exact Nat.lt_add_of_pos_right (hpositive keys)
      · exact Nat.lt_add_left _ (ih h)
  exact hsum _ h

end NodeState

namespace Bundle

variable {b : Bundle} {base : List String} {n : Nat}

/-- Wherever one gets by names, the first name of each key is itself a key. -/
def Unfolds (b : Bundle) : Prop :=
  ∀ base : List String, (∀ name ∈ base, Path.IsName name) → ∀ rest ∈ (b.under base).keys,
    ∃ name ns, Path.names rest = name :: ns ∧ ∃ key ∈ (b.under base).keys, Path.names key = [name]

/-- So many generations are enough for what is below some names. -/
def Within (b : Bundle) (n : Nat) (base : List String) : Prop :=
  ∀ rest ∈ (b.under base).keys, rest.length < n

theorem Within.child (h : b.Within (n + 1) base) (name : String) :
    b.Within n (base ++ [name]) := by
  intro rest hrest
  rw [under_append] at hrest
  obtain ⟨key, hkey, hbehind⟩ := mem_keys_under.1 hrest
  exact Nat.lt_of_lt_of_le (Path.length_behind?_lt hbehind) (Nat.le_of_lt_succ (h key hkey))

end Bundle

namespace NodeState

variable {s : NodeState} {base more : List String} {ps : Properties} {n : Nat} {rest : String}

theorem within_depthBound (s : NodeState) : s.bundled.Within s.depthBound [] := by
  rw [Bundle.Within, Bundle.under_nil]
  exact fun key hkey => length_lt_depthBound hkey

/-- If an unfolding comes to its end, each entry that it comes across has its place. -/
theorem isOrphan_of_complete (h : (generations n (s.below base ps)).failure = none)
    (hn : s.bundled.Within n base) (hmore : ∀ name ∈ more, Path.IsName name)
    (hrest : rest ∈ (s.bundled.under (base ++ more)).keys) (ps' : Properties) :
    (s.below (base ++ more) ps').isOrphan rest = false := by
  -- The first name is that of a child, and what is below the child unfolds to its end as well.
  induction more generalizing n base ps with
  | nil =>
    rw [List.append_nil] at hrest ⊢
    cases n with
    | zero => exact absurd (hn rest hrest) (Nat.not_lt_zero _)
    | succ n => exact isOrphan_below.2 (isOrphan_below.1 ((of_generations_succ h).1 rest hrest))
  | cons name more ih =>
    obtain ⟨hname, hmore⟩ := List.forall_mem_cons.1 hmore
    have hassoc : base ++ name :: more = (base ++ [name]) ++ more := by simp
    obtain ⟨x, hx, hbehind⟩ : ∃ x ∈ (s.bundled.under base).keys,
        Path.behind? (name :: more) x = some rest := by
      rw [Bundle.under_append] at hrest
      exact Bundle.mem_keys_under.1 hrest
    cases n with
    | zero => exact absurd (hn x hx) (Nat.not_lt_zero _)
    | succ n =>
      obtain ⟨hplaced, hoffspring, -⟩ := of_generations_succ h
      have hnames := Path.names_of_behind? (List.forall_mem_cons.2 ⟨hname, hmore⟩) hbehind
      obtain ⟨first, ns, hfirst, key, hkey, hspells⟩ := isOrphan_below.1 (hplaced x hx)
      rw [hnames, List.cons_append] at hfirst
      cases hfirst
      obtain ⟨e, he, rfl⟩ := List.mem_map.1 hkey
      have hchild := hoffspring _ (mem_offspring.2 ⟨e, he, name, hspells, rfl⟩)
      rw [hassoc] at hrest ⊢
      exact ih hchild (hn.child name) hmore hrest

theorem descendants_below (s : NodeState) :
    s.descendants = generations s.depthBound (s.below [] s.properties) := by
  rw [below_nil]
  rfl

/-- The descendants are all there exactly if the bundle unfolds. -/
theorem failure_descendants_eq_none : s.descendants.failure = none ↔ s.bundled.Unfolds := by
  rw [descendants_below]
  constructor
  · intro h base hbase rest hrest
    exact isOrphan_below.1
      (isOrphan_of_complete h s.within_depthBound hbase hrest s.properties)
  · intro h
    cases hfailure : (generations s.depthBound (s.below [] s.properties)).failure with
    | none => rfl
    | some e =>
      obtain ⟨more, ps, rest, hrest, horphan, hmore, -⟩ := failure_generations hfailure
      rw [List.nil_append] at hrest horphan
      rw [isOrphan_below.2 (h more hmore rest hrest)] at horphan
      cases horphan

theorem states_descendants (h : s.bundled.Unfolds) :
    s.descendants.states = (s.bundled.unrolled s.depthBound []).map fun e => s.below e.1 e.2 := by
  have hcomplete := failure_descendants_eq_none.2 h
  rw [descendants_below] at hcomplete ⊢
  exact states_generations hcomplete

end NodeState

end VersionedTree
