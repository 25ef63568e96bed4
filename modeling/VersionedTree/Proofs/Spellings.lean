import VersionedTree.Proofs.Branches
import Mathlib.Algebra.BigOperators.Group.List.Basic
import Mathlib.Algebra.GroupWithZero.Nat
import Mathlib.Data.Multiset.Bind

/-! # Bundles that spell a node twice

Slashes that stand at the start of a key, at its end or side by side leave its names as they are, so
different keys can spell the same node. Each of them is delivered, and each delivers what lies below
the node. What lies below is told by the text of the key: a key whose outer names are not followed
by one slash each is below no node. Unfolding a bundle thus drops keys and repeats others, unless
the bundle is regular.
-/

namespace VersionedTree

namespace Path

/-- The text begins with its names but the last, a slash after each. -/
def IsPlaced (text : String) : Prop := (behind? (names text).dropLast text).isSome

instance (text : String) : Decidable (IsPlaced text) := inferInstanceAs (Decidable (_ = true))

/-- The node right below some names that the text spells. -/
def spelled? (base : List String) (text : String) : Option String :=
  (behind? base text).bind fun rest =>
    match names rest with
    | [name] => some name
    | _ => none

theorem spelled?_eq_some {base : List String} {text name : String} :
    spelled? base text = some name ↔
      ∃ rest, behind? base text = some rest ∧ names rest = [name] := by
  rw [spelled?, Option.bind_eq_some_iff]
  refine exists_congr fun rest => and_congr_right fun _ => ?_
  constructor
  · intro h
    split at h
    · rename_i first hfirst
      cases h
      exact hfirst
    · cases h
  · intro h
    rw [h]

/-- The texts that spell a node are those that are placed and have its names. -/
theorem spelled?_iff {base : List String} (hbase : ∀ n ∈ base, IsName n) {text name : String} :
    spelled? base text = some name ↔ IsPlaced text ∧ names text = base ++ [name] := by
  rw [spelled?_eq_some, IsPlaced]
  constructor
  · rintro ⟨rest, hrest, hname⟩
    have hnames := names_of_behind? hbase hrest
    rw [hname] at hnames
    rw [hnames, List.dropLast_concat, hrest]
    exact ⟨rfl, rfl⟩
  · rintro ⟨hplaced, hnames⟩
    rw [hnames, List.dropLast_concat] at hplaced
    obtain ⟨rest, hrest⟩ := Option.isSome_iff_exists.1 hplaced
    have hall := names_of_behind? hbase hrest
    rw [hnames, List.append_cancel_left_eq] at hall
    exact ⟨rest, hrest, hall.symm⟩

theorem isName_of_spelled? {base : List String} {text name : String}
    (h : spelled? base text = some name) : IsName name := by
  obtain ⟨rest, -, hname⟩ := spelled?_eq_some.1 h
  exact isName_of_mem_names (hname ▸ List.mem_singleton_self name)

theorem isPlaced_of_names_eq_singleton {text name : String} (h : names text = [name]) :
    IsPlaced text := by
  rw [IsPlaced, h]
  rfl

/-- A text is placed if it begins with its first name and what is left is placed. -/
theorem isPlaced_iff {text first second : String} {ns : List String}
    (h : names text = first :: second :: ns) :
    IsPlaced text ↔ ∃ rest, behind? [first] text = some rest ∧ IsPlaced rest := by
  have hsplit : (names text).dropLast = [first] ++ (second :: ns).dropLast := by
    rw [h]
    rfl
  rw [IsPlaced, hsplit, behind?_append]
  cases hrest : behind? [first] text with
  | none => simp
  | some rest =>
    simp [IsPlaced, names_of_behind?_first h hrest]

theorem IsPlaced.exists_behind? {text : String} (h : IsPlaced text) {more ns : List String}
    (hnames : names text = more ++ ns) (hne : ns ≠ []) :
    ∃ rest, behind? more text = some rest ∧ names rest = ns := by
  have hmore : ∀ n ∈ more, IsName n := fun n hn =>
    isName_of_mem_names (hnames ▸ List.mem_append_left ns hn)
  rw [IsPlaced, hnames, List.dropLast_append_of_ne_nil hne, behind?_append] at h
  cases hrest : behind? more text with
  | none =>
    rw [hrest] at h
    cases h
  | some rest =>
    have hall := names_of_behind? hmore hrest
    rw [hnames, List.append_cancel_left_eq] at hall
    exact ⟨rest, rfl, hall.symm⟩

end Path

namespace Bundle

variable {b : Bundle} {base : List String} {key name : String}

/-- How many keys spell a node right below some names. -/
def spellings (b : Bundle) (base : List String) (name : String) : Nat :=
  b.keys.countP fun key => Path.spelled? base key = some name

/-- How often a key of these names below some others is delivered: once for each way in which keys
spell the nodes above it. -/
def copies (b : Bundle) : List String → List String → Nat
  | _, [] => 0
  | _, [_] => 1
  | base, name :: ns => b.spellings base name * copies b (base ++ [name]) ns

theorem copies_cons_cons (first second : String) (ns : List String) :
    b.copies base (first :: second :: ns) =
      b.spellings base first * b.copies (base ++ [first]) (second :: ns) := rfl

/-- How often a key is delivered below some names. -/
def share (b : Bundle) (base : List String) (key : String) : Nat :=
  match Path.behind? base key with
  | some rest => if Path.IsPlaced rest then b.copies base (Path.names rest) else 0
  | none => 0

/-- How often a key is delivered. -/
def deliveries (b : Bundle) (key : String) : Nat := b.share [] key

theorem sum_map_spelled (keys : List String) (base : List String) (name : String)
    {g : String → Nat} (h : ∀ other, Path.IsName other → other ≠ name → g other = 0) :
    (keys.map fun key => (Path.spelled? base key).elim 0 g).sum =
      (keys.countP fun key => Path.spelled? base key = some name) * g name := by
  induction keys with
  | nil => simp
  | cons key keys ih =>
    rw [List.map_cons, List.sum_cons, ih, List.countP_cons, Nat.add_mul, Nat.add_comm]
    congr 1
    cases hkey : Path.spelled? base key with
    | none => simp
    | some other =>
      by_cases hother : other = name
      · simp [hother]
      · simp [hother, h other (Path.isName_of_spelled? hkey) hother]

theorem share_eq_zero (h : Path.behind? base key = none) : b.share base key = 0 := by
  rw [share, h]

theorem share_append {rest : String} (more : List String)
    (h : Path.behind? base key = some rest) :
    b.share (base ++ more) key = match Path.behind? more rest with
      | some rest => if Path.IsPlaced rest then b.copies (base ++ more) (Path.names rest) else 0
      | none => 0 := by
  rw [share, Path.behind?_append, h]
  rfl

theorem share_of_ne {rest first other : String} {ns : List String}
    (h : Path.behind? base key = some rest) (hnames : Path.names rest = first :: ns)
    (hother : Path.IsName other) (hne : other ≠ first) : b.share (base ++ [other]) key = 0 := by
  refine share_eq_zero ?_
  rw [Path.behind?_append, h, Option.bind_some]
  cases hx : Path.behind? [other] rest with
  | none => rfl
  | some x =>
    have hsplit := Path.names_of_behind? (List.forall_mem_singleton.2 hother) hx
    rw [hnames] at hsplit
    exact absurd (List.cons.inj hsplit).1.symm hne

section Step

variable {rest first : String} {ns : List String}

theorem share_of_name (h : Path.behind? base key = some rest) (hnames : Path.names rest = [first]) :
    b.share base key = 1 ∧ b.share (base ++ [first]) key = 0 := by
  constructor
  · simp only [share, h, if_pos (Path.isPlaced_of_names_eq_singleton hnames), hnames, copies]
  · rw [share_append _ h]
    cases hx : Path.behind? [first] rest with
    | none => rfl
    | some x => simp only [Path.names_of_behind?_first hnames hx, copies, ite_self]

/-- Any other key is delivered as often as all that spell its first name deliver it. -/
theorem share_of_names {second : String} (h : Path.behind? base key = some rest)
    (hnames : Path.names rest = first :: second :: ns) :
    b.share base key = b.spellings base first * b.share (base ++ [first]) key := by
  have hself : b.share base key =
      if Path.IsPlaced rest then b.copies base (first :: second :: ns) else 0 := by
    simp only [share, h, hnames]
  have hplaced := Path.isPlaced_iff hnames
  rw [hself, share_append _ h, copies_cons_cons]
  cases hx : Path.behind? [first] rest with
  | none => simp [hplaced, hx]
  | some x => simp [hplaced, hx, Path.names_of_behind?_first hnames hx]

/-- A key is delivered for itself where it is the key of a node, and else by all the keys that spell
its first name. -/
theorem share_eq (h : ∀ rest, Path.behind? base key = some rest → Path.names rest ≠ []) :
    b.share base key = (if (Path.spelled? base key).isSome then 1 else 0) +
      (b.keys.map fun other => (Path.spelled? base other).elim 0 fun name =>
        b.share (base ++ [name]) key).sum := by
  cases hkey : Path.behind? base key with
  | none =>
    have hzero (name : String) : b.share (base ++ [name]) key = 0 :=
      share_eq_zero (by rw [Path.behind?_append, hkey]; rfl)
    have hspelled : Path.spelled? base key = none := by
      rw [Path.spelled?, hkey]
      rfl
    rw [share_eq_zero hkey, hspelled, sum_map_spelled _ _ "" fun name _ _ => hzero name, hzero]
    rfl
  | some rest =>
    obtain ⟨first, ns, hnames⟩ := List.exists_cons_of_ne_nil (h rest hkey)
    rw [sum_map_spelled _ _ first fun other => share_of_ne hkey hnames]
    cases ns with
    | nil =>
      have hspelled : Path.spelled? base key = some first :=
        Path.spelled?_eq_some.2 ⟨rest, hkey, hnames⟩
      rw [(share_of_name hkey hnames).1, (share_of_name hkey hnames).2, hspelled]
      rfl
    | cons second ns =>
      have hspelled : Path.spelled? base key = none := by
        simp only [Path.spelled?, hkey, Option.bind_some, hnames]
      rw [share_of_names hkey hnames, hspelled, spellings]
      exact (Nat.zero_add _).symm

end Step

theorem unrolled_succ (b : Bundle) (n : Nat) (base : List String) :
    b.unrolled (n + 1) base = b.entries.flatMap fun e =>
      (Path.spelled? base e.1).elim [] fun name =>
        (base ++ [name], e.2) :: b.unrolled n (base ++ [name]) := by
  rw [unrolled, entries_under, List.filterMap_eq_flatMap_toList, List.flatMap_assoc]
  refine List.flatMap_congr fun e _ => ?_
  rw [left?, Path.spelled?]
  cases Path.behind? base e.1 with
  | none => rfl
  | some rest =>
    simp only [Option.map_some, Option.toList_some, List.flatMap_singleton, Option.bind_some]
    rcases Path.names rest with _ | ⟨name, _ | ⟨_, _⟩⟩ <;> rfl

theorem bind_replicate {α β : Type} (l : List α) (f : α → Nat) (x : β) :
    ((l : Multiset α).bind fun a => Multiset.replicate (f a) x) =
      Multiset.replicate (l.map f).sum x := by
  induction l with
  | nil => rfl
  | cons a l ih =>
    rw [← Multiset.cons_coe, Multiset.cons_bind, ih, List.map_cons, List.sum_cons,
      Multiset.replicate_add]

/-- How often each entry comes when a bundle unfolds. -/
theorem coe_unrolled (hb : b.Unfolds) {n : Nat} (hn : b.Within n base)
    (hbase : ∀ name ∈ base, Path.IsName name) :
    (b.unrolled n base : Multiset (List String × Properties)) =
      (b.entries : Multiset (String × Properties)).bind fun e =>
        Multiset.replicate (b.share base e.1) (Path.names e.1, e.2) := by
  induction n generalizing base with
  | zero =>
    -- What is left of a key gets shorter with each generation, so here no key is left.
    have hzero : ∀ e ∈ (b.entries : Multiset (String × Properties)),
        Multiset.replicate (b.share base e.1) (Path.names e.1, e.2) = 0 := by
      intro e he
      cases hrest : Path.behind? base e.1 with
      | none =>
        rw [share_eq_zero hrest]
        rfl
      | some rest =>
        have hkey := mem_keys_under.2 ⟨e.1, List.mem_map_of_mem (Multiset.mem_coe.1 he), hrest⟩
        exact absurd (hn rest hkey) (Nat.not_lt_zero _)
    rw [Multiset.bind_congr hzero, Multiset.bind_zero]
    rfl
  | succ n ih =>
    -- An entry adds itself if it is a child, and then all that lies below the child. Counted by
    -- what is added, this is the equation of `share`.
    have hself (e : String × Properties) :
        (((Path.spelled? base e.1).elim [] fun name =>
          (base ++ [name], e.2) :: b.unrolled n (base ++ [name]) : Outline) :
            Multiset (List String × Properties)) =
        Multiset.replicate (if (Path.spelled? base e.1).isSome then 1 else 0)
            (Path.names e.1, e.2) +
          (b.entries : Multiset (String × Properties)).bind fun other =>
            Multiset.replicate ((Path.spelled? base e.1).elim 0 fun name =>
              b.share (base ++ [name]) other.1) (Path.names other.1, other.2) := by
      cases hname : Path.spelled? base e.1 with
      | none => simp
      | some name =>
        obtain ⟨rest, hrest, hnames⟩ := Path.spelled?_eq_some.1 hname
        have hall := Path.names_of_behind? hbase hrest
        have hmore : ∀ n ∈ base ++ [name], Path.IsName n :=
          List.forall_mem_append.2
            ⟨hbase, List.forall_mem_singleton.2 (Path.isName_of_spelled? hname)⟩
        rw [Option.elim_some, ← Multiset.cons_coe, ih (hn.child name) hmore, hall, hnames]
        rfl
    rw [unrolled_succ, ← Multiset.coe_bind, Multiset.bind_congr fun e _ => hself e,
      Multiset.bind_add, Multiset.bind_bind, ← Multiset.bind_add]
    refine Multiset.bind_congr fun e he => ?_
    have hne (rest : String) (hrest : Path.behind? base e.1 = some rest) :
        Path.names rest ≠ [] := by
      obtain ⟨first, ns, hnames, -⟩ := hb base hbase rest
        (mem_keys_under.2 ⟨e.1, List.mem_map_of_mem (Multiset.mem_coe.1 he), hrest⟩)
      exact hnames ▸ List.cons_ne_nil _ _
    rw [bind_replicate, ← Multiset.replicate_add, share_eq hne, OrderedMap.keys, List.map_map]
    rfl

/-- Every node that has a key below it, told by names, is spelled once: all keys begin with their
outer names, a slash after each, and no two keys spell a node that is above a key. -/
structure IsRegular (b : Bundle) : Prop where
  placed : ∀ key ∈ b.keys, Path.IsPlaced key
  unique : ∀ key ∈ b.keys, ∀ outer ∈ b.keys, ∀ other ∈ b.keys,
    Path.names outer = Path.names other → Path.names outer <+: Path.names key →
      Path.names outer ≠ Path.names key → outer = other

instance (b : Bundle) : Decidable b.IsRegular :=
  decidable_of_iff (_ ∧ _) ⟨fun h => ⟨h.1, h.2⟩, fun h => ⟨h.placed, h.unique⟩⟩

theorem copies_eq_one_iff {ns : List String} (hne : ns ≠ []) : b.copies base ns = 1 ↔
    ∀ more name next ns', ns = more ++ name :: next :: ns' →
      b.spellings (base ++ more) name = 1 := by
  induction ns generalizing base with
  | nil => exact absurd rfl hne
  | cons first ns ih =>
    cases ns with
    | nil =>
      refine iff_of_true rfl fun more name next ns' h => ?_
      have hlength := congrArg List.length h
      simp at hlength
      omega
    | cons second ns =>
      rw [copies_cons_cons, mul_eq_one, ih (List.cons_ne_nil _ _)]
      constructor
      · rintro ⟨hfirst, hmore⟩ more name next ns' h
        cases more with
        | nil =>
          cases h
          rwa [List.append_nil]
        | cons m more =>
          obtain ⟨rfl, htail⟩ := List.cons.inj h
          rw [List.append_cons]
          exact hmore more name next ns' htail
      · intro h
        refine ⟨?_, fun more name next ns' hns => ?_⟩
        · have hfirst := h [] first second ns rfl
          rwa [List.append_nil] at hfirst
        · rw [← List.append_cons]
          exact h (first :: more) name next ns' (by rw [hns, List.cons_append])

theorem spellings_eq_one_iff : b.spellings base name = 1 ↔
    ∃ key ∈ b.keys, Path.spelled? base key = some name ∧
      ∀ other ∈ b.keys, Path.spelled? base other = some name → other = key := by
  let spelt := b.keys.filter fun key => decide (Path.spelled? base key = some name)
  have hspelt : b.spellings base name = spelt.length := List.countP_eq_length_filter
  have hmem (key : String) : key ∈ spelt ↔ key ∈ b.keys ∧ Path.spelled? base key = some name := by
    rw [List.mem_filter, decide_eq_true_iff]
  have hnodup : spelt.Nodup := b.nodup.filter _
  rw [hspelt, List.length_eq_one_iff]
  constructor
  · rintro ⟨key, hkey⟩
    rw [hkey] at hmem
    obtain ⟨hb, hname⟩ := (hmem key).1 (List.mem_singleton_self key)
    exact ⟨key, hb, hname, fun other ho h => List.mem_singleton.1 ((hmem other).2 ⟨ho, h⟩)⟩
  · rintro ⟨key, hb, hname, hunique⟩
    refine ⟨key, List.perm_singleton.1 ?_⟩
    rw [List.perm_ext_iff_of_nodup hnodup (List.nodup_singleton key)]
    intro other
    rw [hmem, List.mem_singleton]
    constructor
    · exact fun h => hunique other h.1 h.2
    · rintro rfl
      exact ⟨hb, hname⟩

theorem deliveries_eq (b : Bundle) (key : String) : b.deliveries key =
    if Path.IsPlaced key then b.copies [] (Path.names key) else 0 := rfl

/-- A bundle that unfolds delivers each key once exactly if it is regular. -/
theorem deliveries_eq_one_iff (hb : b.Unfolds) :
    (∀ key ∈ b.keys, b.deliveries key = 1) ↔ b.IsRegular := by
  have hname {key : String} {more ns : List String} (h : Path.names key = more ++ ns) :
      ∀ n ∈ more, Path.IsName n := fun n hn =>
    Path.isName_of_mem_names (h ▸ List.mem_append_left ns hn)
  have hne {key : String} (hkey : key ∈ b.keys) : Path.names key ≠ [] := by
    obtain ⟨first, ns, hnames, -⟩ := hb [] (List.forall_mem_nil _) key (by rwa [under_nil])
    exact hnames ▸ List.cons_ne_nil first ns
  constructor
  · intro hone
    have hplaced : ∀ key ∈ b.keys, Path.IsPlaced key := by
      intro key hkey
      by_contra hnot
      have hzero := hone key hkey
      rw [deliveries_eq, if_neg hnot] at hzero
      cases hzero
    refine ⟨hplaced, fun key hkey outer houter other hother heq habove hproper => ?_⟩
    obtain ⟨more, name, hmore⟩ : ∃ more name, Path.names outer = more ++ [name] :=
      ⟨_, _, (List.dropLast_append_getLast (hne houter)).symm⟩
    obtain ⟨rest, hrest⟩ := habove
    cases rest with
    | nil => exact absurd (by rw [← hrest, List.append_nil]) hproper
    | cons next ns =>
      rw [hmore, List.append_assoc] at hrest
      have hcopies := hone key hkey
      rw [deliveries_eq, if_pos (hplaced key hkey), copies_eq_one_iff (hne hkey)] at hcopies
      obtain ⟨first, -, -, hunique⟩ :=
        spellings_eq_one_iff.1 (hcopies more name next ns hrest.symm)
      have houter' := (Path.spelled?_iff (hname hmore)).2 ⟨hplaced outer houter, hmore⟩
      have hother' :=
        (Path.spelled?_iff (hname hmore)).2 ⟨hplaced other hother, heq ▸ hmore⟩
      rw [hunique outer houter houter', hunique other hother hother']
  · intro hreg key hkey
    rw [deliveries_eq, if_pos (hreg.placed key hkey), copies_eq_one_iff (hne hkey)]
    intro more name next ns hnames
    rw [List.nil_append]
    have hmore := hname hnames
    -- The bundle unfolds, so some key spells the node; as the bundle is regular, no other does.
    obtain ⟨rest, hrest, hbehind⟩ :=
      (hreg.placed key hkey).exists_behind? hnames (List.cons_ne_nil name _)
    obtain ⟨first, ns', hfirst, x, hx, hspells⟩ :=
      hb more hmore rest (mem_keys_under.2 ⟨key, hkey, hrest⟩)
    rw [hbehind] at hfirst
    cases hfirst
    obtain ⟨outer, houter, hleft⟩ := mem_keys_under.1 hx
    have hspelled := Path.spelled?_eq_some.2 ⟨x, hleft, hspells⟩
    have hinner := ((Path.spelled?_iff hmore).1 hspelled).2
    refine spellings_eq_one_iff.2 ⟨outer, houter, hspelled, fun other hother h => ?_⟩
    have hnames' := ((Path.spelled?_iff hmore).1 h).2
    refine hreg.unique key hkey other hother outer houter (hnames'.trans hinner.symm) ?_ ?_
    · rw [hnames', hnames]
      exact ⟨next :: ns, List.append_assoc _ _ _⟩
    · rw [hnames', hnames]
      intro heq
      cases List.append_cancel_left heq

end Bundle

namespace NodeState

/-- The state that an entry of a bundle stands for. -/
def bundledState (s : NodeState) (e : String × Properties) : NodeState :=
  s.below (Path.names e.1) e.2

variable {s : NodeState}

/-- The descendants of a bundle that unfolds, each entry as often as it is delivered. -/
theorem states_perm (h : s.bundled.Unfolds) :
    s.descendants.states.Perm (s.bundled.entries.flatMap fun e =>
      List.replicate (s.bundled.deliveries e.1) (s.bundledState e)) := by
  have hunrolled := Bundle.coe_unrolled h s.within_depthBound (List.forall_mem_nil _)
  rw [states_descendants h, ← Multiset.coe_eq_coe, ← Multiset.map_coe, hunrolled,
    Multiset.map_bind, ← Multiset.coe_bind]
  refine Multiset.bind_congr fun e _ => ?_
  rw [Multiset.map_replicate]
  rfl

/-- Each key of the bundle is delivered, once and with its properties. -/
def DeliversEach (s : NodeState) : Prop :=
  s.descendants.states.Perm (s.bundled.entries.map s.bundledState)

theorem deliversEach_of_deliveries (h : s.bundled.Unfolds)
    (hone : ∀ key ∈ s.bundled.keys, s.bundled.deliveries key = 1) : s.DeliversEach := by
  have hperm := states_perm h
  rw [List.flatMap_congr (g := fun e => [s.bundledState e]) fun e he => ?_] at hperm
  · rw [DeliversEach, List.map_eq_flatMap]
    exact hperm
  · rw [hone e.1 (List.mem_map_of_mem he)]
    rfl

/-- Where the entries of a bundle stand for different states, each can only be delivered by
itself. -/
theorem deliveries_of_deliversEach (h : s.bundled.Unfolds)
    (hnodup : (s.bundled.entries.map s.bundledState).Nodup) (heach : s.DeliversEach) :
    ∀ key ∈ s.bundled.keys, s.bundled.deliveries key = 1 := by
  intro key hkey
  obtain ⟨e, he, rfl⟩ := List.mem_map.1 hkey
  have hperm := heach.symm.trans (states_perm h)
  have hatMost : s.bundled.deliveries e.1 ≤ 1 :=
    List.nodup_replicate.1 ((List.nodup_flatMap.1 (hperm.nodup hnodup)).1 e he)
  obtain ⟨x, hx, hmem⟩ := List.mem_flatMap.1 (hperm.mem_iff.1 (List.mem_map_of_mem he))
  obtain ⟨hne, hstate⟩ := List.mem_replicate.1 hmem
  obtain rfl := List.inj_on_of_nodup_map hnodup he hx hstate
  omega

/-- The descendants of a node end with a key that has no place, or the bundle delivers each of its
keys exactly if it is regular: an irregular bundle drops the keys that are not placed, and repeats
those below a node that several keys spell. -/
theorem descendants_deliver (s : NodeState) :
    (∃ path cause, s.descendants.failure = some (.unresolved path s.snapshotText cause)) ∨
    s.descendants.failure = none ∧
      (s.descendants.states.Perm (s.bundled.entries.flatMap fun e =>
        List.replicate (s.bundled.deliveries e.1) (s.bundledState e))) ∧
      ((∀ key ∈ s.bundled.keys, s.bundled.deliveries key = 1) ↔ s.bundled.IsRegular) ∧
      (s.bundled.IsRegular → s.DeliversEach) ∧
      ((s.bundled.entries.map s.bundledState).Nodup → s.DeliversEach → s.bundled.IsRegular) := by
  cases hfailure : s.descendants.failure with
  | some e =>
    rw [descendants_below] at hfailure
    obtain ⟨more, ps, rest, -, -, -, rfl⟩ := failure_generations hfailure
    exact .inl ⟨_, _, rfl⟩
  | none =>
    have hb := failure_descendants_eq_none.1 hfailure
    have hone := Bundle.deliveries_eq_one_iff hb
    exact .inr ⟨rfl, states_perm hb, hone,
      fun hregular => deliversEach_of_deliveries hb (hone.2 hregular),
      fun hnodup heach => hone.1 (deliveries_of_deliversEach hb hnodup heach)⟩

/-- A key that has a slash in front is below the node of its first name but not below the key of
this node: it is dropped, although the descendants come to their end. -/
theorem descendants_drop_key :
    let r : Revision := { timestamp := 1, counter := 0, cluster := 1 }
    let s : NodeState :=
      { path := "/p"
        snapshot := some (.ofList [r])
        lastRevision := some r
        properties := []
        bundled := .ofList [("a", []), ("/a/b", [("x", .number 1)])] }
    s.descendants.failure = none ∧ s.descendants.states.map path = ["/p/a"] ∧
      s.bundled.deliveries "/a/b" = 0 ∧ ¬ s.DeliversEach := by
  intro r s
  have hstates : s.descendants.states.map path = ["/p/a"] := by decide +kernel
  refine ⟨by decide +kernel, hstates, by decide +kernel, fun heach => ?_⟩
  have hlength := (heach.map path).length_eq
  rw [hstates] at hlength
  cases hlength

end NodeState

end VersionedTree
