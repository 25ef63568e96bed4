import VersionedTree.NodeState
import VersionedTree.Proofs.Names
import Mathlib.Data.List.Nodup

/-! # The tree in a bundle

The keys of a bundle are relative paths. When the parent of each key is a key itself, the bundle
holds a tree. Its nodes come depth first: every key is followed by the keys below it, and siblings
come in the order of the bundle.
-/

namespace VersionedTree

namespace OrderedMap

variable {β : Type}

theorem putEntry_of_not_mem {key : String} {l : List (String × β)} (h : key ∉ l.map Prod.fst)
    (value : β) : putEntry key value l = l ++ [(key, value)] := by
  induction l with
  | nil => rfl
  | cons e l ih =>
    rw [List.map_cons, List.mem_cons, not_or] at h
    rw [putEntry, if_neg fun heq => h.1 heq.symm, ih h.2, List.cons_append]

theorem entries_foldl_put {l : List (String × β)} {m : OrderedMap β}
    (h : (m.entries.map Prod.fst ++ l.map Prod.fst).Nodup) :
    (l.foldl (fun m (key, value) => m.put key value) m).entries = m.entries ++ l := by
  induction l generalizing m with
  | nil => simp
  | cons e l ih =>
    have hput : (m.put e.1 e.2).entries = m.entries ++ [e] := by
      apply putEntry_of_not_mem
      intro hmem
      exact (List.nodup_append.1 h).2.2 e.1 hmem e.1 (by simp) rfl
    rw [List.foldl_cons, ih]
    · rw [hput, List.append_assoc, List.singleton_append]
    · rw [hput, List.map_append, List.append_assoc]
      exact h

theorem entries_ofList {l : List (String × β)} (h : (l.map Prod.fst).Nodup) :
    (ofList l).entries = l := entries_foldl_put (m := empty) h

end OrderedMap

/-- The nodes of a bundled tree: the names of a relative path, and properties. -/
abbrev Outline := List (List String × Properties)

namespace Outline

/-- A node as it is seen from a node above it, under the names that remain. -/
def from? (base : List String) (e : List String × Properties) :
    Option (List String × Properties) :=
  if base <+: e.1 ∧ e.1 ≠ base then some (e.1.drop base.length, e.2) else none

/-- The nodes below a node. -/
def below (l : Outline) (base : List String) : Outline := l.filterMap (from? base)

/-- The children of a node. -/
def children (l : Outline) (base : List String) : Outline :=
  l.filter fun e => e.1 ≠ [] ∧ e.1.dropLast = base

/-- The nodes below a node down to a number of generations, depth first: each before those below
it, siblings in their order. -/
def preorder (l : Outline) : Nat → List String → Outline
  | 0, _ => []
  | n + 1, base => (l.children base).flatMap fun e => e :: preorder l n e.1

/-- No node lies deeper. -/
def height (l : Outline) : Nat := l.foldr (fun e h => max e.1.length h) 0

/-- The bundle that holds these nodes. -/
def bundle (l : Outline) : Bundle := .ofList (l.map fun e => (Path.relative e.1, e.2))

/-- The nodes make up a tree: each has its place, which no other has, below a node of the tree. -/
structure IsTree (l : Outline) : Prop where
  ne_nil : ∀ e ∈ l, e.1 ≠ []
  isName : ∀ e ∈ l, ∀ n ∈ e.1, Path.IsName n
  nodup : (l.map Prod.fst).Nodup
  closed : ∀ e ∈ l, e.1.dropLast ≠ [] → e.1.dropLast ∈ l.map Prod.fst

variable {l : Outline} {base : List String} {e : List String × Properties}

theorem from?_append (base : List String) (n : String) (ns : List String) (ps : Properties) :
    from? base (base ++ n :: ns, ps) = some (n :: ns, ps) := by
  rw [from?, if_pos, List.drop_left]
  exact ⟨List.prefix_append _ _, fun h => List.cons_ne_nil n ns (List.append_right_eq_self.1 h)⟩

theorem from?_eq_none (h : ∀ n ns, e.1 ≠ base ++ n :: ns) : from? base e = none := by
  rw [from?, if_neg]
  rintro ⟨⟨rest, hrest⟩, hne⟩
  cases rest with
  | nil => exact hne (by rw [← hrest, List.append_nil])
  | cons n ns => exact h n ns hrest.symm

theorem from?_cases (base : List String) (e : List String × Properties) :
    (∃ n ns, e.1 = base ++ n :: ns) ∨ ∀ n ns, e.1 ≠ base ++ n :: ns := by
  by_cases h : ∃ n ns, e.1 = base ++ n :: ns
  · exact .inl h
  · exact .inr fun n ns heq => h ⟨n, ns, heq⟩

theorem mem_children : e ∈ l.children base ↔ e ∈ l ∧ ∃ n, e.1 = base ++ [n] := by
  rw [children, List.mem_filter, decide_eq_true_iff]
  constructor
  · rintro ⟨he, hne, hbase⟩
    rcases List.eq_nil_or_concat e.1 with hnil | ⟨init, n, hconcat⟩
    · exact absurd hnil hne
    · rw [List.concat_eq_append] at hconcat
      rw [hconcat, List.dropLast_concat] at hbase
      exact ⟨he, n, by rw [hconcat, hbase]⟩
  · rintro ⟨he, n, hn⟩
    rw [hn, List.dropLast_concat]
    exact ⟨he, by simp, rfl⟩

theorem map_children {α : Type} (f : List String × Properties → α) (l : Outline)
    (base : List String) :
    (l.children base).map f =
      l.filterMap fun e => if e.1 ≠ [] ∧ e.1.dropLast = base then some (f e) else none := by
  induction l with
  | nil => rfl
  | cons e l ih =>
    rw [children] at ih ⊢
    by_cases h : e.1 ≠ [] ∧ e.1.dropLast = base
    · rw [List.filter_cons_of_pos (by simpa using h), List.map_cons, ih, List.filterMap_cons,
        if_pos h]
    · rw [List.filter_cons_of_neg (by simpa using h), ih, List.filterMap_cons, if_neg h]

theorem mem_below : e ∈ l.below base ↔ e.1 ≠ [] ∧ (base ++ e.1, e.2) ∈ l := by
  rw [below, List.mem_filterMap]
  constructor
  · rintro ⟨⟨k, ps⟩, hx, hsome⟩
    rcases from?_cases base (k, ps) with ⟨n, ns, rfl⟩ | hnone
    · rw [from?_append] at hsome
      cases hsome
      exact ⟨List.cons_ne_nil n ns, hx⟩
    · rw [from?_eq_none hnone] at hsome
      cases hsome
  · rintro ⟨hne, he⟩
    obtain ⟨k, ps⟩ := e
    cases k with
    | nil => exact absurd rfl hne
    | cons n ns => exact ⟨_, he, from?_append base n ns ps⟩

theorem nodup_below (hl : l.IsTree) (base : List String) :
    ((l.below base).map Prod.fst).Nodup := by
  have hl' : l.Pairwise fun a b => a.1 ≠ b.1 := List.pairwise_map.1 hl.nodup
  refine List.pairwise_map.2 (List.Pairwise.filterMap _ (fun a b hab x hx y hy heq => ?_) hl')
  obtain ⟨k, ps⟩ := a
  obtain ⟨k', ps'⟩ := b
  rcases from?_cases base (k, ps) with ⟨n, ns, rfl⟩ | hnone
  · rcases from?_cases base (k', ps') with ⟨m, ms, rfl⟩ | hnone
    · rw [from?_append] at hx hy
      cases hx
      cases hy
      have heq : n :: ns = m :: ms := heq
      exact hab (by rw [heq])
    · rw [from?_eq_none hnone] at hy
      cases hy
  · rw [from?_eq_none hnone] at hx
    cases hx

theorem isName_below (hl : l.IsTree) (he : e ∈ l.below base) : ∀ n ∈ e.1, Path.IsName n := by
  intro n hn
  exact hl.isName _ (mem_below.1 he).2 n (List.mem_append_right base hn)

theorem entries_bundle {m : Outline} (hnames : ∀ e ∈ m, ∀ n ∈ e.1, Path.IsName n)
    (hnodup : (m.map Prod.fst).Nodup) :
    m.bundle.entries = m.map fun e => (Path.relative e.1, e.2) := by
  apply OrderedMap.entries_ofList
  rw [List.map_map]
  have hm : m.Pairwise fun a b => a.1 ≠ b.1 := List.pairwise_map.1 hnodup
  refine List.pairwise_map.2 (hm.imp_of_mem fun {a b} ha hb hab h => hab ?_)
  exact Path.relative_inj (hnames a ha) (hnames b hb) h

theorem mem_of_above (hl : l.IsTree) {k k' : List String} (hk' : k' ∈ l.map Prod.fst)
    (habove : k <+: k') (hk : k ≠ []) : k ∈ l.map Prod.fst := by
  obtain ⟨rest, rfl⟩ := habove
  induction rest using List.reverseRecOn with
  | nil => rwa [List.append_nil] at hk'
  | append_singleton rest n ih =>
    obtain ⟨e, he, hkey⟩ := List.mem_map.1 hk'
    apply ih
    have hdrop : e.1.dropLast = k ++ rest := by
      rw [hkey, ← List.append_assoc, List.dropLast_concat]
    rw [← hdrop]
    apply hl.closed e he
    rw [hdrop]
    simp [hk]

theorem length_le_height (he : e ∈ l) : e.1.length ≤ l.height := by
  induction l with
  | nil => cases he
  | cons x l ih =>
    rw [height, List.foldr_cons]
    rcases List.mem_cons.1 he with rfl | he
    · exact Nat.le_max_left _ _
    · exact Nat.le_trans (ih he) (Nat.le_max_right _ _)

theorem height_le {n : Nat} (h : ∀ e ∈ l, e.1.length ≤ n) : l.height ≤ n := by
  induction l with
  | nil => exact Nat.zero_le n
  | cons x l ih =>
    obtain ⟨hx, hl⟩ := List.forall_mem_cons.1 h
    exact Nat.max_le.2 ⟨hx, ih hl⟩

theorem children_eq_nil (h : l.height ≤ base.length) : l.children base = [] := by
  rw [List.eq_nil_iff_forall_not_mem]
  intro e he
  obtain ⟨he, n, hn⟩ := mem_children.1 he
  have hlength := length_le_height he
  rw [hn, List.length_append, List.length_singleton] at hlength
  omega

/-- Generations below the last one add nothing. -/
theorem preorder_congr {n m : Nat} (hn : l.height ≤ base.length + n)
    (hm : l.height ≤ base.length + m) : l.preorder n base = l.preorder m base := by
  induction n generalizing m base with
  | zero =>
    cases m with
    | zero => rfl
    | succ m => rw [preorder, preorder, children_eq_nil hn, List.flatMap_nil]
  | succ n ih =>
    cases m with
    | zero => rw [preorder, preorder, children_eq_nil hm, List.flatMap_nil]
    | succ m =>
      rw [preorder, preorder]
      apply List.flatMap_congr
      intro e he
      obtain ⟨_, k, hk⟩ := mem_children.1 he
      have hlength : e.1.length = base.length + 1 := by
        rw [hk, List.length_append, List.length_singleton]
      rw [ih (m := m) (by omega) (by omega)]

theorem mem_preorder (hl : l.IsTree) {n : Nat} (hn : l.height ≤ base.length + n) :
    e ∈ l.preorder n base ↔ e ∈ l ∧ ∃ k ks, e.1 = base ++ k :: ks := by
  induction n generalizing base with
  | zero =>
    constructor
    · intro he
      cases he
    · rintro ⟨he, k, ks, hk⟩
      have hlength := length_le_height he
      rw [hk, List.length_append, List.length_cons] at hlength
      omega
  | succ n ih =>
    have hchild {c : List String × Properties} {k : String} (hk : c.1 = base ++ [k]) :
        l.height ≤ c.1.length + n := by
      rw [hk, List.length_append, List.length_singleton]
      omega
    rw [preorder, List.mem_flatMap]
    constructor
    · rintro ⟨c, hc, he⟩
      obtain ⟨hc, k, hk⟩ := mem_children.1 hc
      rcases List.mem_cons.1 he with rfl | he
      · exact ⟨hc, k, [], hk⟩
      · obtain ⟨he, m, ms, hm⟩ := (ih (hchild hk)).1 he
        refine ⟨he, k, m :: ms, ?_⟩
        rw [hm, hk, List.append_assoc]
        rfl
    · rintro ⟨he, k, ks, hk⟩
      have habove : base ++ [k] <+: e.1 := ⟨ks, by rw [hk, List.append_assoc]; rfl⟩
      have hmem : base ++ [k] ∈ l.map Prod.fst :=
        mem_of_above hl (List.mem_map_of_mem he) habove (by simp)
      obtain ⟨c, hc, hck⟩ := List.mem_map.1 hmem
      refine ⟨c, mem_children.2 ⟨hc, k, hck⟩, ?_⟩
      cases ks with
      | nil =>
        have heq : e = c := List.inj_on_of_nodup_map hl.nodup he hc (hk.trans hck.symm)
        rw [heq]
        exact List.mem_cons_self
      | cons m ms =>
        refine List.mem_cons_of_mem c ((ih (hchild hck)).2 ⟨he, m, ms, ?_⟩)
        rw [hk, hck, List.append_assoc]
        rfl

theorem nodup_preorder (hl : l.IsTree) {n : Nat} (hn : l.height ≤ base.length + n) :
    (l.preorder n base).Nodup := by
  have hnodup : l.Nodup := List.Nodup.of_map _ hl.nodup
  induction n generalizing base with
  | zero => exact .nil
  | succ n ih =>
    have hchild {c : List String × Properties} {k : String} (hk : c.1 = base ++ [k]) :
        l.height ≤ c.1.length + n := by
      rw [hk, List.length_append, List.length_singleton]
      omega
    rw [preorder, List.nodup_flatMap]
    constructor
    · intro c hc
      obtain ⟨_, k, hk⟩ := mem_children.1 hc
      refine List.nodup_cons.2 ⟨fun hmem => ?_, ih (hchild hk)⟩
      obtain ⟨_, m, ms, hm⟩ := (mem_preorder hl (hchild hk)).1 hmem
      exact absurd (List.append_right_eq_self.1 hm.symm) (List.cons_ne_nil m ms)
    · have hchildren : (l.children base).Nodup := hnodup.filter _
      refine hchildren.imp_of_mem fun {c c'} hc hc' hne x hx hx' => ?_
      obtain ⟨hc, k, hk⟩ := mem_children.1 hc
      obtain ⟨hc', k', hk'⟩ := mem_children.1 hc'
      have hbelow {d : List String × Properties} {m : String} (hm : d.1 = base ++ [m])
          (hx : x ∈ d :: l.preorder n d.1) : ∃ ms, x.1 = base ++ m :: ms := by
        rcases List.mem_cons.1 hx with rfl | hx
        · exact ⟨[], hm⟩
        · obtain ⟨_, r, rs, hr⟩ := (mem_preorder hl (hchild hm)).1 hx
          refine ⟨r :: rs, ?_⟩
          rw [hr, hm, List.append_assoc]
          rfl
      obtain ⟨ms, hms⟩ := hbelow hk hx
      obtain ⟨ms', hms'⟩ := hbelow hk' hx'
      rw [hms, List.append_cancel_left_eq] at hms'
      apply hne
      apply List.inj_on_of_nodup_map hl.nodup hc hc'
      rw [hk, hk', (List.cons.inj hms').1]

/-- Every node of a tree is delivered, and no node twice. -/
theorem preorder_perm (hl : l.IsTree) : (l.preorder l.height []).Perm l := by
  have hheight : l.height ≤ ([] : List String).length + l.height := by simp
  rw [List.perm_ext_iff_of_nodup (nodup_preorder hl hheight) (List.Nodup.of_map _ hl.nodup)]
  intro e
  rw [mem_preorder hl hheight]
  constructor
  · rintro ⟨he, _⟩
    exact he
  · intro he
    refine ⟨he, ?_⟩
    cases hk : e.1 with
    | nil => exact absurd hk (hl.ne_nil e he)
    | cons k ks => exact ⟨k, ks, rfl⟩

end Outline

namespace Bundle

/-- The nodes that a bundle holds. -/
def outline (b : Bundle) : Outline := b.entries.map fun e => (Path.names e.1, e.2)

/-- All keys are relative paths, and so is the parent of each, unless it is the node itself that
carries the bundle. -/
structure IsClosed (b : Bundle) : Prop where
  isRelative : ∀ key ∈ b.keys, Path.IsRelative key
  parent : ∀ key ∈ b.keys, (Path.names key).dropLast ≠ [] →
    Path.relative (Path.names key).dropLast ∈ b.keys

instance (b : Bundle) : Decidable b.IsClosed :=
  decidable_of_iff (_ ∧ _) ⟨fun h => ⟨h.1, h.2⟩, fun h => ⟨h.isRelative, h.parent⟩⟩

variable {b : Bundle}

theorem entries_eq (hb : b.IsClosed) :
    b.entries = b.outline.map fun e => (Path.relative e.1, e.2) := by
  rw [outline, List.map_map]
  refine (List.map_id _).symm.trans (List.map_congr_left fun e he => ?_)
  have hkey : e.1 ∈ b.keys := List.mem_map_of_mem he
  exact Prod.ext (hb.isRelative e.1 hkey).2.2 rfl

theorem isTree_outline (hb : b.IsClosed) : b.outline.IsTree := by
  have hkey {e : List String × Properties} (he : e ∈ b.outline) :
      ∃ key ∈ b.keys, Path.names key = e.1 := by
    obtain ⟨x, hx, rfl⟩ := List.mem_map.1 he
    exact ⟨x.1, List.mem_map_of_mem hx, rfl⟩
  have hkeys : b.outline.map Prod.fst = b.keys.map Path.names := by
    rw [outline, OrderedMap.keys, List.map_map, List.map_map]
    rfl
  refine ⟨fun e he => ?_, fun e he => ?_, ?_, fun e he hne => ?_⟩
  · obtain ⟨key, hkey, hnames⟩ := hkey he
    rw [← hnames]
    exact (hb.isRelative key hkey).1
  · obtain ⟨key, hkey, hnames⟩ := hkey he
    rw [← hnames]
    exact (hb.isRelative key hkey).2.1
  · rw [hkeys]
    refine List.Nodup.map_on (fun k hk k' hk' h => ?_) b.nodup
    rw [(hb.isRelative k hk).2.2, (hb.isRelative k' hk').2.2, h]
  · obtain ⟨key, hkey, hnames⟩ := hkey he
    rw [← hnames] at hne ⊢
    have hparent := hb.parent key hkey hne
    have hrelative := hb.isRelative key hkey
    rw [hkeys]
    refine List.mem_map.2 ⟨_, hparent, Path.names_relative fun n hn => ?_⟩
    exact hrelative.2.1 n ((List.dropLast_sublist _).subset hn)

end Bundle

namespace NodeState

theorem eq_child_of_mem_children {s c : NodeState} {cs : List NodeState} (h : s.children = .ok cs)
    (hc : c ∈ cs) :
    ∃ key name properties, Path.names key = [name] ∧ c = s.child name properties := by
  rw [children] at h
  split at h
  · cases h
  · cases h
    obtain ⟨e, _, hchild⟩ := List.mem_filterMap.1 hc
    dsimp only at hchild
    split at hchild
    · rename_i name hname
      cases hchild
      exact ⟨e.1, name, e.2, hname, rfl⟩
    · cases hchild

/-- What unfolds one after the other comes from one of the parts. -/
theorem mem_foldl_append {c : NodeState} {cs : List NodeState} {below : NodeState → Expansion}
    {before : Expansion} (h : c ∈ (cs.foldl
      (fun before x => Expansion.append before (.append ⟨[x], none⟩ (below x))) before).states) :
    c ∈ before.states ∨ ∃ x ∈ cs, c = x ∨ c ∈ (below x).states := by
  induction cs generalizing before with
  | nil => exact .inl h
  | cons x rest ih =>
    rw [List.foldl_cons] at h
    rcases ih h with h | ⟨y, hy, h⟩
    · obtain ⟨states, failure⟩ := before
      cases failure with
      | some e => exact .inl h
      | none =>
        have h : c ∈ states ++ x :: (below x).states := h
        rcases List.mem_append.1 h with h | h
        · exact .inl h
        · exact .inr ⟨x, List.mem_cons_self, List.mem_cons.1 h⟩
    · exact .inr ⟨y, List.mem_cons_of_mem x hy, h⟩

/-- What holds between a node and each child, and is passed on, holds between the node and each
descendant. -/
theorem of_mem_descendants {R : NodeState → NodeState → Prop}
    (hchild : ∀ (s : NodeState) (key name : String) (properties : Properties),
      Path.names key = [name] → R s (s.child name properties))
    (htrans : ∀ a b c, R a b → R b c → R a c) {s c : NodeState} (h : c ∈ s.descendants.states) :
    R s c := by
  rw [descendants] at h
  generalize s.depthBound = n at h
  induction n generalizing s with
  | zero => cases h
  | succ n ih =>
    rw [generations] at h
    split at h
    · cases h
    · rename_i cs hcs
      rcases mem_foldl_append h with h | ⟨x, hx, h⟩
      · cases h
      · obtain ⟨key, name, properties, hname, rfl⟩ := eq_child_of_mem_children hcs hx
        rcases h with rfl | h
        · exact hchild s key name properties hname
        · exact htrans _ _ _ (hchild s key name properties hname) (ih h)

/-- The state of a node that is bundled with another one, by its place in the bundle. -/
def inner (s : NodeState) (e : List String × Properties) : NodeState :=
  { s with
    path := Path.ofNames (Path.names s.path ++ e.1)
    properties := e.2
    bundled := (s.bundled.outline.below e.1).bundle }

end NodeState

end VersionedTree
