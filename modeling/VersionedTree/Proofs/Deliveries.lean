import VersionedTree.Proofs.Bundles
import VersionedTree.Proofs.Gathering
import VersionedTree.Proofs.Histories

/-! # The nodes that a traversal gets to

A traversal finds a node in some documents of its stream, and delivers each of them followed by
what is bundled with it, until a bundle has a node without a place. All that is delivered together
carries the last revision of the node that was found, so what several traversals delivered tells
how often each node was found.
-/

namespace VersionedTree

namespace NodeState

variable {s m : NodeState}

/-- What is delivered of a node that was found: the node, and what is bundled with it. -/
def delivered (s : NodeState) : List (String × NodeState) :=
  (s :: s.descendants.states).map fun m => (m.path, m)

/-- The nodes that a traversal gets to, among those that it is to find. -/
def reached : List NodeState → List NodeState
  | [] => []
  | s :: rest => s :: if s.descendants.failure.isSome then [] else reached rest

theorem reached_of_complete {l : List NodeState} (h : ∀ s ∈ l, s.descendants.failure = none) :
    reached l = l := by
  induction l with
  | nil => rfl
  | cons s rest ih =>
    have hs := h s List.mem_cons_self
    rw [reached, hs, ih fun m hm => h m (List.mem_cons_of_mem s hm)]
    rfl

theorem mem_of_mem_reached {l : List NodeState} (h : s ∈ reached l) : s ∈ l := by
  induction l with
  | nil => cases h
  | cons m rest ih =>
    rw [reached] at h
    rcases List.mem_cons.1 h with rfl | h
    · exact List.mem_cons_self
    · split at h
      · cases h
      · exact List.mem_cons_of_mem m (ih h)

theorem lastRevision_of_mem_descendants (h : m ∈ s.descendants.states) :
    m.lastRevision = s.lastRevision :=
  of_mem_descendants (R := fun s m => m.lastRevision = s.lastRevision) (fun _ _ _ _ _ => rfl)
    (fun _ _ _ hab hbc => hbc.trans hab) h

theorem lastRevision_of_mem_delivered {x : String × NodeState} (h : x ∈ s.delivered) :
    x.2.lastRevision = s.lastRevision := by
  obtain ⟨m, hm, rfl⟩ := List.mem_map.1 h
  rcases List.mem_cons.1 hm with rfl | hm
  · rfl
  · exact lastRevision_of_mem_descendants hm

theorem countP_delivered [DecidableEq NodeState] {l : List NodeState}
    (h : ∀ m ∈ l, m.lastRevision = s.lastRevision → m = s) :
    (l.flatMap delivered).countP (fun x => x.2.lastRevision == s.lastRevision) =
      l.count s * s.delivered.length := by
  induction l with
  | nil => rw [List.flatMap_nil, List.countP_nil, List.count_nil, Nat.zero_mul]
  | cons m rest ih =>
    rw [List.flatMap_cons, List.countP_append, ih fun x hx => h x (List.mem_cons_of_mem m hx)]
    by_cases hm : m.lastRevision = s.lastRevision
    · obtain rfl := h m List.mem_cons_self hm
      have hall : m.delivered.countP (fun x => x.2.lastRevision == m.lastRevision) =
          m.delivered.length := by
        refine List.countP_eq_length.2 fun x hx => ?_
        simpa using lastRevision_of_mem_delivered hx
      rw [hall, List.count_cons_self, Nat.succ_mul, Nat.add_comm]
    · have hnone : m.delivered.countP (fun x => x.2.lastRevision == s.lastRevision) = 0 := by
        refine List.countP_eq_zero.2 fun x hx => ?_
        rw [lastRevision_of_mem_delivered hx]
        simpa using hm
      have hne : m ≠ s := fun heq => hm (congrArg lastRevision heq)
      rw [hnone, Nat.zero_add, List.count_cons_of_ne hne]

/-- If the last revision tells nodes apart, then what is delivered of them tells how often each of
them was delivered. -/
theorem perm_delivered_iff {l l' : List NodeState}
    (h : ∀ m ∈ l ++ l', ∀ n ∈ l ++ l', m.lastRevision = n.lastRevision → m = n) :
    (l.flatMap delivered).Perm (l'.flatMap delivered) ↔ l.Perm l' := by
  classical
  constructor
  · intro hperm
    refine List.perm_iff_count.2 fun s => ?_
    by_cases hs : s ∈ l ++ l'
    · have hcount := hperm.countP_eq fun x => x.2.lastRevision == s.lastRevision
      rw [countP_delivered fun m hm => h m (List.mem_append_left l' hm) s hs,
        countP_delivered fun m hm => h m (List.mem_append_right l hm) s hs] at hcount
      exact Nat.eq_of_mul_eq_mul_right (Nat.succ_pos _) hcount
    · rw [List.mem_append, not_or] at hs
      rw [List.count_eq_zero_of_not_mem hs.1, List.count_eq_zero_of_not_mem hs.2]
  · intro hperm
    exact hperm.flatMap_right delivered

end NodeState

namespace DocumentStore

variable {s s' : DocumentStore} {v : RevisionVector} {accepts : String → Bool} {item : Stored}
  {items : List Stored} {n : NodeState}

/-- The node that a traversal of the accepted paths finds in a document, if there is one. -/
def found (s : DocumentStore) (v : RevisionVector) (accepts : String → Bool) (item : Stored) :
    Option NodeState :=
  if item.document.isSplit = false ∧ accepts item.document.path = true then
    (s.nodeAt item.document.path v).toOption.join
  else none

theorem nodeAt_of_found (h : s.found v accepts item = some n) :
    item.document.isSplit = false ∧ s.nodeAt item.document.path v = .ok (some n) := by
  rw [found] at h
  split at h
  · rename_i hlive
    refine ⟨hlive.1, ?_⟩
    cases hnode : s.nodeAt item.document.path v with
    | error e =>
      rw [hnode] at h
      cases h
    | ok o =>
      rw [hnode] at h
      exact congrArg Except.ok h
  · cases h

/-- The nodes that a traversal of documents gets to. -/
def reached (s : DocumentStore) (v : RevisionVector) (accepts : String → Bool)
    (items : List Stored) : List NodeState :=
  NodeState.reached (items.filterMap (s.found v accepts))

theorem found_inj {history : List Version} (hr : s.Records history)
    (hnodup : (history.map Version.revision).Nodup) {item' : Stored} {n' : NodeState}
    (hd : item.document.IsMain ∨ item.document.IsSplitOff)
    (hd' : item'.document.IsMain ∨ item'.document.IsSplitOff)
    (hn : s.found v accepts item = some n) (hn' : s.found v accepts item' = some n')
    (hrevision : n.lastRevision = n'.lastRevision) : n = n' := by
  have habsolute {x : Stored} (hx : x.document.IsMain ∨ x.document.IsSplitOff)
      (hlive : x.document.isSplit = false) : Path.isAbsolute x.document.path = true := by
    rcases hx with hmain | hsplit
    · exact hmain.absolute
    · rw [hsplit.isSplit] at hlive
      cases hlive
  obtain ⟨hlive, hnode⟩ := nodeAt_of_found hn
  obtain ⟨hlive', hnode'⟩ := nodeAt_of_found hn'
  exact nodeAt_inj hr hnodup (habsolute hd hlive) (habsolute hd' hlive') hnode hnode' hrevision

theorem reached_inj {history : List Version} (hr : s.Records history)
    (hnodup : (history.map Version.revision).Nodup) {openings : List (List Stored)}
    (hopenings : ∀ items ∈ openings, ∀ item ∈ items,
      item.document.IsMain ∨ item.document.IsSplitOff) {m n : NodeState}
    (hm : m ∈ openings.flatMap (s.reached v accepts))
    (hn : n ∈ openings.flatMap (s.reached v accepts))
    (hrevision : m.lastRevision = n.lastRevision) : m = n := by
  have hfound : ∀ n ∈ openings.flatMap (s.reached v accepts),
      ∃ item, (item.document.IsMain ∨ item.document.IsSplitOff) ∧ s.found v accepts item = some n := by
    intro n hn
    obtain ⟨items, hitems, hn⟩ := List.mem_flatMap.1 hn
    obtain ⟨item, hitem, hn⟩ := List.mem_filterMap.1 (NodeState.mem_of_mem_reached hn)
    exact ⟨item, hopenings items hitems item hitem, hn⟩
  obtain ⟨a, ha, hma⟩ := hfound m hm
  obtain ⟨b, hb, hnb⟩ := hfound n hn
  exact found_inj hr hnodup ha hb hma hnb hrevision

theorem reached_of_complete
    (h : ∀ path n, s.nodeAt path v = .ok (some n) → n.descendants.failure = none)
    (items : List Stored) : s.reached v accepts items = items.filterMap (s.found v accepts) := by
  refine NodeState.reached_of_complete fun n hn => ?_
  obtain ⟨item, _, hn⟩ := List.mem_filterMap.1 hn
  exact h item.document.path n (nodeAt_of_found hn).2

/-- What a traversal delivers, apart from modification times. -/
theorem seen_yields (h : ∀ item ∈ items, item.document.isSplit = false →
      ∃ o, s.nodeAt item.document.path v = .ok o) :
    (s.yields v accepts items).items.map Entry.seen =
      (s.reached v accepts items).flatMap NodeState.delivered := by
  induction items with
  | nil => rfl
  | cons item rest ih =>
    have hrest := ih fun x hx => h x (List.mem_cons_of_mem item hx)
    rw [reached] at hrest
    rw [yields_cons]
    by_cases hlive : item.document.isSplit = false ∧ accepts item.document.path = true
    · obtain ⟨o, ho⟩ := h item List.mem_cons_self hlive.1
      have hfound : s.found v accepts item = o := by
        rw [found, if_pos hlive, ho]
        rfl
      rw [yieldOf, if_pos hlive, ho]
      cases o with
      | none =>
        rw [reached, List.filterMap_cons_none hfound]
        exact hrest
      | some n =>
        rw [reached, List.filterMap_cons_some hfound, NodeState.reached, yieldOfNode]
        cases hfailure : n.descendants.failure with
        | some e =>
          rw [Yield.append_of_failure (e := e) hfailure]
          simp [unfolded, NodeState.delivered, Entry.seen, Entry.ofState]
        | none =>
          rw [Yield.append_of_complete hfailure]
          simp [unfolded, NodeState.delivered, Entry.seen, Entry.ofState, hrest]
    · have hfound : s.found v accepts item = none := by
        rw [found, if_neg hlive]
      rw [yieldOf, if_neg hlive, reached, List.filterMap_cons_none hfound]
      exact hrest

end DocumentStore

end VersionedTree
