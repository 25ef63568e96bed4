import VersionedTree.Proofs.Accounts
import VersionedTree.Proofs.Splitting
import VersionedTree.Proofs.Turns

/-! # Released cursors

While a call goes on, every cursor that it opened and did not close is registered with one of the
traversers that it is still to close. When it has closed them all, the cursors are as before.
-/

namespace VersionedTree

namespace Ledger

variable {start l l' : Ledger} {mine owners owners' : List Nat} {n m i : Nat}

theorem holding_eq (l : Ledger) (n : Nat) : l.holding n = l.traversers[n]?.getD {} :=
  List.getD_eq_getElem?_getD ..

theorem holding_modifyHolding_ne (h : n ≠ m) (f : Holding → Holding) (l : Ledger) :
    (l.modifyHolding n f).holding m = l.holding m := by
  rw [holding_eq, holding_eq, modifyHolding]
  simp only [List.getElem?_modify, h, if_false, Option.map_eq_map, Option.map_id']

theorem holding_modifyHolding_same (h : n < l.traversers.length) (f : Holding → Holding) :
    (l.modifyHolding n f).holding n = f (l.holding n) := by
  rw [holding_eq, holding_eq, modifyHolding]
  simp only [List.getElem?_modify_eq, List.getElem?_eq_getElem h, Option.map_eq_map,
    Option.map_some, Option.getD_some]

theorem length_modifyHolding (n : Nat) (f : Holding → Holding) (l : Ledger) :
    (l.modifyHolding n f).traversers.length = l.traversers.length := List.length_modify ..

theorem traversers_closed (l : Ledger) (i : Nat) : (l.closed i).traversers = l.traversers := by
  rw [closed]
  split <;> rfl

theorem getElem?_closed (l : Ledger) (i j : Nat) :
    (l.closed i).cursors[j]? =
      l.cursors[j]?.map fun c => if j = i then (true, c.2) else c := by
  rw [closed]
  by_cases hj : j = i
  · subst hj
    split
    · rename_i parts hget
      rw [List.getElem?_set_self (List.getElem?_eq_some_iff.1 hget).1, hget]
      simp only [Option.map_some, if_true]
    · rename_i parts hget
      rw [hget]
      simp only [Option.map_some, if_true]
    · rename_i hget
      rw [hget]
      rfl
  · simp only [hj, if_false, Option.map_id']
    split
    · exact List.getElem?_set_ne (Ne.symm hj)
    · rfl
    · rfl

theorem traversers_settled (l : Ledger) (n : Nat) :
    (l.settled n).traversers = l.traversers.modify n fun h => { h with cursors := [] } := by
  have hall (cursors : List Nat) (l : Ledger) :
      (cursors.foldl closed l).traversers = l.traversers := by
    induction cursors generalizing l with
    | nil => rfl
    | cons i rest ih => rw [List.foldl_cons, ih, traversers_closed]
  rw [settled, hall]
  rfl

theorem holding_settled (l : Ledger) (n m : Nat) :
    (l.settled n).holding m = (l.modifyHolding n fun h => { h with cursors := [] }).holding m := by
  rw [holding, traversers_settled]
  rfl

theorem cursors_holding_settled (l : Ledger) (n : Nat) :
    ((l.settled n).holding n).cursors = [] := by
  rw [holding_settled]
  by_cases hn : n < l.traversers.length
  · rw [holding_modifyHolding_same hn]
  · have hout : (l.modifyHolding n fun h => { h with cursors := [] }).traversers[n]? = none := by
      rw [List.getElem?_eq_none_iff, length_modifyHolding]
      exact Nat.le_of_not_lt hn
    rw [holding_eq, hout]
    rfl

theorem getElem?_settled (l : Ledger) (n j : Nat) :
    (l.settled n).cursors[j]? =
      l.cursors[j]?.map fun c => if j ∈ (l.holding n).cursors then (true, c.2) else c := by
  have hall (cursors : List Nat) (l : Ledger) :
      (cursors.foldl closed l).cursors[j]? =
        l.cursors[j]?.map fun c => if j ∈ cursors then (true, c.2) else c := by
    induction cursors generalizing l with
    | nil =>
      simp only [List.foldl_nil, List.not_mem_nil, if_false, Option.map_id']
    | cons i rest ih =>
      rw [List.foldl_cons, ih, getElem?_closed, Option.map_map]
      refine congrArg (fun f => l.cursors[j]?.map f) (funext fun c => ?_)
      by_cases hj : j = i
      · simp only [Function.comp_apply, List.mem_cons, hj, if_true, true_or, ite_self]
      · simp only [Function.comp_apply, List.mem_cons, hj, if_false, false_or]
  rw [settled, hall]
  simp only [List.mem_reverse]
  rfl

/-- Since the start, the cursors that were there are as they were, and so are the traversers other
than these of mine. Every cursor that was opened and not closed is registered with an owner: a
traverser of mine, or one that was made since. -/
structure Entrusted (start : Ledger) (mine owners : List Nat) (l : Ledger) : Prop where
  balanced : l.Balanced
  earlier : start.cursors <+: l.cursors
  registered : ∀ i parts, start.cursors.length ≤ i → l.cursors[i]? = some (false, parts) →
    ∃ n ∈ owners, i ∈ (l.holding n).cursors
  enrolled : start.traversers.length ≤ l.traversers.length
  others : ∀ m < start.traversers.length, m ∉ mine → l.holding m = start.holding m
  own : ∀ m ∈ owners, m < l.traversers.length ∧ (m < start.traversers.length → m ∈ mine) ∧
    ∀ i ∈ (l.holding m).cursors, start.cursors.length ≤ i

/-- Since the start, all that was opened was closed, and nothing that was there changed. -/
def Restored (start l : Ledger) : Prop := Entrusted start [] [] l

theorem Balanced.entrusted (h : l.Balanced) (mine : List Nat) : Entrusted l mine [] l where
  balanced := h
  earlier := List.prefix_refl _
  registered _ _ hi hget := absurd (List.getElem?_eq_some_iff.1 hget).1 (Nat.not_lt.2 hi)
  enrolled := Nat.le_refl _
  others _ _ _ := rfl
  own _ hm := (List.not_mem_nil hm).elim

theorem Entrusted.closed (h : Entrusted start mine [] l) {c : Bool × List CursorPart}
    (hi : start.cursors.length ≤ i) (hget : l.cursors[i]? = some c) : c.1 = true := by
  rcases c with ⟨_ | _, parts⟩
  · obtain ⟨n, hn, -⟩ := h.registered i parts hi hget
    exact (List.not_mem_nil hn).elim
  · rfl

theorem Entrusted.openCursors (h : Entrusted start mine [] l) (hstart : start.Balanced) :
    l.openCursors = start.openCursors := by
  obtain ⟨later, hlater⟩ := h.earlier
  have hclosed : later.countP (!·.1) = 0 := by
    refine List.countP_eq_zero.2 fun c hc => ?_
    obtain ⟨k, hk⟩ := List.getElem?_of_mem hc
    have hget : l.cursors[start.cursors.length + k]? = some c := by
      rw [← hlater, List.getElem?_append_right (Nat.le_add_right _ _), Nat.add_sub_cancel_left, hk]
    rw [h.closed (Nat.le_add_right _ _) hget]
    exact Bool.false_ne_true
  rw [h.balanced.openCursors, hstart.openCursors, ← hlater, List.countP_append, hclosed,
    Nat.add_zero]

/-- A traverser of mine, or one that was made since the start, that has registered nothing. -/
structure Spare (start : Ledger) (mine : List Nat) (l : Ledger) (n : Nat) : Prop where
  enrolled : n < l.traversers.length
  mine : n < start.traversers.length → n ∈ mine
  cursors : (l.holding n).cursors = []

/-- The owners may change: an owner of no cursors does not count. -/
theorem Entrusted.passed (h : Entrusted start mine owners l)
    (hold : ∀ m ∈ owners, m ∈ owners' ∨ (l.holding m).cursors = [])
    (hnew : ∀ m ∈ owners', m ∈ owners ∨ Spare start mine l m) :
    Entrusted start mine owners' l := by
  refine ⟨h.balanced, h.earlier, fun i parts hi hget => ?_, h.enrolled, h.others, fun m hm => ?_⟩
  · obtain ⟨n, hn, hregistered⟩ := h.registered i parts hi hget
    rcases hold n hn with hn | hempty
    · exact ⟨n, hn, hregistered⟩
    · rw [hempty] at hregistered
      cases hregistered
  · rcases hnew m hm with hm | ⟨hlength, hmine, hempty⟩
    · exact h.own m hm
    · refine ⟨hlength, hmine, fun i hi => ?_⟩
      rw [hempty] at hi
      cases hi

theorem Entrusted.then (h : Entrusted start mine owners l) (h' : l.Restored l') :
    Entrusted start mine owners l' := by
  have hsame {m : Nat} (hm : m < l.traversers.length) : l'.holding m = l.holding m :=
    h'.others m hm List.not_mem_nil
  refine ⟨h'.balanced, h.earlier.trans h'.earlier, fun i parts hi hget => ?_,
    Nat.le_trans h.enrolled h'.enrolled, fun m hm hmine => ?_, fun m hm => ?_⟩
  · have hbefore : i < l.cursors.length := by
      by_contra hafter
      obtain ⟨n, hn, -⟩ := h'.registered i parts (Nat.le_of_not_lt hafter) hget
      cases hn
    obtain ⟨later, hlater⟩ := h'.earlier
    rw [← hlater, List.getElem?_append_left hbefore] at hget
    obtain ⟨n, hn, hregistered⟩ := h.registered i parts hi hget
    refine ⟨n, hn, ?_⟩
    rwa [hsame (h.own n hn).1]
  · rw [hsame (Nat.lt_of_lt_of_le hm h.enrolled)]
    exact h.others m hm hmine
  · obtain ⟨hlength, hmine, hcursors⟩ := h.own m hm
    rw [hsame hlength]
    exact ⟨Nat.lt_of_lt_of_le hlength h'.enrolled, hmine, hcursors⟩

theorem holding_enrolled {m : Nat} (hm : m < l.traversers.length) (x : Holding) :
    (l.enrolled x).holding m = l.holding m := by
  rw [holding_eq, holding_eq, Ledger.enrolled]
  simp only [List.getElem?_append_left hm]

theorem length_enrolled (l : Ledger) (x : Holding) :
    (l.enrolled x).traversers.length = l.traversers.length + 1 := List.length_append ..

theorem Spare.after_enrolled (h : Spare start mine l n) (x : Holding) :
    Spare start mine (l.enrolled x) n := by
  refine ⟨?_, h.mine, ?_⟩
  · rw [length_enrolled]
    exact Nat.lt_succ_of_lt h.enrolled
  · rw [holding_enrolled h.enrolled]
    exact h.cursors

theorem Entrusted.spare_enrolled (h : Entrusted start mine owners l) {x : Holding}
    (hx : x.cursors = []) : Spare start mine (l.enrolled x) l.traversers.length := by
  refine ⟨?_, fun hlt => absurd hlt (Nat.not_lt.2 h.enrolled), ?_⟩
  · rw [length_enrolled]
    exact Nat.lt_succ_self _
  · have hget : (l.enrolled x).traversers[l.traversers.length]? = some x :=
      List.getElem?_concat_length
    rw [holding_eq, hget]
    exact hx

theorem Entrusted.after_enrolled (h : Entrusted start mine owners l) (x : Holding) :
    Entrusted start mine owners (l.enrolled x) := by
  have hsame {m : Nat} (hm : m < l.traversers.length) : (l.enrolled x).holding m = l.holding m :=
    holding_enrolled hm x
  have hlength : l.traversers.length ≤ (l.enrolled x).traversers.length := by
    rw [length_enrolled]
    exact Nat.le_succ _
  refine ⟨h.balanced.enrolled x, h.earlier, fun i parts hi hget => ?_,
    Nat.le_trans h.enrolled hlength, fun m hm hmine => ?_, fun m hm => ?_⟩
  · obtain ⟨n, hn, hregistered⟩ := h.registered i parts hi hget
    refine ⟨n, hn, ?_⟩
    rwa [hsame (h.own n hn).1]
  · rw [hsame (Nat.lt_of_lt_of_le hm h.enrolled)]
    exact h.others m hm hmine
  · obtain ⟨hm, hmine, hcursors⟩ := h.own m hm
    rw [hsame hm]
    exact ⟨Nat.lt_of_lt_of_le hm hlength, hmine, hcursors⟩

theorem Entrusted.ne_other (h : Entrusted start mine owners l) (hn : n ∈ owners)
    (hm : m < start.traversers.length) (hm' : m ∉ mine) : n ≠ m := by
  intro heq
  subst heq
  exact hm' ((h.own n hn).2.1 hm)

theorem Entrusted.repinned (h : Entrusted start mine owners l) (hn : n ∈ owners)
    (pin : Pin → Pin) : Entrusted start mine owners (l.repinned n pin) := by
  have hlength : n < l.traversers.length := (h.own n hn).1
  have hcursors (m : Nat) : ((l.repinned n pin).holding m).cursors = (l.holding m).cursors := by
    by_cases hm : n = m
    · rw [← hm, Ledger.repinned, holding_modifyHolding_same hlength]
    · rw [Ledger.repinned, holding_modifyHolding_ne hm]
  refine ⟨h.balanced.modifyHolding n _, h.earlier, fun i parts hi hget => ?_, ?_,
    fun m hm hm' => ?_, fun m hm => ?_⟩
  · obtain ⟨m, hm, hregistered⟩ := h.registered i parts hi hget
    exact ⟨m, hm, hcursors m ▸ hregistered⟩
  · rw [Ledger.repinned, length_modifyHolding]
    exact h.enrolled
  · have hne : n ≠ m := h.ne_other hn hm hm'
    rw [Ledger.repinned, holding_modifyHolding_ne hne]
    exact h.others m hm hm'
  · rw [hcursors, Ledger.repinned, length_modifyHolding]
    exact h.own m hm

theorem Entrusted.scanned (h : Entrusted start mine owners l) (hn : n ∈ owners) :
    Entrusted start mine owners (l.scanned n) := by
  obtain ⟨hlength, hmine, hown⟩ := h.own n hn
  have hstart : start.cursors.length ≤ l.cursors.length := h.earlier.length_le
  have hsame : ((l.scanned n).holding n).cursors = (l.holding n).cursors ++ [l.cursors.length] := by
    rw [Ledger.scanned, holding_modifyHolding_same (l := l.opened) hlength]
    rfl
  have hother {m : Nat} (hm : n ≠ m) : (l.scanned n).holding m = l.holding m := by
    rw [Ledger.scanned, holding_modifyHolding_ne hm]
    rfl
  refine ⟨h.balanced.opened.modifyHolding n _, ?_, fun i parts hi hget => ?_, ?_,
    fun m hm hm' => ?_, fun m hm => ?_⟩
  · exact h.earlier.trans (List.prefix_append _ _)
  · change (l.cursors ++ [(false, _)])[i]? = _ at hget
    rw [List.getElem?_append] at hget
    split at hget
    · obtain ⟨m, hm, hregistered⟩ := h.registered i parts hi hget
      refine ⟨m, hm, ?_⟩
      by_cases hmn : n = m
      · subst hmn
        rw [hsame]
        exact List.mem_append_left _ hregistered
      · rwa [hother hmn]
    · rename_i hafter
      have hi' : i = l.cursors.length := by
        have hsingle := (List.getElem?_eq_some_iff.1 hget).1
        rw [List.length_singleton] at hsingle
        omega
      refine ⟨n, hn, ?_⟩
      rw [hsame, hi']
      exact List.mem_append_right _ (List.mem_singleton.2 rfl)
  · rw [Ledger.scanned, length_modifyHolding]
    exact h.enrolled
  · have hne : n ≠ m := h.ne_other hn hm hm'
    rw [hother hne]
    exact h.others m hm hm'
  · rw [Ledger.scanned, length_modifyHolding, ← Ledger.scanned]
    by_cases hmn : n = m
    · subst hmn
      refine ⟨hlength, hmine, fun i hi => ?_⟩
      rw [hsame, List.mem_append, List.mem_singleton] at hi
      rcases hi with hi | rfl
      · exact hown i hi
      · exact hstart
    · rw [hother hmn]
      exact h.own m hm

theorem Entrusted.settled (h : Entrusted start mine owners l) (hn : n ∈ owners) :
    Entrusted start mine owners (l.settled n) := by
  obtain ⟨hlength, hmine, hown⟩ := h.own n hn
  have hother {m : Nat} (hm : n ≠ m) : (l.settled n).holding m = l.holding m := by
    rw [holding_settled, holding_modifyHolding_ne hm]
  have hlength' : (l.settled n).traversers.length = l.traversers.length := by
    rw [traversers_settled, List.length_modify]
  refine ⟨h.balanced.settled n, ?_, fun i parts hi hget => ?_, hlength' ▸ h.enrolled,
    fun m hm hm' => ?_, fun m hm => ?_⟩
  · -- The traverser closes none of the earlier cursors.
    refine List.prefix_iff_getElem?.2 fun i hi => ?_
    have hearlier := List.prefix_iff_getElem?.1 h.earlier i hi
    have hnot : i ∉ (l.holding n).cursors := fun hmem => absurd hi (Nat.not_lt.2 (hown i hmem))
    rw [getElem?_settled, hearlier]
    simp only [hnot, if_false, Option.map_some]
  · rw [getElem?_settled] at hget
    obtain ⟨c, hc, heq⟩ := Option.map_eq_some_iff.1 hget
    have hnot : i ∉ (l.holding n).cursors := by
      intro hmem
      rw [if_pos hmem] at heq
      cases heq
    rw [if_neg hnot] at heq
    obtain ⟨m, hm, hregistered⟩ := h.registered i parts hi (heq ▸ hc)
    have hmn : n ≠ m := fun hmn => hnot (hmn ▸ hregistered)
    exact ⟨m, hm, hother hmn ▸ hregistered⟩
  · have hne : n ≠ m := h.ne_other hn hm hm'
    rw [hother hne]
    exact h.others m hm hm'
  · rw [hlength']
    by_cases hmn : n = m
    · subst hmn
      rw [cursors_holding_settled]
      exact ⟨hlength, hmine, fun _ hi => (List.not_mem_nil hi).elim⟩
    · rw [hother hmn]
      exact h.own m hm

end Ledger

namespace Workspace

variable {υ α β : Type} {start : Ledger} {mine owners : List Nat}

/-- Whatever the action opens it closes, and it changes nothing that was there. -/
def Restores (x : Action (Workspace υ) α) : Prop :=
  ∀ w : Workspace υ, w.ledger.Balanced → w.ledger.Restored (x w).2.ledger

theorem Quiet.restores {x : Action (Workspace υ) α} (hx : Quiet x) : Restores x := by
  intro w hw
  rw [hx w]
  exact hw.entrusted []

theorem restores_pure (a : α) : Restores (pure a : Action (Workspace υ) α) :=
  Quiet.restores fun _ => rfl

theorem Restores.bind {x : Action (Workspace υ) α} {f : α → Action (Workspace υ) β}
    (hx : Restores x) (hf : ∀ a, Restores (f a)) : Restores (x >>= f) := by
  intro w hw
  have hfirst := hx w hw
  rw [Action.bind_apply]
  rcases hxw : x w with ⟨e | a, w'⟩
  · rw [hxw] at hfirst
    exact hfirst
  · rw [hxw] at hfirst
    exact hfirst.then (hf a w' hfirst.balanced)

theorem Restores.upholds {x : Action (Workspace υ) α} (hx : Restores x) :
    Upholds (Ledger.Entrusted start mine owners) x := fun w hw => hw.then (hx w hw.balanced)

end Workspace

theorem TraversalSettings.check_cases {σ : Type} (c : TraversalSettings σ) (u : σ) :
    c.check u = (.ok (), u) ∨ ∃ e, c.check u = (.error e, u) := by
  rw [check]
  cases c.problems with
  | error e => exact .inr ⟨e, rfl⟩
  | ok problems =>
    cases problems with
    | nil => exact .inl rfl
    | cons problem problems => exact .inr ⟨_, rfl⟩

/-! ## Traversers that are closed in the end -/

namespace Traverser

open Workspace

variable {υ α β : Type} {start : Ledger} {mine owners owners' : List Nat} {t : Traverser υ}
  {w : Workspace υ}

/-- The traverser reads the stores of the workspace itself, and the caller's functions close what
they open. -/
structure IsNeat (t : Traverser υ) : Prop where
  backend : t.backend = .memory
  predicate : ∀ path, Restores (t.predicate path)
  progress : ∀ id, Restores (t.progress id)

/-- The traverser was made, has no cursors, and nobody reads the head for it. -/
structure IsFresh (t : Traverser υ) (w : Workspace υ) : Prop where
  made : t.number < w.traversers.length
  called : (t.state w).pin.called = none
  reading : (t.state w).pin.reading = false
  waiting : (t.state w).pin.waiting = []
  registered : (t.state w).closer.resources = []

theorem IsFresh.spare (h : t.IsFresh w) (hmine : t.number ∈ mine) :
    Ledger.Spare w.ledger mine w.ledger t.number where
  enrolled := by
    rw [ledger, List.length_map]
    exact h.made
  mine _ := hmine
  cursors := by
    rw [← holding_traverser]
    exact h.registered

theorem IsFresh.idle (h : t.IsFresh w) : w.ledger.Idle t.number := by
  refine ⟨(t.state w).pin.snapshot, ?_⟩
  rw [← holding_traverser]
  obtain ⟨-, hcalled, hreading, hwaiting, -⟩ := h
  show (t.state w).pin = _
  generalize (t.state w).pin = pin at hcalled hreading hwaiting ⊢
  cases pin
  cases hcalled
  cases hreading
  cases hwaiting
  rfl

theorem IsNeat.heeds (ht : t.IsNeat) : t.Heeds (Ledger.Entrusted start mine owners) :=
  ⟨ht.backend, fun path => (ht.predicate path).upholds, fun id => (ht.progress id).upholds⟩

theorem allows_entrusted (hn : t.number ∈ owners) :
    Allows (Ledger.Entrusted start mine owners) t.number :=
  ⟨fun _ pin h => h.repinned hn pin, fun _ h => h.scanned hn⟩

/-- A traverser that was closed owns no cursor. -/
theorem entrusted_close (hn : t.number ∈ owners) (hw : Ledger.Entrusted start mine owners w.ledger)
    (hrest : ∀ m ∈ owners, m = t.number ∨ m ∈ owners') (hsub : ∀ m ∈ owners', m ∈ owners) :
    Ledger.Entrusted start mine owners' (t.close w).2.ledger := by
  rw [ledger_close]
  refine (hw.settled hn).passed (fun m hm => ?_) fun m hm => .inl (hsub m hm)
  rcases hrest m hm with rfl | hm
  · exact .inr (Ledger.cursors_holding_settled _ _)
  · exact .inl hm

theorem create_cases (hbackend : t.backend = .memory) (snapshot : Option RevisionVector)
    (roots : List String) (w : Workspace υ) :
    ∃ w' h, t.create snapshot roots w = (.ok { t with number := w.traversers.length }, w') ∧
      h.cursors = [] ∧ w'.ledger = w.ledger.enrolled h := by
  have hrest (v : RevisionVector) :
      ∃ w', t.enroll { pin := .of v, hiddenRoots := roots } w =
        (.ok { t with number := w.traversers.length }, w') ∧
          w'.ledger = w.ledger.enrolled ⟨.of v, []⟩ := ⟨_, rfl, ledger_enroll (t := t) _ w⟩
  cases snapshot with
  | some v =>
    obtain ⟨w', henroll, h⟩ := hrest v
    exact ⟨w', _, henroll, rfl, h⟩
  | none =>
    obtain ⟨w', henroll, h⟩ := hrest w.head
    have hhead : t.create none roots w =
        t.enroll { pin := .of w.head, hiddenRoots := roots } w := by
      rw [create, hbackend]
      rfl
    exact ⟨w', _, hhead.trans henroll, rfl, h⟩

/-- A traverser that is closed at the end takes care of what it opens on the way. -/
theorem entrusted_fold (ht : t.IsNeat) (hn : t.number ∈ owners)
    {f : β → Entry → Action (Workspace υ) β} (hf : ∀ b e, Restores (f b e)) (b : β)
    (hw : Ledger.Entrusted start mine owners w.ledger)
    (hrest : ∀ m ∈ owners, m = t.number ∨ m ∈ owners') (hsub : ∀ m ∈ owners', m ∈ owners) :
    Ledger.Entrusted start mine owners' (Action.guarded (t.fold f b) t.close w).2.ledger := by
  rw [Action.guarded_snd]
  have hfold : Upholds (Ledger.Entrusted start mine owners) (t.fold f b) :=
    upholds_fold ht.heeds (allows_entrusted hn) (fun b e => (hf b e).upholds) b
  exact entrusted_close hn (hfold w hw) hrest hsub

end Traverser

namespace EntryQuery

open Workspace Traverser

variable {υ β : Type} {q : EntryQuery υ} {start : Ledger}

/-- Whoever asks reads the stores of the workspace itself, and gives functions that close what they
open. -/
def IsNeat (q : EntryQuery υ) : Prop := (q.traverser 0).IsNeat

theorem IsNeat.traverser (hq : q.IsNeat) (n : Nat) : (q.traverser n).IsNeat :=
  ⟨hq.backend, hq.predicate, hq.progress⟩

/-- The cursors of a stream's traverser are the stream's to close. -/
def owners : EntryStream → List Nat
  | .running n _ => [n]
  | .unopened | .finished => []

/-- Making the traverser fails and changes nothing, or answers with one that has registered
nothing. -/
theorem openTraverser_cases (hq : q.IsNeat) (w : Workspace υ) :
    (∃ e, q.openTraverser w = (.error e, w)) ∨
      ∃ w' h, q.openTraverser w = (.ok (q.traverser w.traversers.length), w') ∧
        h.cursors = [] ∧ w'.ledger = w.ledger.enrolled h := by
  rw [openTraverser, ofSettings, Action.bind_apply]
  rcases q.settings.check_cases w with hcheck | ⟨e, hcheck⟩
  · rw [hcheck]
    exact .inr (create_cases hq.backend ..)
  · rw [hcheck]
    exact .inl ⟨e, rfl⟩

theorem entrusted_openTraverser (hq : q.IsNeat) {w : Workspace υ}
    (hw : Ledger.Entrusted start [] [] w.ledger) :
    (∃ e, q.openTraverser w = (.error e, w)) ∨
      ∃ n w', q.openTraverser w = (.ok (q.traverser n), w') ∧
        Ledger.Entrusted start [] [n] w'.ledger := by
  rcases openTraverser_cases hq w with hfail | ⟨w', x, hopen, hx, hledger⟩
  · exact .inl hfail
  · have hspare := hw.spare_enrolled hx
    have hlength : w.ledger.traversers.length = w.traversers.length := List.length_map _
    rw [hlength, ← hledger] at hspare
    have hw' : Ledger.Entrusted start [] [] w'.ledger := hledger ▸ hw.after_enrolled x
    refine .inr ⟨_, w', hopen, hw'.passed (fun _ hm => (List.not_mem_nil hm).elim) fun m hm => ?_⟩
    exact .inr (List.mem_singleton.1 hm ▸ hspare)

/-- A call for all entries closes its cursor. -/
theorem restores_fold (hq : q.IsNeat) {f : β → Entry → Action (Workspace υ) β}
    (hf : ∀ b e, Restores (f b e)) (b : β) : Restores (q.fold f b) := by
  intro w hw
  rw [fold, Action.bind_apply]
  rcases entrusted_openTraverser hq (hw.entrusted []) with ⟨e, hfail⟩ | ⟨n, w', hopen, hw'⟩
  · rw [hfail]
    exact hw.entrusted []
  · rw [hopen]
    exact entrusted_fold (hq.traverser n) (List.mem_singleton.2 rfl) hf b hw'
      (fun m hm => .inl (List.mem_singleton.1 hm)) fun m hm => (List.not_mem_nil hm).elim

/-! ### Streams -/

/-- The stream that is left when the next entry was asked for. -/
def left : Except Failure (Option (Entry × EntryStream)) → EntryStream
  | .ok (some (_, s)) => s
  | .ok none | .error _ => .finished

theorem entrusted_step {t : Traverser υ} (ht : t.IsNeat) (it : Iteration) {w : Workspace υ}
    (hw : Ledger.Entrusted start [] [t.number] w.ledger) :
    Ledger.Entrusted start [] (owners (left (step t it w).1)) (step t it w).2.ledger := by
  have hn : t.number ∈ [t.number] := List.mem_singleton.2 rfl
  have hnext : Ledger.Entrusted start [] [t.number] (t.next it w).2.ledger :=
    upholds_next ht.heeds (allows_entrusted hn) it w hw
  have hclosed : Ledger.Entrusted start [] [] (t.close (t.next it w).2).2.ledger :=
    entrusted_close hn hnext (fun m hm => .inl (List.mem_singleton.1 hm))
      fun m hm => (List.not_mem_nil hm).elim
  simp only [step, Action.bind_apply, Action.attempt]
  rcases hfound : t.next it w with ⟨e | _ | found, w₁⟩
  · rw [hfound] at hclosed
    dsimp only [Action.bind_apply] at hclosed ⊢
    rcases hclose : t.close w₁ with ⟨_ | ⟨⟩, w₂⟩ <;> rw [hclose] at hclosed <;> exact hclosed
  · rw [hfound] at hclosed
    dsimp only [Action.bind_apply] at hclosed ⊢
    rcases hclose : t.close w₁ with ⟨_ | ⟨⟩, w₂⟩ <;> rw [hclose] at hclosed <;> exact hclosed
  · rw [hfound] at hnext
    exact hnext

theorem entrusted_next (hq : q.IsNeat) (s : EntryStream) {w : Workspace υ}
    (hw : Ledger.Entrusted start [] (owners s) w.ledger) :
    Ledger.Entrusted start [] (owners (left (q.next s w).1)) (q.next s w).2.ledger := by
  cases s with
  | unopened =>
    rw [next, Action.bind_apply]
    rcases entrusted_openTraverser hq hw with ⟨e, hfail⟩ | ⟨n, w₁, hopen, hw₁⟩
    · rw [hfail]
      exact hw
    · rw [hopen]
      have hiterate := upholds_iterate (q.traverser n) w₁ hw₁
      exact entrusted_step (hq.traverser n) _ hiterate
  | running n it => exact entrusted_step (hq.traverser n) it hw
  | finished => exact hw

theorem entrusted_stop (q : EntryQuery υ) (s : EntryStream) {w : Workspace υ}
    (hw : Ledger.Entrusted start [] (owners s) w.ledger) :
    Ledger.Entrusted start [] [] (q.stop s w).2.ledger := by
  cases s with
  | unopened => exact hw
  | running n it =>
    exact entrusted_close (List.mem_singleton.2 rfl) hw (fun m hm => .inl (List.mem_singleton.1 hm))
      fun m hm => (List.not_mem_nil hm).elim
  | finished => exact hw

/-- Hands the entries of a stream to bodies, one after the other. The stream is stopped when a body
fails or when there are no more bodies. -/
def session (q : EntryQuery υ) :
    List (Entry → Action (Workspace υ) Unit) → EntryStream → Action (Workspace υ) Unit
  | [], s => q.stop s
  | body :: bodies, s => do
    match ← q.next s with
    | none => pure ()
    | some (e, s) =>
      match ← Action.attempt (body e) with
      | .ok () => q.session bodies s
      | .error failure =>
        q.stop s
        Action.fail failure

theorem entrusted_session (hq : q.IsNeat) {bodies : List (Entry → Action (Workspace υ) Unit)}
    (hbodies : ∀ body ∈ bodies, ∀ e, Restores (body e)) (s : EntryStream) {w : Workspace υ}
    (hw : Ledger.Entrusted start [] (owners s) w.ledger) :
    Ledger.Entrusted start [] [] (q.session bodies s w).2.ledger := by
  induction bodies generalizing s w with
  | nil => exact entrusted_stop q s hw
  | cons body bodies ih =>
    obtain ⟨hbody, hbodies⟩ := List.forall_mem_cons.1 hbodies
    have hnext := entrusted_next hq s hw
    rw [session, Action.bind_apply]
    rcases hfound : q.next s w with ⟨e | _ | found, w₁⟩
    · rw [hfound] at hnext
      exact hnext
    · rw [hfound] at hnext
      exact hnext
    · rw [hfound] at hnext
      obtain ⟨e, s'⟩ := found
      have hbody := (hbody e).upholds w₁ hnext
      dsimp only
      rw [Action.bind_apply, Action.attempt]
      rcases hran : body e w₁ with ⟨failure | ⟨⟩, w₂⟩
      · rw [hran] at hbody
        have hstop := entrusted_stop q s' hbody
        dsimp only at hstop ⊢
        rw [Action.bind_apply]
        rcases hstopped : q.stop s' w₂ with ⟨_ | ⟨⟩, w₃⟩ <;> rw [hstopped] at hstop <;> exact hstop
      · rw [hran] at hbody
        exact ih hbodies s' hbody

/-- A stream that is exhausted, fails or is stopped has closed its cursor. -/
theorem restores_session (hq : q.IsNeat) {bodies : List (Entry → Action (Workspace υ) Unit)}
    (hbodies : ∀ body ∈ bodies, ∀ e, Restores (body e)) :
    Restores (q.session bodies .unopened) :=
  fun _ hw => entrusted_session hq hbodies .unopened (hw.entrusted [])

end EntryQuery

/-! ## Many traversers -/

namespace Traverser

open Workspace

variable {υ α : Type} {start : Ledger} {mine : List Nat} {w : Workspace υ}
  {ts : List (Traverser υ)} {consumer : Entry → Action (Workspace υ) Unit}

theorem entrusted_workers (hts : ∀ t ∈ ts, t.IsNeat) (hconsumer : ∀ e, Restores (consumer e))
    (hw : Ledger.Entrusted start mine (ts.map number) w.ledger) :
    ∃ outcomes w', (ts.mapM fun t : Traverser υ => do
      return (t, ← Action.attempt (t.consume consumer))) w = (.ok outcomes, w') ∧
        Ledger.Entrusted start mine [] w'.ledger := by
  induction ts generalizing w with
  | nil => exact ⟨[], w, rfl, hw⟩
  | cons t ts ih =>
    obtain ⟨ht, hts⟩ := List.forall_mem_cons.1 hts
    have hcount (n : Nat) (e : Entry) : Restores (do
        consumer e
        pure (n + 1)) := (hconsumer e).bind fun _ => restores_pure _
    have hw₁ : Ledger.Entrusted start mine (ts.map number) (t.consume consumer w).2.ledger :=
      entrusted_fold ht List.mem_cons_self hcount 0 hw (fun _ => List.mem_cons.1)
        fun _ => List.mem_cons_of_mem _
    obtain ⟨outcomes, w', hothers, hw'⟩ := ih hts hw₁
    refine ⟨(t, (t.consume consumer w).1) :: outcomes, w', ?_, hw'⟩
    simp only [List.mapM_cons, Action.bind_apply, Action.attempt, Action.pure_apply, hothers]

theorem upholds_gatherCounts {P : Ledger → Prop}
    (outcomes : List (Traverser υ × Except Failure Nat)) (counts : OrderedMap Nat) :
    Upholds P (gatherCounts outcomes counts) := by
  induction outcomes generalizing counts with
  | nil => exact Action.maintains_pure counts
  | cons outcome rest ih =>
    obtain ⟨t, outcome⟩ := outcome
    exact Action.Maintains.bind (Action.maintains_ofExcept _) fun n =>
      (upholds_note _).bind fun _ => ih _

/-- A parallel run closes what its workers opened, whatever became of them. -/
theorem entrusted_parallel (hts : ∀ t ∈ ts, t.IsNeat)
    (hspare : ∀ t ∈ ts, Ledger.Spare start mine w.ledger t.number)
    (hconsumer : ∀ e, Restores (consumer e)) (maxWorkers : Option Int)
    (hw : Ledger.Entrusted start mine [] w.ledger) :
    Ledger.Entrusted start mine [] (parallel ts consumer maxWorkers w).2.ledger := by
  rw [parallel]
  split
  · exact hw
  split
  · exact hw
  · have howned : Ledger.Entrusted start mine (ts.map number) w.ledger := by
      refine hw.passed (fun _ hm => (List.not_mem_nil hm).elim) fun m hm => .inr ?_
      obtain ⟨t, ht, rfl⟩ := List.mem_map.1 hm
      exact hspare t ht
    obtain ⟨outcomes, w', hworkers, hw'⟩ := entrusted_workers hts hconsumer howned
    rw [Action.bind_apply, hworkers]
    exact upholds_gatherCounts outcomes .empty w' hw'

/-- Making traversers of a snapshot answers with traversers that have registered nothing. -/
theorem entrusted_mapM_create {make : α → Traverser υ} (hmake : ∀ a, (make a).IsNeat)
    (v : RevisionVector) (roots : List String) (l : List α)
    (hw : Ledger.Entrusted start mine [] w.ledger) :
    ∃ ts w', (l.mapM fun a => (make a).create (some v) roots) w = (.ok ts, w') ∧
      Ledger.Entrusted start mine [] w'.ledger ∧ (∀ t ∈ ts, t.IsNeat) ∧
      (∀ t ∈ ts, Ledger.Spare start mine w'.ledger t.number) ∧
      ∀ n, Ledger.Spare start mine w.ledger n → Ledger.Spare start mine w'.ledger n := by
  induction l generalizing w with
  | nil =>
    exact ⟨[], w, rfl, hw, List.forall_mem_nil _, List.forall_mem_nil _, fun _ hn => hn⟩
  | cons a l ih =>
    obtain ⟨w₁, x, hcreate, hx, hledger⟩ := create_cases (hmake a).backend (some v) roots w
    have hlength : w.ledger.traversers.length = w.traversers.length := List.length_map _
    have hspare := hw.spare_enrolled hx
    rw [hlength, ← hledger] at hspare
    obtain ⟨ts, w', hmapM, hw', hneat, hspares, hkept⟩ := ih (hledger ▸ hw.after_enrolled x)
    refine ⟨{ make a with number := w.traversers.length } :: ts, w', ?_, hw',
      List.forall_mem_cons.2 ⟨⟨(hmake a).backend, (hmake a).predicate, (hmake a).progress⟩, hneat⟩,
      List.forall_mem_cons.2 ⟨hkept _ hspare, hspares⟩, fun n hn => hkept n ?_⟩
    · simp only [List.mapM_cons, Action.bind_apply, hcreate, hmapM]
      rfl
    · exact hledger ▸ hn.after_enrolled x

theorem createPartitioned_cases {t : Traverser υ} (ht : t.IsNeat) (parts : Int)
    (snapshot : Option RevisionVector) (roots : List String)
    (hw : Ledger.Entrusted start mine [] w.ledger) :
    (∃ e, t.createPartitioned parts snapshot roots w = (.error e, w)) ∨
      ∃ ts w', t.createPartitioned parts snapshot roots w = (.ok ts, w') ∧
        Ledger.Entrusted start mine [] w'.ledger ∧ (∀ t ∈ ts, t.IsNeat) ∧
        ∀ t ∈ ts, Ledger.Spare start mine w'.ledger t.number := by
  rw [createPartitioned_snapshot ht.backend, createPartitioned, Action.bind_apply,
    Action.pure_apply]
  dsimp only
  rw [Action.bind_apply]
  cases (t.range.split parts).mapError Failure.range with
  | error e => exact .inl ⟨e, rfl⟩
  | ok ranges =>
    have hmake (part : TimeRange × Nat) :
        IsNeat { t with label := t.label ++ "-" ++ toString part.2, range := part.1 } :=
      ⟨ht.backend, ht.predicate, ht.progress⟩
    obtain ⟨ts, w', hmapM, hw', hneat, hspares, -⟩ :=
      entrusted_mapM_create hmake (snapshot.getD w.head) roots ranges.zipIdx hw
    exact .inr ⟨ts, w', hmapM, hw', hneat, hspares⟩

end Traverser

/-- A partitioned run closes what its workers opened. -/
theorem EntryQuery.restores_partitioned {υ : Type} {q : EntryQuery υ} (hq : q.IsNeat)
    {consumer : Entry → Action (Workspace υ) Unit}
    (hconsumer : ∀ e, Workspace.Restores (consumer e)) :
    Workspace.Restores (q.partitioned consumer) := by
  intro w hw
  have ht : (Traverser.described q.settings .nodes q.backend).IsNeat :=
    ⟨hq.backend, hq.predicate, hq.progress⟩
  have hstart := hw.entrusted []
  rw [partitioned, Action.bind_apply]
  rcases q.settings.check_cases w with hcheck | ⟨e, hcheck⟩
  · rw [hcheck]
    dsimp only
    rw [Action.bind_apply]
    rcases Traverser.createPartitioned_cases ht (q.settings.partitions.getD 1) q.snapshot
      q.settings.hiddenRoots hstart with ⟨e, hfail⟩ | ⟨ts, w', hmade, hw', hneat, hspares⟩
    · rw [hfail]
      exact hstart
    · rw [hmade]
      exact Traverser.entrusted_parallel hneat hspares hconsumer _ hw'
  · rw [hcheck]
    exact hstart

/-! ## Traversers that take turns -/

namespace Ledger

variable {start l l' : Ledger} {mine owners : List Nat} {n m : Nat}

theorem Idle.then (h : l.Idle m) (hm : m < l.traversers.length) (h' : l.Restored l') :
    l'.Idle m := by
  rw [Idle, h'.others m hm List.not_mem_nil]
  exact h

theorem Idle.modifyHolding (h : l.Idle m) (f : Holding → Holding)
    (hf : ∀ x, (∃ snapshot, x.pin = { snapshot }) → ∃ snapshot, (f x).pin = { snapshot })
    (n : Nat) :
    (l.modifyHolding n f).Idle m := by
  rw [Idle]
  by_cases hmn : n = m
  · subst hmn
    by_cases hn : n < l.traversers.length
    · rw [holding_modifyHolding_same hn]
      exact hf _ h
    · have hout : (l.modifyHolding n f).traversers[n]? = none := by
        rw [List.getElem?_eq_none_iff, length_modifyHolding]
        exact Nat.le_of_not_lt hn
      rw [holding_eq, hout]
      exact ⟨none, rfl⟩
  · rw [holding_modifyHolding_ne hmn]
    exact h

/-- Of the traversers of mine, none reads the head or waits for it. -/
structure Calm (start : Ledger) (mine owners : List Nat) (l : Ledger) : Prop
    extends Entrusted start mine owners l where
  idle : ∀ m ∈ mine, m < start.traversers.length ∧ l.Idle m

theorem Calm.then (h : Calm start mine owners l) (h' : l.Restored l') :
    Calm start mine owners l' := by
  refine ⟨h.toEntrusted.then h', fun m hm => ?_⟩
  obtain ⟨hlength, hidle⟩ := h.idle m hm
  exact ⟨hlength, hidle.then (Nat.lt_of_lt_of_le hlength h.enrolled) h'⟩

theorem Calm.repinned (h : Calm start mine owners l) (hn : n ∈ owners) (v : RevisionVector) :
    Calm start mine owners (l.repinned n fun _ => .of v) :=
  ⟨h.toEntrusted.repinned hn _, fun m hm => ⟨(h.idle m hm).1,
    (h.idle m hm).2.modifyHolding _ (fun _ _ => ⟨some v, rfl⟩) n⟩⟩

theorem Calm.scanned (h : Calm start mine owners l) (hn : n ∈ owners) :
    Calm start mine owners (l.scanned n) :=
  ⟨h.toEntrusted.scanned hn, fun m hm => ⟨(h.idle m hm).1,
    Idle.modifyHolding (l := l.opened) (h.idle m hm).2
      (fun x => { x with cursors := x.cursors ++ [l.cursors.length] }) (fun _ hx => hx) n⟩⟩

theorem Calm.settled (h : Calm start mine owners l) (hn : n ∈ owners) :
    Calm start mine owners (l.settled n) := by
  refine ⟨h.toEntrusted.settled hn, fun m hm => ⟨(h.idle m hm).1, ?_⟩⟩
  rw [Idle, holding_settled]
  exact (h.idle m hm).2.modifyHolding (fun x => { x with cursors := [] }) (fun _ hx => hx) n

end Ledger

namespace Turntaker

open Workspace Traverser

variable {υ : Type} {start : Ledger} {mine : List Nat} {r : Turntaker υ}

theorem upholds_turn_calm {owners : List Nat} (ht : r.traverser.IsNeat)
    (hn : r.traverser.number ∈ owners) (hmine : r.traverser.number ∈ mine) :
    Upholds (Ledger.Calm start mine owners) r.turn := by
  have hrestores {α : Type} {x : Action (Workspace υ) α} (hx : Restores x) :
      Upholds (Ledger.Calm start mine owners) x := fun w hw => hw.then (hx w hw.balanced)
  have hheeds : r.traverser.Heeds (Ledger.Calm start mine owners) :=
    ⟨ht.backend, fun path => hrestores (ht.predicate path), fun id => hrestores (ht.progress id)⟩
  refine upholds_turn (upholds_advance_of_idle hheeds (fun _ h => (h.idle _ hmine).2)
    (fun _ v h => h.repinned hn v) (fun _ h => h.scanned hn) true) ?_
  exact upholds_close fun _ h => h.settled hn

/-- The cursors of those whose turns are to come are theirs to close. -/
def owners (takers : List (Turntaker υ)) : List Nat :=
  (takers.filter isDue).map (·.traverser.number)

theorem mem_owners {takers : List (Turntaker υ)} {n : Nat} :
    n ∈ owners takers ↔ ∃ r ∈ takers, r.isDue = true ∧ r.traverser.number = n := by
  simp only [owners, List.mem_map, List.mem_filter, and_assoc]

/-- What turns preserve, of iterations that close their traversers at the end. -/
structure Carried (start : Ledger) (mine : List Nat) (takers : List (Turntaker υ))
    (w : Workspace υ) : Prop where
  calm : Ledger.Calm start mine (owners takers) w.ledger
  neat : ∀ r ∈ takers, r.traverser.IsNeat ∧ r.traverser.number ∈ mine ∧ r.closes = true

theorem carries_carried (start : Ledger) (mine : List Nat) :
    Line.Carries (Carried (υ := υ) start mine) := by
  intro takers w i r hw hr hrests hdue
  have hmem : r ∈ takers := List.mem_of_getElem? hr
  obtain ⟨ht, hmine, hcloses⟩ := hw.neat r hmem
  have hn : r.traverser.number ∈ owners takers := mem_owners.2 ⟨r, hmem, hdue, rfl⟩
  obtain ⟨r', w', n, hturn, htook, hnearer⟩ :=
    took_turn r ht.backend (hw.calm.idle _ hmine).2 hrests hdue
  have hcalm : Ledger.Calm start mine (owners takers) w'.ledger := by
    have hkept := upholds_turn_calm ht hn hmine w hw.calm
    rwa [hturn] at hkept
  refine ⟨r', w', hturn, htook.rests, hnearer, ⟨⟨?_, hcalm.idle⟩, fun x hx => ?_⟩⟩
  · refine hcalm.passed (fun m hm => ?_) fun m hm => .inl ?_
    · obtain ⟨x, hx, hxdue, rfl⟩ := mem_owners.1 hm
      obtain ⟨j, hj⟩ := List.getElem?_of_mem hx
      by_cases hji : i = j
      · obtain rfl : r = x := Option.some.inj (hr.symm.trans (hji ▸ hj))
        rcases htook.standing with ⟨failure, -, hclosed⟩ | ⟨scan, hscan, -⟩
        · obtain ⟨w₀, rfl⟩ := hclosed hcloses
          rw [ledger_close]
          exact .inr (Ledger.cursors_holding_settled _ _)
        · have hr'due : r'.isDue = true := by rw [isDue, hscan]
          have hr'mem : r' ∈ takers.set i r' :=
            List.mem_set (List.getElem?_eq_some_iff.1 hr).1 r'
          exact .inl (mem_owners.2 ⟨r', hr'mem, hr'due, congrArg number htook.traverser⟩)
      · have hxmem : x ∈ takers.set i r' := by
          refine List.mem_of_getElem? (i := j) ?_
          rwa [List.getElem?_set_ne hji]
        exact .inl (mem_owners.2 ⟨x, hxmem, hxdue, rfl⟩)
    · obtain ⟨x, hx, hxdue, rfl⟩ := mem_owners.1 hm
      rcases List.mem_or_eq_of_mem_set hx with hx | rfl
      · exact mem_owners.2 ⟨x, hx, hxdue, rfl⟩
      · rw [htook.traverser]
        exact hn
  · rcases List.mem_or_eq_of_mem_set hx with hx | rfl
    · exact hw.neat x hx
    · rw [htook.traverser, htook.closes]
      exact ⟨ht, hmine, hcloses⟩

/-- When all have ended, all that they opened is closed. -/
theorem Carried.entrusted {takers : List (Turntaker υ)} {w : Workspace υ}
    (h : Carried start mine takers w)
    (hended : ∀ r ∈ takers, ∃ failure, r.standing = .ended failure) :
    Ledger.Entrusted start mine [] w.ledger := by
  have hnone : owners takers = [] := by
    refine List.eq_nil_iff_forall_not_mem.2 fun m hm => ?_
    obtain ⟨r, hr, hdue, -⟩ := mem_owners.1 hm
    obtain ⟨failure, hstanding⟩ := hended r hr
    rw [isDue, hstanding] at hdue
    cases hdue
  exact hnone ▸ h.calm.toEntrusted

/-- One iteration for each traverser, which is closed in the end. -/
def closing (ts : List (Traverser υ)) : List (Turntaker υ) :=
  ts.map fun traverser => { traverser, closes := true }

theorem of_mem_closing {ts : List (Traverser υ)} (hr : r ∈ closing ts) :
    ∃ t ∈ ts, r = { traverser := t, closes := true } := by
  obtain ⟨t, ht, rfl⟩ := List.mem_map.1 hr
  exact ⟨t, ht, rfl⟩

theorem unbegun_closing {ts : List (Traverser υ)} : ∀ r ∈ closing ts, r.standing = .unbegun := by
  intro r hr
  obtain ⟨t, -, rfl⟩ := of_mem_closing hr
  rfl

theorem carried_closing {ts : List (Traverser υ)} {w : Workspace υ} (hw : w.ledger.Balanced)
    (hts : ∀ t ∈ ts, t.IsNeat ∧ t.IsFresh w) :
    Carried w.ledger (ts.map number) (closing ts) w := by
  have hfresh : ∀ m ∈ ts.map number, Ledger.Spare w.ledger (ts.map number) w.ledger m ∧
      w.ledger.Idle m := by
    intro m hm
    obtain ⟨t, ht, rfl⟩ := List.mem_map.1 hm
    exact ⟨(hts t ht).2.spare hm, (hts t ht).2.idle⟩
  refine ⟨⟨(hw.entrusted _).passed (fun _ hm => (List.not_mem_nil hm).elim) fun m hm => ?_,
    fun m hm => ⟨(hfresh m hm).1.enrolled, (hfresh m hm).2⟩⟩, fun r hr => ?_⟩
  · obtain ⟨r, hr, -, rfl⟩ := mem_owners.1 hm
    obtain ⟨t, ht, rfl⟩ := of_mem_closing hr
    exact .inr (hfresh _ (List.mem_map_of_mem ht)).1
  · obtain ⟨t, ht, rfl⟩ := of_mem_closing hr
    exact ⟨(hts t ht).1, List.mem_map_of_mem ht, rfl⟩

end Turntaker

/-- A concurrent run closes what its iterations opened, and it ends. -/
theorem Traverser.entrusted_concurrent {υ : Type} {ts : List (Traverser υ)} {w : Workspace υ}
    (hw : w.ledger.Balanced) (hts : ∀ t ∈ ts, t.IsNeat ∧ t.IsFresh w) :
    Ledger.Entrusted w.ledger (ts.map number) [] (concurrent ts w).2.ledger := by
  obtain ⟨l, w', hrun, hend, hended⟩ :=
    Line.run_ends (Turntaker.carries_carried w.ledger (ts.map number)) Turntaker.unbegun_closing
      (Turntaker.carried_closing hw hts)
  have hrun : (Line.ofTakers (ts.map fun traverser => { traverser, closes := true })).run w =
      (.ok l, w') := hrun
  rw [concurrent, Action.bind_apply, hrun]
  let P (w' : Workspace υ) : Prop := Ledger.Entrusted w.ledger (ts.map number) [] w'.ledger
  have hw' : P w' := hend.entrusted hended
  refine Action.maintains_mapM (fun r _ => ?_) w' hw'
  cases r.failure? with
  | some e => exact Action.maintains_fail e
  | none => exact Action.maintains_pure _

/-! ## Accounts -/

namespace Workspace

variable {υ α : Type} {w : Workspace υ}

/-- The functions of a caller close what they open. -/
theorem restores_callback (f : Callback υ α) : Restores f.perform :=
  Quiet.restores (quiet_of_upholds fun _ => upholds_callback f)

/-- The calls that open cursors of their own: for entries, in one go or one by one, and runs of
traversers that were made before. -/
inductive Call (w : Workspace υ) : {α : Type} → Action (Workspace υ) α → Prop where
  | paths {q : EntryQuery υ} (hq : q.IsNeat) : Call w q.paths
  | count {q : EntryQuery υ} (hq : q.IsNeat) : Call w q.count
  | entries {q : EntryQuery υ} (hq : q.IsNeat) {bodies : List (Entry → Action (Workspace υ) Unit)}
    (hbodies : ∀ body ∈ bodies, ∀ e, Restores (body e)) : Call w (q.session bodies .unopened)
  | partitioned {q : EntryQuery υ} (hq : q.IsNeat) {consumer : Entry → Action (Workspace υ) Unit}
    (hconsumer : ∀ e, Restores (consumer e)) : Call w (q.partitioned consumer)
  | parallel {ts : List (Traverser υ)} (hts : ∀ t ∈ ts, t.IsNeat ∧ t.IsFresh w)
    {consumer : Entry → Action (Workspace υ) Unit} (hconsumer : ∀ e, Restores (consumer e))
    (maxWorkers : Option Int) : Call w (Traverser.parallel ts consumer maxWorkers)
  | concurrent {ts : List (Traverser υ)} (hts : ∀ t ∈ ts, t.IsNeat ∧ t.IsFresh w) :
    Call w (Traverser.concurrent ts)

theorem Call.openCursors {x : Action (Workspace υ) α} (hx : Call w x) (hw : w.ledger.Balanced) :
    (x w).2.store.openCursors = w.store.openCursors := by
  have hrestored {mine : List Nat} (h : w.ledger.Entrusted mine [] (x w).2.ledger) :
      (x w).2.store.openCursors = w.store.openCursors := h.openCursors hw
  cases hx with
  | paths hq => exact hrestored (EntryQuery.restores_fold hq (fun _ _ => restores_pure _) _ w hw)
  | count hq => exact hrestored (EntryQuery.restores_fold hq (fun _ _ => restores_pure _) _ w hw)
  | entries hq hbodies => exact hrestored (EntryQuery.restores_session hq hbodies w hw)
  | partitioned hq hconsumer => exact hrestored (EntryQuery.restores_partitioned hq hconsumer w hw)
  | @parallel ts hts consumer hconsumer maxWorkers =>
    have hspare : ∀ t ∈ ts, Ledger.Spare w.ledger (ts.map Traverser.number) w.ledger t.number :=
      fun t ht => (hts t ht).2.spare (List.mem_map_of_mem ht)
    exact hrestored (Traverser.entrusted_parallel (fun t ht => (hts t ht).1) hspare hconsumer
      maxWorkers (hw.entrusted _))
  | concurrent hts => exact hrestored (Traverser.entrusted_concurrent hw hts)

/-- Whatever was done with the workspace of a new store, the store counts the cursors that were
opened and those of them that were not closed. From there a call that opens cursors of its own
leaves as many open as there were, whether it answers or fails. -/
theorem accounts_balance {settings : CacheSettings} {store : DocumentStore}
    (hstore : DocumentStore.create settings = .ok store) (cluster : Int) (caller : υ)
    {x : Action (Workspace υ) α} (hx : Operation x) :
    let w := (x (start store cluster caller)).2
    w.store.openCursors = w.cursors.countP (!·.closed) ∧ w.store.queries = w.cursors.length ∧
      ∀ {β : Type} {y : Action (Workspace υ) β}, Call w y →
        (y w).2.store.openCursors = w.store.openCursors := by
  intro w
  have hw : w.ledger.Balanced :=
    hx.keeps Ledger.stable_balanced _ (balanced_start hstore cluster caller)
  refine ⟨?_, ?_, fun hy => hy.openCursors hw⟩
  · have hcount : w.store.openCursors = (w.cursors.map Cursor.account).countP (!·.1) :=
      hw.openCursors
    rw [hcount, List.countP_map]
    rfl
  · have hlength : w.store.queries = (w.cursors.map Cursor.account).length := hw.queries
    rwa [List.length_map] at hlength

/-- Of two iterations that were abandoned, one has its cursor closed twice. Then a traverser runs
whose predicate fails. -/
theorem accounts_balance_after_abandoned_iterations :
    let t : Traverser Nat := { label := "t" }
    let refused : Callback Nat Bool :=
      .request (.find "1:/a") fun _ => .done (.error (.raised .runtime "no"))
    let failing : Traverser Nat :=
      { number := 1, label := "failing", delivery := .documents
        predicate := fun _ => refused.perform }
    let x : Action (Workspace Nat) Unit := do
      let _ ← Request.perform (.commit "/a" [] .empty none)
      let _ ← t.create none
      let _ ← failing.createLazily none
      let _ ← t.advance false (.entering (← t.iterate))
      let _ ← t.advance false (.entering (← t.iterate))
      closeCursor 0
      closeCursor 0
    let w := (x (start { cache := some { limit := some 1 } } 1 0)).2
    w.store.openCursors = 1 ∧ w.cursors.countP (!·.closed) = 1 ∧
      w.store.queries = 2 ∧ w.cursors.length = 2 ∧
      (Traverser.concurrent [failing] w).2.store.openCursors = 1 := by
  intro t refused failing x w
  have hpure {α : Type} (a : α) : Operation (υ := Nat) (pure a) := .pure a
  have hadvance (it : Iteration) : Operation (t.advance false it) :=
    .advance rfl (fun _ => hpure true) (fun _ => hpure ()) false it
  have hx : Operation x :=
    .bind (.request _) fun _ _ => .bind (.create rfl none _) fun _ _ =>
    .bind (.createLazily failing none) fun _ _ => .bind (.iterate t) fun _ _ =>
    .bind (hadvance _) fun _ _ => .bind (.iterate t) fun _ _ =>
    .bind (hadvance _) fun _ _ => .bind (.closeCursor 0) fun _ _ => .closeCursor 0
  have hstore : DocumentStore.create { maxEntries := some 1 } =
      .ok { cache := some { limit := some 1 } } := rfl
  obtain ⟨hopen, hqueries, hcall⟩ := accounts_balance hstore 1 0 hx
  have hneat : failing.IsNeat :=
    ⟨rfl, fun _ => restores_callback refused, fun _ => restores_pure ()⟩
  have hfresh : failing.IsFresh w := ⟨by decide +kernel, by decide +kernel, by decide +kernel,
    by decide +kernel, by decide +kernel⟩
  have hone : w.store.openCursors = 1 := by decide +kernel
  have htwo : w.store.queries = 2 := by decide +kernel
  refine ⟨hone, hopen ▸ hone, htwo, hqueries ▸ htwo, ?_⟩
  have hts : ∀ t ∈ [failing], t.IsNeat ∧ t.IsFresh w :=
    List.forall_mem_singleton.2 ⟨hneat, hfresh⟩
  exact (hcall (.concurrent hts)).trans hone

end Workspace

end VersionedTree
