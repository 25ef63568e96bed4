import VersionedTree.Proofs.Coherence
import Mathlib.Data.Finset.Card
import Mathlib.Data.List.Dedup

/-! # The cache gives up what was not used for longest

A cache is told by the operations made on it. Its ids stand in the order in which they were last
used, by a put or by a hit, and so a document goes for room only when as many others as the cache
may hold were used after it. What is held under an id is what was put there last.
-/

namespace VersionedTree

namespace OrderedMap

variable {β : Type} {m : OrderedMap β} {key : String} {value : β}

theorem mem_putEntry_self (l : List (String × β)) : (key, value) ∈ putEntry key value l := by
  induction l with
  | nil => simp [putEntry]
  | cons a l ih =>
    rw [putEntry]
    split
    · exact List.mem_cons_self
    · exact List.mem_cons_of_mem _ ih

theorem eq_or_mem_of_mem_put {e : String × β} (h : e ∈ (m.put key value).entries) :
    e = (key, value) ∨ e ∈ m.entries ∧ e.1 ≠ key := by
  by_cases hkey : e.1 = key
  · subst hkey
    have held : (m.put e.1 value).get? e.1 = some e.2 := get?_of_mem h
    have new : (m.put e.1 value).get? e.1 = some value := get?_of_mem (mem_putEntry_self _)
    exact .inl (Prod.ext rfl (Option.some.inj (held.symm.trans new)))
  · rcases mem_of_mem_put h with rfl | h
    · exact .inl rfl
    · exact .inr ⟨h, hkey⟩

end OrderedMap

namespace DocumentCache

inductive Operation where
  | get (id : String)
  | put (d : Document)
  /-- Without an id, of all documents. -/
  | invalidate (id : Option String)
  | clear

namespace Operation

def perform (c : DocumentCache) : Operation → DocumentCache
  | get id => (c.get id).2
  | put d => c.put d
  | invalidate (some id) => (c.invalidate id).2
  | invalidate none => c.clear
  | clear => c.clear

/-- The id that a put or a hit uses. -/
def use? (c : DocumentCache) : Operation → Option String
  | get id => if c.contains id then some id else none
  | put d => some d.id
  | invalidate _ => none
  | clear => none

def isGet : Operation → Bool
  | get _ => true
  | _ => false

/-- Is a document put under an id that holds none? -/
def isNewcomer (c : DocumentCache) : Operation → Bool
  | put d => !c.contains d.id
  | _ => false

/-- How many documents are invalidated or cleared. -/
def removed (c : DocumentCache) : Operation → Nat
  | invalidate (some id) => (c.invalidate id).1
  | invalidate none => c.size
  | clear => c.size
  | _ => 0

def drops (id : String) : Operation → Bool
  | invalidate (some key) => key = id
  | invalidate none => true
  | clear => true
  | _ => false

def document? (id : String) : Operation → Option Document
  | put d => if d.id = id then some d else none
  | _ => none

end Operation

def fresh (limit : Option Nat) : DocumentCache := { limit }

def run (c : DocumentCache) (ops : List Operation) : DocumentCache :=
  ops.foldl Operation.perform c

/-- The operations, each with the cache that it finds. -/
def course : DocumentCache → List Operation → List (DocumentCache × Operation)
  | _, [] => []
  | c, op :: ops => (c, op) :: course (op.perform c) ops

/-- The ids that are used, in turn. -/
def uses (c : DocumentCache) (ops : List Operation) : List String :=
  (course c ops).filterMap fun step => step.2.use? step.1

def newcomers (c : DocumentCache) (ops : List Operation) : Nat :=
  (course c ops).countP fun step => step.2.isNewcomer step.1

def removals (c : DocumentCache) (ops : List Operation) : Nat :=
  (course c ops).foldr (fun step n => step.2.removed step.1 + n) 0

/-- The document that was put last under an id. -/
def lastPut (id : String) (ops : List Operation) : Option Document :=
  (ops.filterMap (Operation.document? id)).getLast?

variable {c : DocumentCache} {op : Operation} {ops past : List Operation} {limit : Nat}
  {d : Document} {id key : String} {ids among : List String}

@[simp] theorem run_nil : run c [] = c := rfl

@[simp] theorem run_cons : run c (op :: ops) = run (op.perform c) ops := rfl

theorem run_append : run c (past ++ ops) = run (run c past) ops := List.foldl_append

@[simp] theorem uses_nil : uses c [] = [] := rfl

theorem uses_cons : uses c (op :: ops) = (op.use? c).toList ++ uses (op.perform c) ops := by
  cases h : op.use? c <;> simp [uses, course, h]

@[simp] theorem newcomers_nil : newcomers c [] = 0 := rfl

theorem newcomers_cons :
    newcomers c (op :: ops) = newcomers (op.perform c) ops + (op.isNewcomer c).toNat := by
  cases h : op.isNewcomer c <;> simp [newcomers, course, h]

@[simp] theorem removals_nil : removals c [] = 0 := rfl

theorem removals_cons :
    removals c (op :: ops) = op.removed c + removals (op.perform c) ops := rfl

/-! ## What an operation does to the ids -/

/-- The ids with one of them as the newest. -/
def refresh (id : String) (ids : List String) : List String := ids.filter (· != id) ++ [id]

@[simp] theorem contains_eq : c.contains id = decide (id ∈ c.ids) :=
  List.contains_eq_mem id c.ids

theorem size_eq_length_ids : c.size = c.ids.length := by
  simp [size, OrderedMap.size, ids, OrderedMap.keys]

theorem get_fst : (c.get id).1 = c.held.get? id := by
  rw [get]
  split <;> simp_all

theorem exists_get?_of_mem (h : id ∈ c.ids) : ∃ d, c.held.get? id = some d := by
  obtain ⟨⟨key, d⟩, he, rfl⟩ := List.mem_map.1 h
  exact ⟨d, OrderedMap.get?_of_mem he⟩

theorem get?_of_not_mem (h : id ∉ c.ids) : c.held.get? id = none := by
  cases hd : c.held.get? id with
  | none => rfl
  | some d => exact absurd (List.mem_map_of_mem (OrderedMap.mem_of_get?_eq_some hd)) h

theorem ids_get_of_not_mem (h : id ∉ c.ids) : (c.get id).2.ids = c.ids := by
  rw [get, get?_of_not_mem h]
  rfl

theorem ids_get (hlimit : c.limit = some limit) (h : id ∈ c.ids) :
    (c.get id).2.ids = refresh id c.ids := by
  obtain ⟨d, hd⟩ := exists_get?_of_mem h
  simp only [get, hd, hlimit, Option.isSome_some, if_true]
  exact OrderedMap.keys_renew c.held id d

theorem keys_renew : (c.held.renew d.id d).keys = refresh d.id c.ids :=
  OrderedMap.keys_renew c.held d.id d

theorem ids_put (hlimit : c.limit = some limit) :
    (c.put d).ids = (refresh d.id c.ids).drop ((refresh d.id c.ids).length - limit) := by
  rw [← keys_renew]
  simp only [put, evict, hlimit, Option.isSome_some, if_true, size_eq_length_ids]
  exact List.map_drop

theorem ids_get_unbounded (hlimit : c.limit = none) : (c.get id).2.ids = c.ids := by
  rw [get, hlimit]
  split <;> rfl

theorem ids_put_unbounded (hlimit : c.limit = none) :
    (c.put d).ids = if d.id ∈ c.ids then c.ids else c.ids ++ [d.id] := by
  simp only [put, evict, hlimit, Option.isSome_none, Bool.false_eq_true, if_false]
  exact OrderedMap.keys_put c.held d.id d

theorem ids_invalidate : (c.invalidate id).2.ids = c.ids.filter (· != id) :=
  OrderedMap.keys_erase c.held id

@[simp] theorem ids_clear : c.clear.ids = [] := rfl

@[simp] theorem limit_perform : (op.perform c).limit = c.limit := by
  cases op with
  | get id =>
    rw [Operation.perform, get]
    split <;> rfl
  | put d => rfl
  | invalidate id => cases id <;> rfl
  | clear => rfl

theorem limit_run : (run c ops).limit = c.limit := by
  induction ops generalizing c with
  | nil => rfl
  | cons op ops ih => rw [run_cons, ih, limit_perform]

theorem ids_nodup : c.ids.Nodup := c.held.nodup

theorem nodup_refresh (h : ids.Nodup) : (refresh id ids).Nodup := by
  rw [refresh, ← List.concat_eq_append]
  exact (h.filter _).concat (by simp)

theorem length_refresh (h : ids.Nodup) :
    (refresh id ids).length = if id ∈ ids then ids.length else ids.length + 1 := by
  rw [refresh, List.length_append, List.length_singleton]
  split
  · rename_i hid
    have := List.length_pos_of_mem hid
    rw [← h.erase_eq_filter, List.length_erase_of_mem hid]
    omega
  · rename_i hid
    rw [← h.erase_eq_filter, List.erase_of_not_mem hid]

/-! ## Size and counts -/

theorem size_perform_le (hlimit : c.limit = some limit) (h : c.size ≤ limit) :
    (op.perform c).size ≤ limit := by
  rw [size_eq_length_ids] at h ⊢
  cases op with
  | get id =>
    by_cases hid : id ∈ c.ids
    · rw [Operation.perform, ids_get hlimit hid, length_refresh ids_nodup, if_pos hid]
      exact h
    · rw [Operation.perform, ids_get_of_not_mem hid]
      exact h
  | put d =>
    rw [Operation.perform, ids_put hlimit, List.length_drop]
    omega
  | invalidate id =>
    cases id with
    | none => exact Nat.zero_le limit
    | some id =>
      rw [Operation.perform, ids_invalidate]
      exact (List.length_filter_le _ _).trans h
  | clear => exact Nat.zero_le limit

theorem size_run_le (hlimit : c.limit = some limit) (h : c.size ≤ limit) :
    (run c ops).size ≤ limit := by
  induction ops generalizing c with
  | nil => exact h
  | cons op ops ih =>
    rw [run_cons]
    exact ih (limit_perform.trans hlimit) (size_perform_le hlimit h)

theorem lookups_perform :
    (op.perform c).hits + (op.perform c).misses = c.hits + c.misses + op.isGet.toNat := by
  cases op with
  | get id =>
    rw [Operation.perform, get]
    simp only [Operation.isGet, Bool.toNat_true]
    split
    · rfl
    · exact Nat.add_right_comm _ _ _
  | put d => rfl
  | invalidate id => cases id <;> rfl
  | clear => rfl

theorem lookups_run :
    (run c ops).hits + (run c ops).misses = c.hits + c.misses + ops.countP Operation.isGet := by
  induction ops generalizing c with
  | nil => rfl
  | cons op ops ih =>
    rw [run_cons, ih, lookups_perform, List.countP_cons]
    cases op.isGet
    · rfl
    · exact Nat.add_right_comm _ _ _

theorem evictions_put (hlimit : c.limit = some limit) :
    (c.put d).evictions = c.evictions + ((refresh d.id c.ids).length - limit) := by
  rw [← keys_renew]
  simp only [put, evict, hlimit, Option.isSome_some, if_true, size_eq_length_ids]
  rfl

theorem size_invalidate (c : DocumentCache) (id : String) :
    (c.invalidate id).1 + (c.invalidate id).2.size = c.size := by
  rw [size_eq_length_ids, size_eq_length_ids, ids_invalidate, ← ids_nodup.erase_eq_filter]
  by_cases hid : id ∈ c.ids
  · have := List.length_pos_of_mem hid
    simp only [invalidate, contains_eq, hid, decide_true, if_true, List.length_erase_of_mem hid]
    omega
  · simp [invalidate, hid, List.erase_of_not_mem hid]

theorem evictions_get : (c.get id).2.evictions = c.evictions := by
  rw [get]
  split <;> rfl

theorem size_get (hlimit : c.limit = some limit) : (c.get id).2.size = c.size := by
  rw [size_eq_length_ids, size_eq_length_ids]
  by_cases hid : id ∈ c.ids
  · rw [ids_get hlimit hid, length_refresh ids_nodup, if_pos hid]
  · rw [ids_get_of_not_mem hid]

theorem size_put (hlimit : c.limit = some limit) :
    (c.put d).size + (c.put d).evictions = (refresh d.id c.ids).length + c.evictions := by
  rw [size_eq_length_ids, ids_put hlimit, evictions_put hlimit, List.length_drop]
  omega

/-- A document that comes in is in the cache from then on, or else evicted, invalidated or
cleared. -/
theorem newcomer_accounted (hlimit : c.limit = some limit) (op : Operation) :
    (op.isNewcomer c).toNat + c.size + c.evictions =
      (op.perform c).size + (op.perform c).evictions + op.removed c := by
  have size_clear : c.clear.size = 0 := rfl
  have evictions_clear : c.clear.evictions = c.evictions := rfl
  cases op with
  | get id =>
    rw [Operation.perform, size_get hlimit, evictions_get]
    simp [Operation.isNewcomer, Operation.removed]
  | put d =>
    rw [Operation.perform, size_put hlimit, length_refresh ids_nodup, size_eq_length_ids]
    by_cases hid : d.id ∈ c.ids
    · simp [Operation.isNewcomer, Operation.removed, hid]
    · simp [Operation.isNewcomer, Operation.removed, hid]
      omega
  | invalidate id =>
    cases id with
    | none =>
      simp only [Operation.perform, Operation.isNewcomer, Operation.removed, Bool.toNat_false]
      omega
    | some id =>
      have evictions_invalidate : (c.invalidate id).2.evictions = c.evictions := rfl
      have := size_invalidate c id
      simp only [Operation.perform, Operation.isNewcomer, Operation.removed, Bool.toNat_false]
      omega
  | clear =>
    simp only [Operation.perform, Operation.isNewcomer, Operation.removed, Bool.toNat_false]
    omega

theorem newcomers_run (hlimit : c.limit = some limit) :
    newcomers c ops + c.size + c.evictions =
      (run c ops).size + (run c ops).evictions + removals c ops := by
  induction ops generalizing c with
  | nil => simp
  | cons op ops ih =>
    have step := newcomer_accounted hlimit op
    have rest := ih (c := op.perform c) (limit_perform.trans hlimit)
    rw [run_cons, newcomers_cons, removals_cons]
    omega

theorem evictions_run_unbounded (hlimit : c.limit = none) :
    (run c ops).evictions = c.evictions := by
  induction ops generalizing c with
  | nil => rfl
  | cons op ops ih =>
    rw [run_cons, ih (limit_perform.trans hlimit)]
    cases op with
    | get id =>
      rw [Operation.perform, get]
      split <;> rfl
    | put d => simp [Operation.perform, put, evict, hlimit]
    | invalidate id => cases id <;> rfl
    | clear => rfl

/-! ## The order of the ids -/

theorem dedup_concat (used : List String) (id : String) :
    (used ++ [id]).dedup = refresh id used.dedup := by
  induction used with
  | nil => rfl
  | cons x used ih =>
    rw [List.cons_append]
    by_cases hx : x ∈ used
    · rw [List.dedup_cons_of_mem hx, List.dedup_cons_of_mem (List.mem_append_left _ hx), ih]
    · rw [List.dedup_cons_of_notMem hx]
      by_cases hid : x = id
      · rw [List.dedup_cons_of_mem (by simp [hid]), ih]
        simp [refresh, hid]
      · rw [List.dedup_cons_of_notMem (by simp [hx, hid]), ih]
        simp [refresh, hid]

theorem refresh_sublist {l : List String} (h : ids.Sublist l) :
    (refresh id ids).Sublist (refresh id l) :=
  (h.filter _).append_right [id]

theorem ids_perform_sublist (hlimit : c.limit = some limit) {used : List String}
    (h : c.ids.Sublist used.dedup) :
    (op.perform c).ids.Sublist (used ++ (op.use? c).toList).dedup := by
  cases op with
  | get id =>
    by_cases hid : id ∈ c.ids
    · simp only [Operation.perform, Operation.use?, contains_eq, hid, decide_true, if_true,
        Option.toList_some]
      rw [ids_get hlimit hid, dedup_concat]
      exact refresh_sublist h
    · rw [Operation.perform, ids_get_of_not_mem hid]
      simpa [Operation.use?, hid] using h
  | put d =>
    rw [Operation.perform, Operation.use?, ids_put hlimit, Option.toList_some, dedup_concat]
    exact (List.drop_sublist _ _).trans (refresh_sublist h)
  | invalidate id =>
    rw [Operation.use?, Option.toList_none, List.append_nil]
    cases id with
    | none => exact List.nil_sublist _
    | some id =>
      rw [Operation.perform, ids_invalidate]
      exact List.filter_sublist.trans h
  | clear => exact List.nil_sublist _

theorem ids_run_sublist (hlimit : c.limit = some limit) (used : List String)
    (h : c.ids.Sublist used.dedup) : (run c ops).ids.Sublist (used ++ uses c ops).dedup := by
  induction ops generalizing c used with
  | nil => simpa using h
  | cons op ops ih =>
    rw [run_cons, uses_cons, ← List.append_assoc]
    exact ih (limit_perform.trans hlimit) _ (ids_perform_sublist hlimit h)

/-! ## What is held was put last -/

theorem lastPut_append (past ops : List Operation) :
    lastPut id (past ++ ops) = (lastPut id ops).or (lastPut id past) := by
  rw [lastPut, List.filterMap_append, List.getLast?_append]
  rfl

theorem lastPut_singleton (op : Operation) : lastPut id [op] = op.document? id := by
  cases h : op.document? id <;> simp [lastPut, h]

/-- Each document is held under an id under which it was put last. -/
def Current (c : DocumentCache) (past : List Operation) : Prop :=
  ∀ e ∈ c.held.entries, lastPut e.1 past = some e.2

theorem current_of_mem (h : Current c past) (hmem : ∀ e ∈ (op.perform c).held.entries,
    op.document? e.1 = some e.2 ∨ e ∈ c.held.entries ∧ op.document? e.1 = none) :
    Current (op.perform c) (past ++ [op]) := by
  intro e he
  rw [lastPut_append, lastPut_singleton]
  rcases hmem e he with hnew | ⟨hold, hnone⟩
  · rw [hnew, Option.some_or]
  · rw [hnone, Option.none_or]
    exact h e hold

theorem eq_or_mem_of_mem_put {e : String × Document} (h : e ∈ (c.put d).held.entries) :
    e = (d.id, d) ∨ e ∈ c.held.entries ∧ e.1 ≠ d.id := by
  rw [put, evict] at h
  have h := OrderedMap.mem_of_mem_dropOldest h
  simp only at h
  split at h
  · rcases OrderedMap.mem_of_mem_put h with h | h
    · exact .inl h
    · exact .inr (OrderedMap.mem_erase.1 h)
  · exact OrderedMap.eq_or_mem_of_mem_put h

theorem current_perform (h : Current c past) : Current (op.perform c) (past ++ [op]) := by
  apply current_of_mem h
  intro e he
  cases op with
  | get id => exact .inr ⟨mem_of_mem_get he, rfl⟩
  | put d =>
    rcases eq_or_mem_of_mem_put he with rfl | ⟨hold, hne⟩
    · exact .inl (by simp [Operation.document?])
    · exact .inr ⟨hold, by simp [Operation.document?, hne.symm]⟩
  | invalidate id =>
    cases id with
    | none => cases he
    | some id => exact .inr ⟨(mem_of_mem_invalidate he).1, rfl⟩
  | clear => cases he

theorem current_run (h : Current c past) : Current (run c ops) (past ++ ops) := by
  induction ops generalizing c past with
  | nil => simpa using h
  | cons op ops ih =>
    rw [run_cons, List.append_cons]
    exact ih (current_perform h)

theorem get_of_mem (h : Current c past) (hid : id ∈ c.ids) :
    ∃ d, lastPut id past = some d ∧ (c.get id).1 = some d := by
  obtain ⟨d, hd⟩ := exists_get?_of_mem hid
  exact ⟨d, h _ (OrderedMap.mem_of_get?_eq_some hd), get_fst.trans hd⟩

/-! ## What stays -/

/-- All ids behind this one are among those. -/
def Kept (id : String) (among ids : List String) : Prop :=
  ∃ front behind, ids = front ++ id :: behind ∧ ∀ x ∈ behind, x ∈ among

theorem Kept.mem (h : Kept id among ids) : id ∈ ids := by
  obtain ⟨front, behind, rfl, -⟩ := h
  simp

theorem kept_refresh_self : Kept id among (refresh id ids) :=
  ⟨_, [], rfl, by simp⟩

theorem Kept.filter (h : Kept id among ids) {p : String → Bool} (hid : p id = true) :
    Kept id among (ids.filter p) := by
  obtain ⟨front, behind, rfl, hbehind⟩ := h
  refine ⟨front.filter p, behind.filter p, by simp [hid], ?_⟩
  intro x hx
  exact hbehind x (List.mem_filter.1 hx).1

theorem Kept.refresh (h : Kept id among ids) (hkey : key ∈ among) :
    Kept id among (refresh key ids) := by
  by_cases heq : key = id
  · subst heq
    exact kept_refresh_self
  · obtain ⟨front, behind, hids, hbehind⟩ := h.filter (p := (· != key)) (by simp [Ne.symm heq])
    refine ⟨front, behind ++ [key], by simp [DocumentCache.refresh, hids], ?_⟩
    intro x hx
    rcases List.mem_append.1 hx with hx | hx
    · exact hbehind x hx
    · rwa [List.mem_singleton.1 hx]

/-- What lies behind the id is no more than the others used since, so the bound is not reached. -/
theorem Kept.drop (h : Kept id among ids) (hnodup : ids.Nodup)
    (hfew : (among.toFinset.erase id).card < limit) :
    Kept id among (ids.drop (ids.length - limit)) := by
  obtain ⟨front, behind, rfl, hbehind⟩ := h
  have htail : (id :: behind).Nodup := hnodup.of_append_right
  have hlength : behind.length ≤ (among.toFinset.erase id).card := by
    rw [← List.toFinset_card_of_nodup htail.of_cons]
    apply Finset.card_le_card
    intro x hx
    have hx : x ∈ behind := List.mem_toFinset.1 hx
    refine Finset.mem_erase.2 ⟨?_, List.mem_toFinset.2 (hbehind x hx)⟩
    rintro rfl
    exact (List.nodup_cons.1 htail).1 hx
  refine ⟨front.drop ((front ++ id :: behind).length - limit), behind, ?_, hbehind⟩
  rw [List.drop_append_of_le_length]
  rw [List.length_append, List.length_cons]
  omega

theorem kept_perform (hlimit : c.limit = some limit)
    (hfew : (among.toFinset.erase id).card < limit) (h : Kept id among c.ids)
    (hstays : op.drops id = false) (hused : ∀ key ∈ op.use? c, key ∈ among) :
    Kept id among (op.perform c).ids := by
  cases op with
  | get key =>
    by_cases hkey : key ∈ c.ids
    · rw [Operation.perform, ids_get hlimit hkey]
      exact h.refresh (hused key (by simp [Operation.use?, hkey]))
    · rw [Operation.perform, ids_get_of_not_mem hkey]
      exact h
  | put d =>
    rw [Operation.perform, ids_put hlimit]
    exact (h.refresh (hused d.id rfl)).drop (nodup_refresh ids_nodup) hfew
  | invalidate key =>
    cases key with
    | none => cases hstays
    | some key =>
      rw [Operation.perform, ids_invalidate]
      have hne : key ≠ id := by simpa [Operation.drops] using hstays
      exact h.filter (by simp [hne.symm])
  | clear => cases hstays

theorem kept_run (hlimit : c.limit = some limit)
    (hfew : (among.toFinset.erase id).card < limit) (h : Kept id among c.ids)
    (hstays : ∀ op ∈ ops, op.drops id = false) (hused : ∀ key ∈ uses c ops, key ∈ among) :
    Kept id among (run c ops).ids := by
  induction ops generalizing c with
  | nil => exact h
  | cons op ops ih =>
    rw [uses_cons, List.forall_mem_append] at hused
    obtain ⟨hfirst, hrest⟩ := hused
    rw [List.forall_mem_cons] at hstays
    have hkept := kept_perform hlimit hfew h hstays.1
      fun key hkey => hfirst key (by simpa using hkey)
    exact ih (limit_perform.trans hlimit) hkept hstays.2 hrest

theorem mem_perform_unbounded (hlimit : c.limit = none) (h : id ∈ c.ids)
    (hstays : op.drops id = false) : id ∈ (op.perform c).ids := by
  cases op with
  | get key =>
    rw [Operation.perform, ids_get_unbounded hlimit]
    exact h
  | put d =>
    rw [Operation.perform, ids_put_unbounded hlimit]
    split
    · exact h
    · exact List.mem_append_left _ h
  | invalidate key =>
    cases key with
    | none => cases hstays
    | some key =>
      have hne : key ≠ id := by simpa [Operation.drops] using hstays
      rw [Operation.perform, ids_invalidate]
      exact List.mem_filter.2 ⟨h, by simp [hne.symm]⟩
  | clear => cases hstays

theorem mem_run_unbounded (hlimit : c.limit = none) (h : id ∈ c.ids)
    (hstays : ∀ op ∈ ops, op.drops id = false) : id ∈ (run c ops).ids := by
  induction ops generalizing c with
  | nil => exact h
  | cons op ops ih =>
    rw [List.forall_mem_cons] at hstays
    exact ih (limit_perform.trans hlimit) (mem_perform_unbounded hlimit h hstays.1) hstays.2

/-! ## Whole histories -/

/-- A put document is found as long as it is not dropped and fewer others are used than the cache
may hold. -/
theorem found_of_few (hlimit : c.limit = some limit) (h : Current c [])
    {before after : List Operation} (hstays : ∀ op ∈ after, op.drops d.id = false)
    (hfew : ((uses (run c (before ++ [.put d])) after).toFinset.erase d.id).card < limit) :
    ∃ e, lastPut d.id (before ++ .put d :: after) = some e ∧
      ((run c (before ++ .put d :: after)).get d.id).1 = some e := by
  have hput : Kept d.id (uses (run c (before ++ [.put d])) after)
      (run c (before ++ [.put d])).ids := by
    have hids : (run c (before ++ [.put d])).ids = (refresh d.id (run c before).ids).drop
        ((refresh d.id (run c before).ids).length - limit) := by
      rw [run_append]
      exact ids_put (limit_run.trans hlimit)
    rw [hids]
    exact kept_refresh_self.drop (nodup_refresh ids_nodup) hfew
  have hkept := kept_run (limit_run.trans hlimit) hfew hput hstays fun _ hkey => hkey
  rw [List.append_cons, run_append]
  have hcurrent : Current (run (run c (before ++ [.put d])) after) (before ++ [.put d] ++ after) :=
    current_run (current_run h)
  exact get_of_mem hcurrent hkept.mem

theorem found_of_unbounded (hlimit : c.limit = none) (h : Current c [])
    {before after : List Operation} (hstays : ∀ op ∈ after, op.drops d.id = false) :
    ∃ e, lastPut d.id (before ++ .put d :: after) = some e ∧
      ((run c (before ++ .put d :: after)).get d.id).1 = some e := by
  have hput : d.id ∈ (run c (before ++ [.put d])).ids := by
    rw [run_append, run_cons, run_nil, Operation.perform,
      ids_put_unbounded (limit_run.trans hlimit)]
    split
    · assumption
    · simp
  have hkept := mem_run_unbounded (limit_run.trans hlimit) hput hstays
  rw [List.append_cons, run_append]
  have hcurrent : Current (run (run c (before ++ [.put d])) after) (before ++ [.put d] ++ after) :=
    current_run (current_run h)
  exact get_of_mem hcurrent hkept

theorem current_fresh (limit : Option Nat) : Current (fresh limit) [] := by
  intro e he
  cases he

/-- What a fresh cache keeps through any operations: a bounded one as many documents as it may
hold, under distinct ids in the order of their last use (of equal uses `dedup` keeps the last), each
found until it is dropped or as many others were used; with its counts of lookups and of what came
and went. An unbounded one gives up nothing. -/
theorem least_recently_used (ops : List Operation) :
    (∀ limit : Nat,
      (run (fresh (some limit)) ops).size ≤ limit ∧
      (run (fresh (some limit)) ops).ids.Nodup ∧
      (∀ before d after, ops = before ++ .put d :: after →
        (∀ op ∈ after, op.drops d.id = false) →
        ((uses (run (fresh (some limit)) (before ++ [.put d])) after).toFinset.erase d.id).card
          < limit →
        ∃ e, lastPut d.id ops = some e ∧
          ((run (fresh (some limit)) ops).get d.id).1 = some e) ∧
      (run (fresh (some limit)) ops).ids.Sublist (uses (fresh (some limit)) ops).dedup ∧
      (run (fresh (some limit)) ops).hits + (run (fresh (some limit)) ops).misses =
        ops.countP Operation.isGet ∧
      newcomers (fresh (some limit)) ops =
        (run (fresh (some limit)) ops).size + (run (fresh (some limit)) ops).evictions +
          removals (fresh (some limit)) ops) ∧
    (run (fresh none) ops).evictions = 0 ∧
    ∀ before d after, ops = before ++ .put d :: after →
      (∀ op ∈ after, op.drops d.id = false) →
      ∃ e, lastPut d.id ops = some e ∧ ((run (fresh none) ops).get d.id).1 = some e := by
  refine ⟨fun limit => ⟨?_, ids_nodup, ?_, ?_, ?_, ?_⟩, ?_, ?_⟩
  · exact size_run_le rfl (Nat.zero_le limit)
  · rintro before d after rfl hstays hfew
    exact found_of_few rfl (current_fresh _) hstays hfew
  · exact ids_run_sublist rfl [] (List.nil_sublist _)
  · exact lookups_run.trans (Nat.zero_add _)
  · exact newcomers_run (c := fresh (some limit)) rfl
  · exact evictions_run_unbounded rfl
  · rintro before d after rfl hstays
    exact found_of_unbounded rfl (current_fresh _) hstays

/-- Of two documents at most, one that is put again, and then hit, outlives the other. -/
theorem least_recently_used_reput :
    ((uses (run (fresh (some 2)) [.put { id := "a", path := "/" }, .put { id := "b", path := "/" },
        .put { id := "a", path := "/a" }]) [.get "a", .put { id := "c", path := "/" }]).toFinset.erase
      "a").card < 2 ∧
    ∃ e, lastPut "a" [.put { id := "a", path := "/" }, .put { id := "b", path := "/" },
        .put { id := "a", path := "/a" }, .get "a", .put { id := "c", path := "/" }] = some e ∧
      ((run (fresh (some 2)) [.put { id := "a", path := "/" }, .put { id := "b", path := "/" },
        .put { id := "a", path := "/a" }, .get "a", .put { id := "c", path := "/" }]).get "a").1 =
        some e := by
  have hfew : ((uses (run (fresh (some 2)) [.put { id := "a", path := "/" },
      .put { id := "b", path := "/" }, .put { id := "a", path := "/a" }])
      [.get "a", .put { id := "c", path := "/" }]).toFinset.erase "a").card < 2 := by
    decide
  refine ⟨hfew, ?_⟩
  exact ((least_recently_used _).1 2).2.2.1
    [.put { id := "a", path := "/" }, .put { id := "b", path := "/" }]
    { id := "a", path := "/a" } [.get "a", .put { id := "c", path := "/" }] rfl (by decide) hfew

end DocumentCache

end VersionedTree
