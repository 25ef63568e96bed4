/-!
# Maps in order of insertion

A map from texts that lists its keys in the order in which they came in. Replacing a value keeps
the key's place.
-/

namespace VersionedTree

/-- Entries with distinct keys, oldest first. -/
@[ext] structure OrderedMap (β : Type) where
  entries : List (String × β) := []
  nodup : (entries.map Prod.fst).Nodup := by exact .nil

namespace OrderedMap

variable {β : Type}

instance : Inhabited (OrderedMap β) := ⟨{}⟩

def empty : OrderedMap β := {}

def keys (m : OrderedMap β) : List String := m.entries.map Prod.fst

def size (m : OrderedMap β) : Nat := m.entries.length

def get? (m : OrderedMap β) (key : String) : Option β := m.entries.lookup key

def contains (m : OrderedMap β) (key : String) : Bool := m.keys.contains key

/-- The entries with a new value in the key's place, or at the end if the key is new. -/
def putEntry (key : String) (value : β) : List (String × β) → List (String × β)
  | [] => [(key, value)]
  | (k, v) :: rest =>
    if k = key then (key, value) :: rest else (k, v) :: putEntry key value rest

theorem keys_putEntry (key : String) (value : β) (l : List (String × β)) :
    (putEntry key value l).map Prod.fst =
      if key ∈ l.map Prod.fst then l.map Prod.fst else l.map Prod.fst ++ [key] := by
  induction l with
  | nil => simp [putEntry]
  | cons e rest ih =>
    obtain ⟨k, v⟩ := e
    by_cases h : k = key
    · simp [putEntry, h]
    · simp only [putEntry, if_neg h, List.map_cons, ih, List.mem_cons, Ne.symm h, false_or]
      split <;> simp

theorem nodup_putEntry (key : String) (value : β) {l : List (String × β)}
    (h : (l.map Prod.fst).Nodup) : ((putEntry key value l).map Prod.fst).Nodup := by
  rw [keys_putEntry]
  split
  · exact h
  · rename_i new
    refine List.nodup_append.2 ⟨h, by simp, fun k hk k' hk' => ?_⟩
    rw [List.mem_singleton.1 hk']
    exact fun e => new (e ▸ hk)

def put (m : OrderedMap β) (key : String) (value : β) : OrderedMap β :=
  ⟨putEntry key value m.entries, nodup_putEntry key value m.nodup⟩

theorem keys_put (m : OrderedMap β) (key : String) (value : β) :
    (m.put key value).keys = if key ∈ m.keys then m.keys else m.keys ++ [key] :=
  keys_putEntry key value m.entries

/-- The map of a list of entries; the last value for a key counts, at the place of the first. -/
def ofList (entries : List (String × β)) : OrderedMap β :=
  entries.foldl (fun m (key, value) => m.put key value) empty

def filter (m : OrderedMap β) (p : String × β → Bool) : OrderedMap β :=
  ⟨m.entries.filter p, (m.entries.filter_sublist.map Prod.fst).nodup m.nodup⟩

def erase (m : OrderedMap β) (key : String) : OrderedMap β := m.filter fun e => e.1 != key

def dropOldest (m : OrderedMap β) (n : Nat) : OrderedMap β :=
  ⟨m.entries.drop n, ((List.drop_sublist n m.entries).map Prod.fst).nodup m.nodup⟩

/-- The map with a value for a key, which becomes the newest one. -/
def renew (m : OrderedMap β) (key : String) (value : β) : OrderedMap β :=
  (m.erase key).put key value

theorem keys_erase (m : OrderedMap β) (key : String) :
    (m.erase key).keys = m.keys.filter (· != key) := by
  simp only [keys, erase, filter, List.filter_map]
  rfl

theorem keys_renew (m : OrderedMap β) (key : String) (value : β) :
    (m.renew key value).keys = m.keys.filter (· != key) ++ [key] := by
  rw [renew, keys_put, keys_erase, if_neg (by simp)]

/-- Do the maps hold the same values, by `same`, for the same keys? Order does not count. -/
def same (same : β → β → Bool) (m n : OrderedMap β) : Bool :=
  m.size == n.size && m.entries.all fun (key, value) =>
    match n.get? key with
    | some other => same value other
    | none => false

end OrderedMap

end VersionedTree
