import VersionedTree.DocumentStore
import Mathlib.Data.List.Nodup

/-! # What a catalog holds

No two documents of a catalog share an id, so that a look-up finds exactly the member of that id,
and putting a document changes what is found under its own id only.
-/

namespace VersionedTree

namespace Catalog

variable {c : Catalog} {s x y : Stored}

theorem ids_nodup (c : Catalog) : (c.items.map Stored.id).Nodup := by
  rw [List.Nodup, List.pairwise_map]
  refine c.sorted.imp fun {a b} hab heq => ?_
  rw [heq] at hab
  exact String.lt_irrefl _ hab

theorem eq_of_id_eq (hx : x ∈ c.items) (hy : y ∈ c.items) (h : x.id = y.id) : x = y :=
  List.inj_on_of_nodup_map c.ids_nodup hx hy h

theorem find?_eq_some_iff {id : String} :
    c.find? id = some x ↔ x ∈ c.items ∧ x.id = id := by
  constructor
  · intro h
    exact ⟨List.mem_of_find?_eq_some h, by simpa using List.find?_some h⟩
  · rintro ⟨hx, rfl⟩
    cases h : c.find? x.id with
    | none => exact absurd (List.find?_eq_none.1 h x hx) (by simp)
    | some y =>
      have hy : y.id = x.id := by simpa using List.find?_some h
      rw [eq_of_id_eq (List.mem_of_find?_eq_some h) hx hy]

theorem find?_eq_none_iff {id : String} : c.find? id = none ↔ ∀ y ∈ c.items, y.id ≠ id := by
  simp [find?, List.find?_eq_none]

theorem mem_place_self (s : Stored) (l : List Stored) : s ∈ place s l := by
  induction l with
  | nil => exact List.mem_singleton.2 rfl
  | cons y l ih =>
    rw [place]
    split
    · exact List.mem_cons_self
    · split
      · exact List.mem_cons_self
      · exact List.mem_cons_of_mem y ih

theorem mem_place_of_mem {l : List Stored} (hx : x ∈ l) (hne : x.id ≠ s.id) :
    x ∈ place s l := by
  induction l with
  | nil => cases hx
  | cons y l ih =>
    rw [place]
    split
    · exact List.mem_cons_of_mem s hx
    · split
      · rename_i same
        rcases List.mem_cons.1 hx with rfl | hx
        · exact absurd same.symm hne
        · exact List.mem_cons_of_mem s hx
      · rcases List.mem_cons.1 hx with rfl | hx
        · exact List.mem_cons_self
        · exact List.mem_cons_of_mem y (ih hx)

theorem mem_put : x ∈ (c.put s).items ↔ x = s ∨ x ∈ c.items ∧ x.id ≠ s.id := by
  constructor
  · intro hx
    rcases eq_or_mem_of_mem_place hx with rfl | hold
    · exact .inl rfl
    · by_cases hid : x.id = s.id
      · exact .inl (eq_of_id_eq hx (mem_place_self s c.items) hid)
      · exact .inr ⟨hold, hid⟩
  · rintro (rfl | ⟨hx, hne⟩)
    · exact mem_place_self x c.items
    · exact mem_place_of_mem hx hne

theorem find?_put_self (c : Catalog) (s : Stored) : (c.put s).find? s.id = some s :=
  find?_eq_some_iff.2 ⟨mem_put.2 (.inl rfl), rfl⟩

theorem find?_put_of_ne {id : String} (h : id ≠ s.id) : (c.put s).find? id = c.find? id := by
  cases hc : c.find? id with
  | some x =>
    obtain ⟨hx, rfl⟩ := find?_eq_some_iff.1 hc
    exact find?_eq_some_iff.2 ⟨mem_put.2 (.inr ⟨hx, h⟩), rfl⟩
  | none =>
    rw [find?_eq_none_iff] at hc ⊢
    intro x hx hid
    rcases mem_put.1 hx with rfl | ⟨hx, _⟩
    · exact h hid.symm
    · exact hc x hx hid

end Catalog

namespace DocumentStore

variable {s : DocumentStore} {d : Document} {id : String}

theorem stored?_eq_some_iff :
    s.stored? id = some d ↔ ∃ item ∈ s.catalog.items, item.id = id ∧ item.document = d := by
  rw [stored?, Option.map_eq_some_iff]
  constructor
  · rintro ⟨item, hfind, rfl⟩
    obtain ⟨hitem, hid⟩ := Catalog.find?_eq_some_iff.1 hfind
    exact ⟨item, hitem, hid, rfl⟩
  · rintro ⟨item, hitem, hid, rfl⟩
    exact ⟨item, Catalog.find?_eq_some_iff.2 ⟨hitem, hid⟩, rfl⟩

theorem stored?_of_mem {item : Stored} (h : item ∈ s.catalog.items) :
    s.stored? item.id = some item.document := stored?_eq_some_iff.2 ⟨item, h, rfl, rfl⟩

theorem id_of_stored? (h : s.stored? id = some d) : d.id = id := by
  obtain ⟨item, _, rfl, rfl⟩ := stored?_eq_some_iff.1 h
  rfl

theorem stored?_congr {s' : DocumentStore} (h : s'.catalog = s.catalog) (id : String) :
    s'.stored? id = s.stored? id := by
  rw [stored?, stored?, h]

end DocumentStore

end VersionedTree
