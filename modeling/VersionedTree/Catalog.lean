import VersionedTree.Document

/-!
# The catalog

The documents of a store, in the order of their ids. Each comes with a stamp that tells the write
it came from, so that a document and a later equal one are two.
-/

namespace VersionedTree

/-- A document as some write left it. -/
structure Stored where
  stamp : Nat
  document : Document
  deriving Inhabited

namespace Stored

def id (s : Stored) : String := s.document.id

end Stored

/-- Stored documents in strictly ascending order of ids. -/
@[ext] structure Catalog where
  items : List Stored := []
  sorted : items.Pairwise (fun a b => a.id < b.id) := by exact .nil

namespace Catalog

def empty : Catalog := {}

instance : Inhabited Catalog := ⟨empty⟩

/-- The items with one put in its place; one of the same id makes room. -/
def place (s : Stored) : List Stored → List Stored
  | [] => [s]
  | other :: rest =>
    if s.id < other.id then s :: other :: rest
    else if s.id = other.id then s :: rest
    else other :: place s rest

theorem eq_or_mem_of_mem_place {s x : Stored} {l : List Stored} (h : x ∈ place s l) :
    x = s ∨ x ∈ l := by
  induction l with
  | nil => simpa [place] using h
  | cons other rest ih =>
    simp only [place] at h
    split at h
    · exact List.mem_cons.1 h
    · split at h <;> rcases List.mem_cons.1 h with rfl | h
      · exact .inl rfl
      · exact .inr (List.mem_cons_of_mem _ h)
      · exact .inr List.mem_cons_self
      · exact (ih h).imp_right (List.mem_cons_of_mem _)

theorem lt_of_not_lt_of_ne {a b : String} (h : ¬ a < b) (hne : a ≠ b) : b < a :=
  Classical.byContradiction fun h' => hne (String.le_antisymm h' h)

theorem sorted_place (s : Stored) {l : List Stored} (h : l.Pairwise fun a b => a.id < b.id) :
    (place s l).Pairwise fun a b => a.id < b.id := by
  induction l with
  | nil => simp [place]
  | cons other rest ih =>
    have ⟨above, tail⟩ := List.pairwise_cons.1 h
    simp only [place]
    split
    · rename_i first
      refine List.pairwise_cons.2 ⟨fun x hx => ?_, h⟩
      rcases List.mem_cons.1 hx with rfl | hx
      · exact first
      · exact String.lt_trans first (above x hx)
    · split
      · rename_i same
        exact List.pairwise_cons.2 ⟨fun x hx => same ▸ above x hx, tail⟩
      · rename_i notFirst notSame
        refine List.pairwise_cons.2 ⟨fun x hx => ?_, ih tail⟩
        rcases eq_or_mem_of_mem_place hx with rfl | hx
        · exact lt_of_not_lt_of_ne notFirst notSame
        · exact above x hx

/-- The catalog with a document, in place of one of the same id. -/
def put (c : Catalog) (s : Stored) : Catalog := ⟨place s c.items, sorted_place s c.sorted⟩

def find? (c : Catalog) (id : String) : Option Stored := c.items.find? fun s => s.id == id

def erase (c : Catalog) (id : String) : Catalog :=
  ⟨c.items.filter fun s => s.id != id, c.sorted.filter _⟩

def size (c : Catalog) : Nat := c.items.length

def ids (c : Catalog) : List String := c.items.map Stored.id

end Catalog

end VersionedTree
