import VersionedTree.Revision

/-!
# Revision vectors

A vector holds at most one revision for each cluster node. It is the token of a snapshot: it sees
every revision that is not above the one it holds for the same cluster.
-/

namespace VersionedTree

/-- At most one revision for each cluster, in ascending order of clusters. -/
@[ext] structure RevisionVector where
  revisions : List Revision := []
  sorted : revisions.Pairwise (fun a b => a.cluster < b.cluster) := by exact .nil
  deriving DecidableEq

namespace RevisionVector

instance : Inhabited RevisionVector := ⟨{}⟩

def empty : RevisionVector := {}

/-- Puts a revision at its cluster's place; where the cluster has one already, `merge` of the old
and the new one stays. -/
def place (merge : Revision → Revision → Revision) (r : Revision) : List Revision → List Revision
  | [] => [r]
  | held :: rest =>
    if r.cluster < held.cluster then r :: held :: rest
    else if r.cluster = held.cluster then merge held r :: rest
    else held :: place merge r rest

theorem cluster_eq_or_mem_of_mem_place {merge : Revision → Revision → Revision} {r : Revision}
    (hm : ∀ held, held.cluster = r.cluster → (merge held r).cluster = r.cluster)
    {l : List Revision} {x : Revision} (hx : x ∈ place merge r l) :
    x.cluster = r.cluster ∨ x ∈ l := by
  induction l with
  | nil => simp_all [place]
  | cons held rest ih =>
    simp only [place] at hx
    split at hx
    · rcases List.mem_cons.1 hx with rfl | hx
      · exact .inl rfl
      · exact .inr hx
    · split at hx <;> rcases List.mem_cons.1 hx with rfl | hx
      · exact .inl (hm held (by omega))
      · exact .inr (List.mem_cons_of_mem _ hx)
      · exact .inr List.mem_cons_self
      · exact (ih hx).imp_right (List.mem_cons_of_mem _)

theorem sorted_place {merge : Revision → Revision → Revision} {r : Revision}
    (hm : ∀ held, held.cluster = r.cluster → (merge held r).cluster = r.cluster)
    {l : List Revision} (h : l.Pairwise fun a b => a.cluster < b.cluster) :
    (place merge r l).Pairwise fun a b => a.cluster < b.cluster := by
  induction l with
  | nil => simp [place]
  | cons held rest ih =>
    have ⟨above, tail⟩ := List.pairwise_cons.1 h
    simp only [place]
    split
    · refine List.pairwise_cons.2 ⟨fun x hx => ?_, h⟩
      rcases List.mem_cons.1 hx with rfl | hx
      · assumption
      · have := above x hx
        omega
    · split
      · refine List.pairwise_cons.2 ⟨fun x hx => ?_, tail⟩
        have := hm held (by omega)
        have := above x hx
        omega
      · refine List.pairwise_cons.2 ⟨fun x hx => ?_, ih tail⟩
        rcases cluster_eq_or_mem_of_mem_place hm hx with hx | hx
        · omega
        · exact above x hx

/-- The later of two revisions, the first one if they are equal. -/
def later (a b : Revision) : Revision := if a < b then b else a

theorem later_cluster {a b : Revision} (h : a.cluster = b.cluster) :
    (later a b).cluster = b.cluster := by
  unfold later
  split <;> simp_all

/-- The vector with one more revision, of which the greatest for each cluster counts. -/
def add (v : RevisionVector) (r : Revision) : RevisionVector :=
  ⟨place later r v.revisions, sorted_place (fun _ h => later_cluster h) v.sorted⟩

def ofList (revisions : List Revision) : RevisionVector := revisions.foldl add empty

/-- The vector with `r` in place of what it holds for the cluster of `r`, be that later or not. -/
def update (v : RevisionVector) (r : Revision) : RevisionVector :=
  ⟨place (fun _ new => new) r v.revisions, sorted_place (fun _ _ => rfl) v.sorted⟩

def get? (v : RevisionVector) (cluster : Nat) : Option Revision :=
  v.revisions.find? fun r => r.cluster == cluster

/-- The revision held for a cluster; no cluster has a negative number. -/
def held? (v : RevisionVector) (cluster : Int) : Option Revision :=
  if cluster < 0 then none else v.get? cluster.toNat

def size (v : RevisionVector) : Nat := v.revisions.length

def clusters (v : RevisionVector) : List Nat := v.revisions.map (·.cluster)

instance : Membership Revision RevisionVector where
  mem v r := v.get? r.cluster = some r

instance (r : Revision) (v : RevisionVector) : Decidable (r ∈ v) :=
  inferInstanceAs (Decidable (v.get? r.cluster = some r))

/-- Is a write at `r` part of the snapshot? -/
def sees (v : RevisionVector) (r : Revision) : Bool :=
  match v.get? r.cluster with
  | some own => r ≤ own
  | none => false

def isNewer (v w : RevisionVector) : Bool :=
  v.revisions.any fun r =>
    match w.get? r.cluster with
    | some theirs => theirs < r
    | none => true

def text (v : RevisionVector) : String := String.intercalate "," (v.revisions.map Revision.text)

/-- The vector that a text names: nothing, or texts of revisions joined by commas. -/
def ofText (text : String) : Except Revision.Error RevisionVector :=
  if text.isEmpty then .ok empty
  else ofList <$> (text.toList.splitOn ',').mapM fun part => Revision.ofText (String.ofList part)

def shown (v : RevisionVector) : String := "RevisionVector(" ++ Quoted.quote v.text ++ ")"

end RevisionVector

end VersionedTree
