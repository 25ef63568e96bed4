import VersionedTree.Proofs.Gathering
import VersionedTree.Proofs.Histories
import VersionedTree.Proofs.Isolation
import VersionedTree.Proofs.Preorders

/-! # What a full traversal enumerates

After any calls, a full traversal goes through the paths that were written, in the order of their
ids. For each path that is neither hidden nor rejected, and whose newest visible version is no
removal, it delivers the node of that version and then the tree bundled with it.
-/

namespace VersionedTree

namespace WriteCall

/-- The call writes at a normalized path, and a closed bundle if it writes one. -/
def IsNormal : WriteCall → Prop
  | commit path _ bundled _ => Path.IsNormal path ∧ bundled.IsClosed
  | remove path _ | addPrevious path .. => Path.IsNormal path

instance : (call : WriteCall) → Decidable call.IsNormal
  | commit path _ bundled _ => inferInstanceAs (Decidable (Path.IsNormal path ∧ bundled.IsClosed))
  | remove path _ => inferInstanceAs (Decidable (Path.IsNormal path))
  | addPrevious path .. => inferInstanceAs (Decidable (Path.IsNormal path))

theorem IsNormal.path {call : WriteCall} (h : call.IsNormal) : Path.IsNormal call.path := by
  cases call with
  | commit => exact h.1
  | remove => exact h
  | addPrevious => exact h

theorem IsNormal.bundled {call : WriteCall} (h : call.IsNormal) {revision : Revision} {x : Version}
    (hx : call.version? revision = some x) : x.commit.bundled.IsClosed := by
  cases call with
  | commit =>
    cases hx
    exact h.2
  | remove =>
    cases hx
    exact ⟨fun key hkey => (by cases hkey), fun key hkey => (by cases hkey)⟩
  | addPrevious => cases hx

end WriteCall

namespace Repository

/-- The repository records a history of normalized paths and closed bundles. -/
structure Documents (history : List Version) (r : Repository) : Prop
    extends Recorded history r where
  normal : ∀ x ∈ history, Path.IsNormal x.path
  closed : ∀ x ∈ history, x.commit.bundled.IsClosed

variable {r : Repository} {history : List Version}

theorem documents_performAll (h : r.Recorded []) {calls : List WriteCall}
    (hcalls : ∀ call ∈ calls, call.Admissible ∧ call.IsNormal) :
    (WriteCall.performAll calls r).2.Documents (WriteCall.performAll calls r).1 := by
  refine ⟨recorded_performAll h fun call hcall => (hcalls call hcall).1, fun x hx => ?_,
    fun x hx => ?_⟩
  · obtain ⟨call, hcall, revision, hversion⟩ := WriteCall.version?_of_performAll hx
    rw [path_of_version? hversion]
    exact (hcalls call hcall).2.path
  · obtain ⟨call, hcall, revision, hversion⟩ := WriteCall.version?_of_performAll hx
    exact (hcalls call hcall).2.bundled hversion

end Repository

namespace NodeState

/-- The state itself, and the states of the nodes bundled with it. -/
def outlined (s : NodeState) : List NodeState :=
  s :: (s.bundled.outline.preorder s.bundled.outline.height []).map s.inner

end NodeState

namespace Version

/-- The node that a version leaves at its path. -/
def state (x : Version) (v : RevisionVector) (properties : Properties) : NodeState :=
  { path := x.path, snapshot := some v, lastRevision := some x.revision, properties
    bundled := x.commit.bundled }

/-- The entries of a written path in a full traversal: none if the path is left out or nothing is
found there, else the nodes of the newest visible version, with the modification time of the last
version of the path. -/
inductive Listed (history : List Version) (v : RevisionVector) (allowed : String → Bool)
    (path : String) : List Entry → Prop where
  | excluded (h : allowed path = false) : Listed history v allowed path []
  | absent (h : Found history path v none) : Listed history v allowed path []
  | present (x last : Version) (properties : Properties) (h : allowed path = true)
      (hx : Newest history path v x) (hproperties : x.commit.properties = some properties)
      (hlast : (history.filter fun y => y.path == path).getLast? = some last) :
      Listed history v allowed path
        ((x.state v properties).outlined.map (Entry.ofState (some last.modified)))

end Version

namespace Repository

variable {r : Repository} {history : List Version}

theorem exists_version (h : r.Documents history) {item : Stored}
    (hitem : item ∈ r.store.catalog.items) (hmain : item.document.IsMain) :
    ∃ x ∈ history, x.path = item.document.path := by
  have hstored := DocumentStore.stored?_of_mem hitem
  have hid : item.id = DocumentId.ofPath item.document.path := hmain.id_eq
  rw [hid, h.records _ hmain.absolute] at hstored
  obtain ⟨x, hx, hpath⟩ := Version.path_of_build hstored
  exact ⟨x, List.mem_of_mem_filter hx, hpath.symm⟩

theorem apart_of_main (h : r.Documents history)
    (hapart : ∀ x ∈ history, ∀ y ∈ history, DocumentId.Apart x.path y.path) {item : Stored}
    (hitem : item ∈ r.store.catalog.items) (hmain : item.document.IsMain) :
    Path.IsNormal item.document.path ∧ ∀ x ∈ history,
      Path.IsNormal x.path ∧ DocumentId.Apart x.path item.document.path := by
  obtain ⟨x₀, hx₀, hpath₀⟩ := exists_version h hitem hmain
  rw [← hpath₀]
  exact ⟨h.normal x₀ hx₀, fun x hx => ⟨h.normal x hx, hapart x hx x₀ hx₀⟩⟩

/-- A document has the modification time of the last version of its path. -/
theorem last_version (h : r.Documents history)
    (hapart : ∀ x ∈ history, ∀ y ∈ history, DocumentId.Apart x.path y.path) {item : Stored}
    (hitem : item ∈ r.store.catalog.items) (hmain : item.document.IsMain) :
    ∃ last, (history.filter fun y => y.path == item.document.path).getLast? = some last ∧
      item.document.modified = some last.modified := by
  obtain ⟨hnormal, hhistory⟩ := apart_of_main h hapart hitem hmain
  have hstored := DocumentStore.stored?_of_mem hitem
  have hid : item.id = DocumentId.ofPath item.document.path := hmain.id_eq
  rw [hid, h.records _ hmain.absolute, DocumentStore.filter_id_eq hnormal hhistory] at hstored
  exact (Version.build_spec item.document.path
    (fun y hy => by simpa using (List.mem_filter.1 hy).2) hstored).2.2

theorem listed_yieldOf (v : RevisionVector) (allowed : String → Bool) (h : r.Documents history)
    (hapart : ∀ x ∈ history, ∀ y ∈ history, DocumentId.Apart x.path y.path) {item : Stored}
    (hitem : item ∈ r.store.catalog.items) (hmain : item.document.IsMain) :
    ∃ block, r.store.yieldOf v allowed item = ⟨block, none⟩ ∧
      Version.Listed history v allowed item.document.path block := by
  obtain ⟨hnormal, hhistory⟩ := apart_of_main h hapart hitem hmain
  have hlive : item.document.isSplit = false := hmain.isSplit
  cases hallowed : allowed item.document.path with
  | false =>
    exact ⟨[], DocumentStore.yieldOf_of_not_accepted hallowed, .excluded hallowed⟩
  | true =>
    rw [DocumentStore.yieldOf_of_accepted hlive hallowed,
      DocumentStore.nodeAt_of_records h.records hnormal hhistory]
    have hfound := Version.found_nodeIn h.nodup item.document.path v
    cases hnode : Version.nodeIn history item.document.path v with
    | none =>
      rw [hnode] at hfound
      exact ⟨[], rfl, .absent hfound⟩
    | some n =>
      rw [hnode] at hfound
      cases hfound with
      | written x hx properties hwritten =>
        have hstate : ({ path := item.document.path, snapshot := some v
                         lastRevision := some x.revision, properties
                         bundled := x.commit.bundled } : NodeState) = x.state v properties := by
          rw [Version.state, hx.path_eq]
        have hdescendants := NodeState.descendants_eq (s := x.state v properties)
          (h.normal x hx.mem) (h.closed x hx.mem)
        obtain ⟨last, hlast, hmodified⟩ := last_version h hapart hitem hmain
        refine ⟨_, ?_, .present x last properties hallowed hx hwritten hlast⟩
        rw [hstate, DocumentStore.yieldOfNode, DocumentStore.unfolded, hdescendants, hmodified]
        rfl

/-- The paths of main documents, in the order of their ids. -/
def paths (items : List Stored) : List String :=
  (items.filter fun item => !item.document.isSplit).map fun item => item.document.path

theorem listed_yields (v : RevisionVector) (allowed : String → Bool) (h : r.Documents history)
    (hapart : ∀ x ∈ history, ∀ y ∈ history, DocumentId.Apart x.path y.path) {items : List Stored}
    (hitems : ∀ item ∈ items, item ∈ r.store.catalog.items) :
    ∃ blocks, r.store.yields v allowed items = ⟨blocks.flatten, none⟩ ∧
      List.Forall₂ (Version.Listed history v allowed) (paths items) blocks := by
  induction items with
  | nil => exact ⟨[], rfl, .nil⟩
  | cons item items ih =>
    have hitem := hitems item List.mem_cons_self
    obtain ⟨blocks, hyields, hblocks⟩ := ih fun x hx => hitems x (List.mem_cons_of_mem item hx)
    rw [DocumentStore.yields_cons, hyields]
    rcases h.kept.arranged item hitem with hmain | hsplit
    · have hlive : item.document.isSplit = false := hmain.isSplit
      obtain ⟨block, hblock, hlisted⟩ := listed_yieldOf v allowed h hapart hitem hmain
      refine ⟨block :: blocks, ?_, ?_⟩
      · rw [hblock, Yield.append_of_complete rfl, List.flatten_cons]
      · rw [paths, List.filter_cons_of_pos (by simp [hlive]), List.map_cons]
        exact .cons hlisted hblocks
    · have hsplit : item.document.isSplit = true := hsplit.isSplit
      refine ⟨blocks, ?_, ?_⟩
      · rw [DocumentStore.yieldOf_of_isSplit hsplit, Yield.empty_append]
      · rw [paths, List.filter_cons_of_neg (by simp [hsplit])]
        exact hblocks

theorem ascending_paths (h : r.Documents history) :
    (paths r.store.catalog.items).Pairwise fun p q =>
      DocumentId.ofPath p < DocumentId.ofPath q := by
  rw [paths, List.pairwise_map]
  refine (r.store.catalog.sorted.filter _).imp_of_mem fun {a b} ha hb hab => ?_
  obtain ⟨ha, hlive⟩ := List.mem_filter.1 ha
  obtain ⟨hb, hlive'⟩ := List.mem_filter.1 hb
  have hmain := h.kept.arranged.isMain_of_not_isSplit ha (by simpa using hlive)
  have hmain' := h.kept.arranged.isMain_of_not_isSplit hb (by simpa using hlive')
  rw [← hmain.id_eq, ← hmain'.id_eq]
  exact hab

theorem mem_paths (h : r.Documents history)
    (hapart : ∀ x ∈ history, ∀ y ∈ history, DocumentId.Apart x.path y.path) {p : String} :
    p ∈ paths r.store.catalog.items ↔ ∃ x ∈ history, x.path = p := by
  constructor
  · intro hp
    obtain ⟨item, hitem, rfl⟩ := List.mem_map.1 hp
    obtain ⟨hitem, hlive⟩ := List.mem_filter.1 hitem
    have hmain := h.kept.arranged.isMain_of_not_isSplit hitem (by simpa using hlive)
    exact exists_version h hitem hmain
  · rintro ⟨x, hx, rfl⟩
    have hnormal := h.normal x hx
    have hstored := h.records x.path (Path.isAbsolute_of_isNormal hnormal)
    cases hd : r.store.stored? (DocumentId.ofPath x.path) with
    | none =>
      rw [hd] at hstored
      have hnil := Version.build_eq_none_iff.1 hstored.symm
      have hmem : x ∈ history.filter fun y => y.id == DocumentId.ofPath x.path :=
        List.mem_filter.2 ⟨hx, beq_self_eq_true _⟩
      rw [hnil] at hmem
      cases hmem
    | some d =>
      rw [hd] at hstored
      obtain ⟨y, hy, hpath⟩ := Version.path_of_build hstored.symm
      obtain ⟨hy, hid⟩ := List.mem_filter.1 hy
      have hid : y.id = DocumentId.ofPath x.path := eq_of_beq hid
      have hsame : y.path = x.path := DocumentId.ofPath_inj (h.normal y hy) hnormal
        (hapart y hy x hx) hid
      obtain ⟨item, hitem, hitemId, rfl⟩ := DocumentStore.stored?_eq_some_iff.1 hd
      have hmain := h.kept.arranged.isMain (Path.isAbsolute_of_isNormal hnormal) hd
      refine List.mem_map.2 ⟨item, List.mem_filter.2 ⟨hitem, ?_⟩, hpath.trans hsame⟩
      rw [hmain.isSplit]
      rfl

end Repository

namespace Traverser

/-- A complete traversal of documents of the repository hands over what is listed for their paths
at the snapshot. -/
theorem collect_listed {t : Traverser (List Entry)} {accepts : String → Bool}
    {roots : List String} {v : RevisionVector} {w : Workspace (List Entry)}
    {history : List Version} (ht : t.IsPlain accepts fun _ u => u)
    (hstate : t.state w = { pin := .of v, hiddenRoots := roots })
    (h : w.repository.Documents history)
    (hapart : ∀ x ∈ history, ∀ y ∈ history, DocumentId.Apart x.path y.path)
    (htimes : w.store.requireTimes t.range = .ok ()) :
    ∃ w' blocks, t.collect w = (.ok (), w') ∧ w'.caller = w.caller ++ blocks.flatten ∧
      w.store.yields v (allows accepts roots) (w.store.select t.range) = ⟨blocks.flatten, none⟩ ∧
      List.Forall₂ (Version.Listed history v (allows accepts roots))
        (Repository.paths (w.store.select t.range)) blocks := by
  have hstored : ∀ item ∈ w.store.select t.range, item ∈ w.store.catalog.items :=
    fun _ hitem => List.mem_of_mem_filter hitem
  obtain ⟨blocks, hyields, hblocks⟩ :=
    Repository.listed_yields v (allows accepts roots) h hapart hstored
  obtain ⟨w', hcollect, hgathers⟩ := collect_gathers ht h.kept
    (congrArg TraverserState.pin hstate) htimes
  have hdue : w.store.yields v (allows accepts (t.state w).hiddenRoots) (w.store.select t.range) =
      ⟨blocks.flatten, none⟩ := by
    rw [hstate]
    exact hyields
  rw [hdue] at hcollect hgathers
  exact ⟨w', blocks, hcollect, hgathers.caller, hyields, hblocks⟩

/-- After any calls on an empty store, a full traversal goes through the paths that were written,
in the order of their ids, and delivers for each of them what is listed there at the snapshot. A
writer whose cluster has revisions writes with every commit and every removal. -/
theorem collect_enumerates {settings : CacheSettings} {store : DocumentStore}
    (hstore : DocumentStore.create settings = .ok store) (cluster : Int) {calls : List WriteCall}
    (hcalls : ∀ call ∈ calls, call.Admissible ∧ call.IsNormal)
    (hapart : ∀ a ∈ calls, ∀ b ∈ calls, DocumentId.Apart a.path b.path) (label : String)
    (accepts : String → Bool) (roots : List String) (v : RevisionVector) :
    let written := WriteCall.performAll calls ⟨store, { cluster }⟩
    let w : Workspace (List Entry) := { repository := written.2, caller := [] }
    (0 ≤ cluster → List.Forall₂ WriteCall.Wrote (calls.filter WriteCall.writes) written.1) ∧
    ∃ t w₁ w₂, (plain label .all accepts fun _ u => u).create (some v) roots w = (.ok t, w₁) ∧
      t.collect w₁ = (.ok (), w₂) ∧
      ∃ paths blocks, w₂.caller = blocks.flatten ∧
        (paths.Pairwise fun p q => DocumentId.ofPath p < DocumentId.ofPath q) ∧
        (∀ p, p ∈ paths ↔ ∃ x ∈ written.1, x.path = p) ∧
        (0 ≤ cluster → ∀ p, p ∈ paths ↔ ∃ call ∈ calls, call.writes = true ∧ call.path = p) ∧
        List.Forall₂ (Version.Listed written.1 v (allows accepts roots)) paths blocks := by
  intro written w
  have hrecorded := Repository.recorded_create hstore cluster
  have hdocuments : w.repository.Documents written.1 :=
    Repository.documents_performAll hrecorded hcalls
  have hwrote (hcluster : 0 ≤ cluster) :
      List.Forall₂ WriteCall.Wrote (calls.filter WriteCall.writes) written.1 :=
    Repository.wrote_performAll hrecorded.kept hcluster fun call hcall => (hcalls call hcall).1
  have hhistory : ∀ x ∈ written.1, ∀ y ∈ written.1, DocumentId.Apart x.path y.path := by
    intro x hx y hy
    obtain ⟨a, ha, _, hxa⟩ := WriteCall.version?_of_performAll hx
    obtain ⟨b, hb, _, hyb⟩ := WriteCall.version?_of_performAll hy
    rw [Repository.path_of_version? hxa, Repository.path_of_version? hyb]
    exact hapart a ha b hb
  let t : Traverser (List Entry) :=
    { plain label .all accepts fun _ u => u with number := w.traversers.length }
  let w₁ : Workspace (List Entry) :=
    { w with traversers := w.traversers ++ [{ pin := .of v, hiddenRoots := roots }] }
  have hselect : w₁.store.select t.range = w.store.catalog.items := DocumentStore.select_all _
  obtain ⟨w₂, blocks, hcollect, hcaller, -, hblocks⟩ := collect_listed (t := t) (w := w₁)
    (isPlain_plain _ _ _ _ _) (state_create (plain label .all accepts fun _ u => u) _ w)
    hdocuments hhistory w₁.store.requireTimes_all
  rw [hselect] at hblocks
  have hmem (p : String) : p ∈ Repository.paths w.store.catalog.items ↔
      ∃ x ∈ written.1, x.path = p := Repository.mem_paths hdocuments hhistory
  exact ⟨hwrote, t, w₁, w₂, create_eq _ v roots w, hcollect,
    Repository.paths w.store.catalog.items, blocks, hcaller,
    Repository.ascending_paths hdocuments, hmem,
    fun hcluster p => (hmem p).trans (Repository.exists_path_iff (hwrote hcluster)), hblocks⟩

theorem collect_enumerates_bundle :
    let calls : List WriteCall :=
      [.commit "/b" [("x", .number 1)] (.ofList [("u", []), ("u/v", [("y", .number 2)])])
          (some (.time 5)),
        .commit "/a" [] .empty none, .addPrevious "/b" 1 none .ordinary, .remove "/a" none,
        .commit "/b/c" [] .empty (some (.time 7)), .commit "/d" [] .empty none]
    let store : DocumentStore := { cache := some { limit := some 10000 } }
    let written := WriteCall.performAll calls ⟨store, { cluster := 1 }⟩
    let w : Workspace (List Entry) := { repository := written.2, caller := [] }
    let v : RevisionVector := .ofList [⟨4, 0, 1⟩]
    List.Forall₂ WriteCall.Wrote (calls.filter WriteCall.writes) written.1 ∧
    ∃ t w₁ w₂, (plain "all" .all (fun _ => true) fun _ u => u).create (some v) [] w = (.ok t, w₁) ∧
      t.collect w₁ = (.ok (), w₂) ∧
      (∃ paths blocks, w₂.caller = blocks.flatten ∧
        (paths.Pairwise fun p q => DocumentId.ofPath p < DocumentId.ofPath q) ∧
        (∀ p, p ∈ paths ↔ ∃ call ∈ calls, call.writes = true ∧ call.path = p) ∧
        List.Forall₂ (Version.Listed written.1 v (allows (fun _ => true) [])) paths blocks) ∧
      (w₂.caller.map fun e => (e.path, e.state.lastRevision)) =
        [("/b", some ⟨1, 0, 1⟩), ("/b/u", some ⟨1, 0, 1⟩), ("/b/u/v", some ⟨1, 0, 1⟩),
          ("/b/c", some ⟨4, 0, 1⟩)] := by
  intro calls store written w v
  have hstore : DocumentStore.create {} = .ok store := rfl
  obtain ⟨hwrote, t, w₁, w₂, hcreate, hcollect, paths, blocks, hcaller, hascending, -, hpaths,
      hblocks⟩ :=
    @collect_enumerates _ store hstore 1 calls (by decide) (by decide) "all" (fun _ => true) [] v
  refine ⟨hwrote (by decide), t, w₁, w₂, hcreate, hcollect,
    ⟨paths, blocks, hcaller, hascending, hpaths (by decide), hblocks⟩, ?_⟩
  have hran : ((plain "all" .all (fun _ => true) fun _ u => u).create (some v) [] >>= collect) w =
      (.ok (), w₂) := (Action.bind_of_eq_ok hcreate).trans hcollect
  have hw₂ : w₂ = _ := (congrArg Prod.snd hran).symm
  rw [hw₂]
  decide +kernel

end Traverser

end VersionedTree
