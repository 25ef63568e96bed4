import VersionedTree.Proofs.Journals

/-! # Reading back what was written

Right after a write the head holds the revision of the write and no other, so it sees of a document
the version at that revision and older ones. A write therefore reads back unless the document under
the id of its path is that of another path, or holds a version at the very same revision already.
Paths that do not share the id are not concerned by it.
-/

namespace VersionedTree

namespace RevisionVector

variable {v : RevisionVector} {x y : Revision}

/-- The vector sees the revision, and nothing newer. -/
structure EndsAt (v : RevisionVector) (x : Revision) : Prop where
  sees_self : v.sees x = true
  le : ∀ y, v.sees y = true → ¬ x < y

theorem endsAt_of_revisions (h : v.revisions = [x]) : v.EndsAt x := by
  have hmem (own : Revision) : own ∈ v ↔ own = x := by
    rw [mem_iff, h, List.mem_singleton]
  constructor
  · exact sees_of_mem ((hmem x).2 rfl)
  · intro y hy
    obtain ⟨own, hown, hle⟩ := sees_iff.1 hy
    have hheld : own ∈ v := mem_iff.2 (get?_eq_some_iff.1 hown).1
    rwa [(hmem own).1 hheld] at hle

end RevisionVector

/-- What a version says of the node at a path: nothing, if it is a removal. -/
def Commit.stateAt (c : Commit) (path : String) (v : RevisionVector) : Option NodeState :=
  c.properties.map fun properties =>
    { path, snapshot := some v, lastRevision := some c.revision, properties, bundled := c.bundled }

namespace Document

variable {d : Document} {c : Commit} {v : RevisionVector}

/-- The first version at a revision. -/
def versionAt? (d : Document) (x : Revision) : Option Commit :=
  d.commits.find? fun c => c.revision == x

theorem stateAt_eq (d : Document) (v : RevisionVector) :
    d.stateAt v = (d.newestVisible v).bind fun c => c.stateAt d.path v := by
  rw [stateAt, resolve]
  cases d.newestVisible v with
  | none => rfl
  | some c =>
    rcases c with ⟨revision, _ | properties, bundled⟩ <;> rfl

theorem foldl_newer_of_endsAt {x : Revision} (hv : v.EndsAt x) (hc : c.revision = x)
    (l : List Commit) : l.foldl (newer v) (some c) = some c := by
  induction l with
  | nil => rfl
  | cons a l ih =>
    rw [List.foldl_cons]
    by_cases ha : v.sees a.revision = true
    · have hle : ¬ c.revision < a.revision := by
        rw [hc]
        exact hv.le _ ha
      rw [newer_some ha, if_neg hle]
      exact ih
    · rw [newer_of_unseen (by simpa using ha)]
      exact ih

theorem foldl_newer_of_find? {x : Revision} (hv : v.EndsAt x) {l : List Commit}
    (h : l.find? (fun c => c.revision == x) = some c) {best : Option Commit}
    (hbest : ∀ b, best = some b → b.revision < x) : l.foldl (newer v) best = some c := by
  induction l generalizing best with
  | nil => cases h
  | cons a l ih =>
    rw [List.foldl_cons]
    by_cases ha : a.revision = x
    · rw [List.find?_cons_of_pos (by simpa using ha)] at h
      obtain rfl : a = c := Option.some.inj h
      have hnext : newer v best a = some a := by
        have hsees : v.sees a.revision = true := by
          rw [ha]
          exact hv.sees_self
        cases best with
        | none => exact newer_none hsees
        | some b => rw [newer_some hsees, ha, if_pos (hbest b rfl)]
      rw [hnext]
      exact foldl_newer_of_endsAt hv ha l
    · rw [List.find?_cons_of_neg (by simpa using ha)] at h
      apply ih h
      intro b hb
      by_cases hsees : v.sees a.revision = true
      · have hlt : a.revision < x := by
          rcases Revision.lt_trichotomy a.revision x with hlt | heq | hgt
          · exact hlt
          · exact absurd heq ha
          · exact absurd hgt (hv.le _ hsees)
        cases best with
        | none =>
          rw [newer_none hsees] at hb
          cases hb
          exact hlt
        | some b' =>
          rw [newer_some hsees] at hb
          split at hb <;> cases hb
          · exact hlt
          · exact hbest b rfl
      · rw [newer_of_unseen (by simpa using hsees)] at hb
        exact hbest b hb

theorem newestVisible_of_versionAt? {x : Revision} (hv : v.EndsAt x) (h : d.versionAt? x = some c) :
    d.newestVisible v = some c := by
  apply foldl_newer_of_find? hv h
  intro b hb
  cases hb

theorem lt_of_newestVisible {x : Revision} (hv : v.EndsAt x) (h : d.versionAt? x = none)
    (hc : d.newestVisible v = some c) : c.revision < x := by
  obtain ⟨hmem, hsees, -⟩ := (newestAmong_spec _).1 c hc
  rcases Revision.lt_trichotomy c.revision x with hlt | heq | hgt
  · exact hlt
  · have hne := List.find?_eq_none.1 h c hmem
    simp [heq] at hne
  · exact absurd hgt (hv.le _ hsees)

/-- A version that is put onto a document is found, unless one of its revision was there first. -/
theorem newestVisible_withCommit_of_endsAt (hv : v.EndsAt c.revision) (m : Option Modified) :
    (d.withCommit c m).newestVisible v = some ((d.versionAt? c.revision).getD c) := by
  rw [newestVisible_withCommit]
  cases h : d.versionAt? c.revision with
  | some first =>
    have hfirst : first.revision = c.revision := by
      simpa using List.find?_some h
    rw [newestVisible_of_versionAt? hv h, newer_some hv.sees_self, hfirst,
      if_neg (Revision.lt_irrefl _)]
    rfl
  | none =>
    cases hnewest : d.newestVisible v with
    | none => exact newer_none hv.sees_self
    | some b => rw [newer_some hv.sees_self, if_pos (lt_of_newestVisible hv h hnewest)]; rfl

theorem stateAt_withCommit_of_endsAt (hv : v.EndsAt c.revision) (m : Option Modified) :
    (d.withCommit c m).stateAt v = ((d.versionAt? c.revision).getD c).stateAt d.path v := by
  rw [stateAt_eq, newestVisible_withCommit_of_endsAt hv, Option.bind_some, withCommit_path]

/-- The new version changes what is found, unless one of its revision was there first, or a node
that was not there was removed. -/
theorem stateAt_withCommit_eq_iff (hv : v.EndsAt c.revision) (m : Option Modified) :
    (d.withCommit c m).stateAt v = d.stateAt v ↔
      (∃ first ∈ d.commits, first.revision = c.revision) ∨
        c.properties = none ∧ d.stateAt v = none := by
  rw [stateAt_withCommit_of_endsAt hv]
  cases h : d.versionAt? c.revision with
  | some first =>
    have hmem := List.mem_of_find?_eq_some h
    have hfirst : first.revision = c.revision := by
      simpa using List.find?_some h
    rw [stateAt_eq, newestVisible_of_versionAt? hv h]
    constructor
    · intro _
      exact .inl ⟨first, hmem, hfirst⟩
    · intro _
      rfl
  | none =>
    have hnone : ¬ ∃ first ∈ d.commits, first.revision = c.revision := by
      rintro ⟨first, hmem, hfirst⟩
      have hne := List.find?_eq_none.1 h first hmem
      simp [hfirst] at hne
    rw [Option.getD_none, Commit.stateAt]
    cases hproperties : c.properties with
    | none =>
      constructor
      · intro heq
        exact .inr ⟨rfl, heq.symm⟩
      · rintro (hfirst | ⟨_, heq⟩)
        · exact absurd hfirst hnone
        · exact heq.symm
    | some properties =>
      constructor
      · intro heq
        -- what was found before was written earlier
        rw [Option.map_some, stateAt_eq] at heq
        obtain ⟨b, hb, hstate⟩ := Option.bind_eq_some_iff.1 heq.symm
        obtain ⟨_, _, hstate⟩ := Option.map_eq_some_iff.1 hstate
        have hlast : b.revision = c.revision := by
          injection hstate with _ _ hlast
          exact Option.some.inj hlast
        have hlt := lt_of_newestVisible hv h hb
        rw [hlast] at hlt
        exact absurd hlt (Revision.lt_irrefl _)
      · rintro (hfirst | ⟨hremoved, _⟩)
        · exact absurd hfirst hnone
        · cases hremoved

end Document

namespace Version

variable {x : Version} {v : RevisionVector} {found : Option Document}

/-- What reading the node of a version answers, at a snapshot that ends at its revision, after the
version was put onto the document that was found under its id. -/
def readBack (x : Version) (v : RevisionVector) (found : Option Document) :
    Except Failure (Option NodeState) :=
  let d := found.getD (.forPath x.path)
  if d.path = x.path then .ok (((d.versionAt? x.revision).getD x.commit).stateAt x.path v)
  else .error (.unresolvedAt x.path v (.foreign d.id d.path))

/-- The document that was found is that of the path, and if it has a version at this revision
already, the first one says the same. -/
def Readable (x : Version) (v : RevisionVector) (found : Option Document) : Prop :=
  ∀ d, found = some d → d.path = x.path ∧ ∀ first, d.versionAt? x.revision = some first →
    first.stateAt x.path v = x.commit.stateAt x.path v

theorem readBack_eq_iff :
    x.readBack v found = .ok (x.commit.stateAt x.path v) ↔ x.Readable v found := by
  cases found with
  | none =>
    constructor
    · intro _ d hd
      cases hd
    · intro _
      simp [readBack, Document.forPath, Document.versionAt?]
  | some d =>
    rw [readBack, Option.getD_some]
    by_cases hpath : d.path = x.path
    · rw [if_pos hpath]
      constructor
      · rintro h _ ⟨⟩
        refine ⟨hpath, fun first hfirst => ?_⟩
        rw [hfirst] at h
        exact Except.ok.inj h
      · intro h
        cases hfirst : d.versionAt? x.revision with
        | none => rfl
        | some first => exact congrArg Except.ok ((h d rfl).2 first hfirst)
    · rw [if_neg hpath]
      constructor
      · intro h
        cases h
      · intro h
        exact absurd (h d rfl).1 hpath

end Version

namespace Repository

variable {r r' : Repository} {x : Version} {q : String} {v : RevisionVector}

/-- The store after a version was put onto the document under its id. -/
def storeWith (r : Repository) (x : Version) : DocumentStore :=
  r.store.written (x.onto (r.store.stored? x.id))

theorem nodeAt_storeWith_of_id_eq (h : DocumentId.ofPath q = x.id) :
    (r.storeWith x).nodeAt q v =
      let d := (r.store.stored? x.id).getD (.forPath x.path)
      if d.path = q then .ok ((d.withCommit x.commit (some x.modified)).stateAt v)
      else .error (.unresolvedAt q v (.foreign d.id d.path)) := by
  have hstored : (r.storeWith x).stored? (DocumentId.ofPath q) =
      some (x.onto (r.store.stored? x.id)) := by
    rw [h]
    exact stored?_onto r x
  rw [DocumentStore.nodeAt, hstored]
  rfl

theorem nodeAt_storeWith_of_id_ne (h : DocumentId.ofPath q ≠ x.id) :
    (r.storeWith x).nodeAt q v = r.store.nodeAt q v := by
  have hstored : (r.storeWith x).stored? (DocumentId.ofPath q) =
      r.store.stored? (DocumentId.ofPath q) := by
    apply DocumentStore.stored?_written_of_ne
    rwa [onto_id]
  rw [DocumentStore.nodeAt, DocumentStore.nodeAt, hstored]

theorem nodeAt_storeWith_self (hv : v.EndsAt x.revision) :
    (r.storeWith x).nodeAt x.path v = x.readBack v (r.store.stored? x.id) := by
  rw [nodeAt_storeWith_of_id_eq rfl, Version.readBack]
  dsimp only
  split
  · rename_i hpath
    rw [Document.stateAt_withCommit_of_endsAt hv, hpath]
    rfl
  · rfl

/-- A path that shares the id of the version keeps what a snapshot finds at it, if there was a
document and what the snapshot finds in that is the same as before. -/
theorem nodeAt_storeWith_eq_iff (hq : q ≠ x.path) (h : DocumentId.ofPath q = x.id) :
    (r.storeWith x).nodeAt q v = r.store.nodeAt q v ↔
      ∃ d, r.store.stored? x.id = some d ∧ (d.path = q →
        (d.withCommit x.commit (some x.modified)).stateAt v = d.stateAt v) := by
  rw [nodeAt_storeWith_of_id_eq h, DocumentStore.nodeAt, h]
  cases hstored : r.store.stored? x.id with
  | none =>
    have hforeign : (Document.forPath x.path).path ≠ q := hq.symm
    simp [hforeign]
  | some d =>
    by_cases hpath : d.path = q
    · simp [hpath]
    · simp [hpath]

theorem unseen_kept_iff (hq : q ≠ x.path) :
    (∀ v, v.sees x.revision = false → (r.storeWith x).nodeAt q v = r.store.nodeAt q v) ↔
      (DocumentId.ofPath q = x.id → r.store.stored? x.id ≠ none) := by
  constructor
  · intro h hid hnone
    have hempty := h .empty rfl
    obtain ⟨d, hd, _⟩ := (nodeAt_storeWith_eq_iff hq hid).1 hempty
    rw [hnone] at hd
    cases hd
  · intro h v hv
    by_cases hid : DocumentId.ofPath q = x.id
    · obtain ⟨d, hd⟩ := Option.ne_none_iff_exists'.1 (h hid)
      apply (nodeAt_storeWith_eq_iff hq hid).2
      exact ⟨d, hd, fun _ => Document.stateAt_withCommit_of_unseen d _ hv⟩
    · exact nodeAt_storeWith_of_id_ne hid

theorem head_kept_iff (hq : q ≠ x.path) (hv : v.EndsAt x.revision) :
    (r.storeWith x).nodeAt q v = r.store.nodeAt q v ↔
      (DocumentId.ofPath q = x.id → ∃ d, r.store.stored? x.id = some d ∧ (d.path = q →
        (∃ first ∈ d.commits, first.revision = x.revision) ∨
          x.commit.properties = none ∧ d.stateAt v = none)) := by
  by_cases hid : DocumentId.ofPath q = x.id
  · rw [nodeAt_storeWith_eq_iff hq hid]
    simp only [Document.stateAt_withCommit_eq_iff (c := x.commit) hv, hid, forall_const]
    rfl
  · simp [hid, nodeAt_storeWith_of_id_ne hid]

/-- What a call leaves that wrote a version. -/
theorem of_perform_eq_ok (hs : r.store.Sound) {call : WriteCall} {revision : Revision}
    (hcall : call.perform r = (.ok (some revision), r')) :
    ∃ x, call.version? revision = some x ∧ x.path = call.path ∧ x.revision = revision ∧
      (revision.cluster : Int) = r.writer.cluster ∧ revision.timestamp = r.writer.clock + 1 ∧
      r'.head = r.head.update revision ∧
      ∀ q v, (node q v r).1 = r.store.nodeAt q v ∧
        (node q v r').1 = (r.storeWith x).nodeAt q v := by
  have hstep := step_perform hs call
  rw [hcall] at hstep
  cases hstep with
  | version n x hcluster hrevision hversion ha =>
    refine ⟨x, hversion, path_of_version? hversion, rfl, ?_, ?_, rfl, fun q v => ⟨?_, ?_⟩⟩
    · rw [hrevision, hcluster]
    · rw [hrevision]
    · exact (ends_node hs ha q v).answer
    · have hs' : (r.storeWith x).Sound := DocumentStore.sound_written hs _
      have ha' : (r.storeWith x).available = true := ha
      exact (ends_node (r := ⟨r.storeWith x, _⟩) hs' ha' q v).answer

end Repository

namespace Client

/-- A write is read back at the head if, and only if, the document that it found under the id of its
path belongs to that path and holds no other version of the very same revision. Of the other paths
only those are concerned that share the id: at snapshots without the write they keep what was found
at them if there was a document, at the head if moreover the write changes nothing in their own. -/
theorem write_reads_back_iff {υ : Type} {settings : CacheSettings} {store : DocumentStore}
    (hstore : DocumentStore.create settings = .ok store) (cluster : Int) (caller : υ)
    (operations : List (Operation υ)) {call : WriteCall} {revision : Revision} {r' : Repository}
    (hcall : call.perform ((start store cluster caller).run operations).2.workspace.repository =
      (.ok (some revision), r')) :
    let r := ((start store cluster caller).run operations).2.workspace.repository
    ∃ x, call.version? revision = some x ∧ x.path = call.path ∧ x.revision = revision ∧
      (Repository.node x.path r'.head r').1 = x.readBack r'.head (r.store.stored? x.id) ∧
      ((Repository.node x.path r'.head r').1 = .ok (x.commit.stateAt x.path r'.head) ↔
        x.Readable r'.head (r.store.stored? x.id)) ∧
      ∀ q, q ≠ x.path →
        ((∀ v, v.sees revision = false → (Repository.node q v r').1 = (Repository.node q v r).1) ↔
          (DocumentId.ofPath q = x.id → r.store.stored? x.id ≠ none)) ∧
        ((Repository.node q r'.head r').1 = (Repository.node q r'.head r).1 ↔
          (DocumentId.ofPath q = x.id → ∃ d, r.store.stored? x.id = some d ∧ (d.path = q →
            (∃ first ∈ d.commits, first.revision = revision) ∨
              x.commit.properties = none ∧ d.stateAt r'.head = none))) ∧
        (Path.IsNormal q → Path.IsNormal x.path → DocumentId.Apart q x.path →
          ∀ v, (Repository.node q v r').1 = (Repository.node q v r).1) := by
  have hs : ((start store cluster caller).run operations).2.workspace.repository.store.Sound :=
    (run_uncached (coherent_start hstore cluster caller) operations).2.sound
  have hfaithful := faithful_run store cluster caller operations
  rw [Workspace.journal] at hfaithful
  generalize ((start store cluster caller).run operations).2.workspace.repository = r
    at hcall hs hfaithful ⊢
  dsimp only
  obtain ⟨x, hversion, hpath, hrevision, hcluster, htime, hhead, hnode⟩ :=
    Repository.of_perform_eq_ok hs hcall
  have hends : r'.head.EndsAt x.revision := by
    have hlast : (r.head.update revision).revisions = _ :=
      (hfaithful.wrote ⟨hcluster, htime⟩).head_eq
    rw [hrevision, hhead]
    apply RevisionVector.endsAt_of_revisions
    rw [hlast, Journal.wrote, List.getLast?_concat]
    rfl
  refine ⟨x, hversion, hpath, hrevision, ?_, ?_, fun q hq => ⟨?_, ?_, ?_⟩⟩
  · rw [(hnode _ _).2]
    exact Repository.nodeAt_storeWith_self hends
  · rw [(hnode _ _).2, Repository.nodeAt_storeWith_self hends]
    exact Version.readBack_eq_iff
  · have hkept := Repository.unseen_kept_iff (r := r) (x := x) hq
    rw [hrevision] at hkept
    simpa only [hnode] using hkept
  · rw [(hnode _ _).1, (hnode _ _).2, ← hrevision]
    exact Repository.head_kept_iff hq hends
  · intro hnormal hnormal' hapart v
    rw [(hnode _ _).1, (hnode _ _).2]
    apply Repository.nodeAt_storeWith_of_id_ne
    intro hid
    exact hq (DocumentId.ofPath_inj hnormal hnormal' hapart hid)

/-- A document that came with a version at the first revision of the writer hides what the writer
commits at it. -/
theorem write_reads_back_iff_of_repeated_revision :
    let old : Document :=
      { id := "1:/a", path := "/a", commits := [⟨⟨1, 0, 1⟩, some [("x", .number 1)], .empty⟩] }
    let r := ((start { cache := some { limit := some 10000 } } 1 ()).run
      [.request (.write old)]).2.workspace.repository
    let call : WriteCall := .commit "/a" [("x", .number 2)] .empty none
    let r' := (call.perform r).2
    let written : Commit := ⟨⟨1, 0, 1⟩, some [("x", .number 2)], .empty⟩
    (Repository.node "/a" r'.head r').1 ≠ .ok (written.stateAt "/a" r'.head) ∧
      (Repository.node "/b" r'.head r').1 = (Repository.node "/b" r'.head r).1 := by
  intro old r call r' written
  have hcreate : DocumentStore.create {} = .ok { cache := some { limit := some 10000 } } := rfl
  have hcall : call.perform r = (.ok (some ⟨1, 0, 1⟩), r') := rfl
  obtain ⟨x, hversion, -, -, -, hiff, hothers⟩ :=
    write_reads_back_iff hcreate 1 () [.request (.write old)] hcall
  cases hversion
  constructor
  · intro hread
    have hsame := (hiff.1 hread old rfl).2 _ rfl
    simp [Commit.stateAt] at hsame
  · exact (hothers "/b" (by decide)).2.2 (by decide) (by decide) (by decide) _

end Client

/-! ## Two spellings of a long path -/

namespace Path

theorem names_append_slash (p : String) : names (p ++ "/") = names p := by
  have hempty : names "" = [] := by decide
  rw [names_of_slash (p := p) (r := "") String.toList_append, hempty, List.append_nil]

theorem trimmed_append_slash (p : String) : trimmed (p ++ "/") = trimmed p := by
  rw [trimmed, String.toList_append]
  show ((p.toList ++ ['/']).reverse.dropWhile _).reverse = _
  rw [List.reverse_append]
  rfl

theorem isLong_replicate (c : Char) {n : Nat} (h : longLimit ≤ n) :
    isLong ("/" ++ String.ofList (List.replicate n c)) = true := by
  have hslash : "/".length = 1 := rfl
  rw [isLong, decide_eq_true_iff, String.length_append, hslash, String.length_ofList,
    List.length_replicate]
  omega

end Path

namespace DocumentId

/-- The id of a long path does not tell whether the path ends in a slash. -/
theorem ofPath_append_slash {p : String} (h : Path.isLong p = true) :
    ofPath (p ++ "/") = ofPath p := by
  have hlong : Path.isLong (p ++ "/") = true := by
    rw [Path.isLong, decide_eq_true_iff] at h ⊢
    rw [String.length_append]
    exact Nat.lt_add_right _ h
  rw [ofPath, ofPath, h, hlong, if_pos rfl, if_pos rfl, Path.depth, Path.depth, Path.parent,
    Path.parent, Path.name, Path.name, Path.names_append_slash, Path.trimmed_append_slash]

end DocumentId

namespace Repository

variable {p : String}

/-- What is committed at the other spelling of a long path is put onto the document of the path: it
is not read back at the spelling, and what is found at the path changes. -/
theorem commit_of_slash (hp : Path.isLong p = true) (first second : Properties) :
    ∃ r r', commit p first .empty none {} = (.ok ⟨1, 0, 1⟩, r) ∧
      commit (p ++ "/") second .empty none r = (.ok ⟨2, 0, 1⟩, r') ∧
      (node (p ++ "/") r'.head r').1 =
        .error (.unresolvedAt (p ++ "/") r'.head (.foreign (DocumentId.ofPath p) p)) ∧
      (node p r'.head r').1 ≠ (node p r'.head r).1 := by
  have hne : p ≠ p ++ "/" := by
    intro h
    have hlength := congrArg String.length h
    rw [String.length_append] at hlength
    exact absurd hlength (Nat.ne_of_lt (Nat.lt_add_of_pos_right (by decide)))
  have hempty : ({} : DocumentStore).Sound := by
    constructor
    · intro item hitem
      cases hitem
    · intro cache hcache
      cases hcache
  let x : Version := ⟨p, ⟨⟨1, 0, 1⟩, some first, .empty⟩, .time 1⟩
  let y : Version := ⟨p ++ "/", ⟨⟨2, 0, 1⟩, some second, .empty⟩, .time 2⟩
  let r : Repository := ⟨storeWith {} x, ⟨1, 1, .update .empty x.revision⟩⟩
  let r' : Repository := ⟨r.storeWith y, ⟨1, 2, r.head.update y.revision⟩⟩
  have hs : r.store.Sound := DocumentStore.sound_written hempty _
  have hid : DocumentId.ofPath p = y.id := (DocumentId.ofPath_append_slash hp).symm
  have hstored : r.store.stored? y.id = some (x.onto none) := by
    rw [← hid]
    exact stored?_onto {} x
  have hnode (q : String) (v : RevisionVector) : (node q v r').1 = (r.storeWith y).nodeAt q v :=
    (ends_node (r := r') (DocumentStore.sound_written hs _) rfl q v).answer
  refine ⟨r, r', ?_, ?_, ?_, ?_⟩
  · exact writeVersion_of_available (n := 1) p (some first) .empty none rfl rfl
  · exact writeVersion_of_available (n := 1) (p ++ "/") (some second) .empty none rfl rfl
  · rw [hnode, nodeAt_storeWith_of_id_eq rfl, hstored]
    exact if_neg hne
  · have hends : r'.head.EndsAt y.revision := by
      apply RevisionVector.endsAt_of_revisions
      rfl
    rw [hnode, (ends_node hs rfl p _).answer, ne_eq, head_kept_iff hne hends]
    intro hkept
    obtain ⟨d, hd, hsame⟩ := hkept hid
    rw [hstored] at hd
    cases hd
    rcases hsame rfl with ⟨c, hc, hrevision⟩ | ⟨hremoved, _⟩
    · rcases Document.mem_commits_withCommit.1 hc with hc | rfl
      · cases hc
      · cases hrevision
    · cases hremoved

theorem not_read_back_of_slash :
    let p := "/" ++ String.ofList (List.replicate 165 'a')
    let written : Commit := ⟨⟨2, 0, 1⟩, some [("x", .number 2)], .empty⟩
    ∃ r r', commit p [("x", .number 1)] .empty none {} = (.ok ⟨1, 0, 1⟩, r) ∧
      commit (p ++ "/") [("x", .number 2)] .empty none r = (.ok written.revision, r') ∧
      (node (p ++ "/") r'.head r').1 ≠ .ok (written.stateAt (p ++ "/") r'.head) ∧
      (node p r'.head r').1 ≠ (node p r'.head r).1 := by
  intro p written
  have hp : Path.isLong p = true := Path.isLong_replicate 'a' (Nat.le_refl _)
  obtain ⟨r, r', hfirst, hsecond, hforeign, hchanged⟩ :=
    commit_of_slash hp [("x", .number 1)] [("x", .number 2)]
  refine ⟨r, r', hfirst, hsecond, ?_, hchanged⟩
  intro h
  rw [hforeign] at h
  cases h

end Repository

end VersionedTree
