import VersionedTree.Proofs.Journals

/-! # Refused calls

While the store is not available it refuses whatever reads or writes documents, before anything is
changed; only the clock of a writer has moved on by then. So the documents, the cache and the counts
are as they were, the head still holds the last revision that was written, and the next write
succeeds at a newer one.
-/

namespace VersionedTree

namespace Action

variable {σ τ α β : Type} {s : σ}

/-- If the action is refused, it has changed nothing. -/
def Clean (x : Action σ α) (s : σ) : Prop :=
  ∀ e, (x s).1 = .error e → e.kind = .storeUnavailable → (x s).2 = s

theorem clean_of_eq_ok {x : Action σ α} {a : α} (h : (x s).1 = .ok a) : Clean x s := by
  intro e he
  rw [h] at he
  cases he

theorem clean_of_snd {x : Action σ α} (h : (x s).2 = s) : Clean x s := fun _ _ _ => h

theorem Clean.map {x : Action σ α} (hx : Clean x s) (f : α → β) : Clean (f <$> x) s := by
  intro e he hkind
  rw [map_apply] at he ⊢
  apply hx e _ hkind
  cases hanswer : (x s).1 with
  | error e' =>
    rw [hanswer] at he
    cases he
    rfl
  | ok a =>
    rw [hanswer] at he
    cases he

theorem Clean.zoom {view : τ → σ} {update : σ → τ → τ} {x : Action σ α} {t : τ}
    (hx : Clean x (view t)) (h : update (view t) t = t) : Clean (zoom view update x) t := by
  intro e he hkind
  show update (x (view t)).2 t = t
  rw [hx e he hkind, h]

end Action

namespace DocumentStore

variable {α : Type} {s : DocumentStore}

theorem requireAvailable_bind_of_unavailable (ha : s.available = false)
    (f : Unit → Action DocumentStore α) :
    (requireAvailable >>= f) s = (.error .storeUnavailable, s) := by
  rw [Action.bind_apply, requireAvailable, ha]
  rfl

theorem clean_write (d : Document) : Action.Clean (write d) s := by
  cases ha : s.available with
  | true => exact Action.clean_of_eq_ok (congrArg Prod.fst (write_eq ha d))
  | false => exact Action.clean_of_snd (congrArg Prod.snd (write_of_unavailable ha d))

theorem clean_delete (id : String) : Action.Clean (delete id) s := by
  cases ha : s.available with
  | true =>
    apply Action.clean_of_eq_ok
    rw [delete, Action.bind_apply, requireAvailable_eq ha]
    rfl
  | false =>
    apply Action.clean_of_snd
    rw [delete, requireAvailable_bind_of_unavailable ha]

theorem find_of_unavailable (ha : s.available = false) (id : String) :
    find id s = (.error .storeUnavailable, s) := requireAvailable_bind_of_unavailable ha _

theorem clean_find (hs : s.Sound) (id : String) : Action.Clean (find id) s := by
  cases ha : s.available with
  | true => exact Action.clean_of_eq_ok (ends_find hs ha id).answer
  | false => exact Action.clean_of_snd (congrArg Prod.snd (find_of_unavailable ha id))

end DocumentStore

namespace Repository

variable {α : Type} {r : Repository}

theorem clean_onStore {x : Action DocumentStore α} (hx : Action.Clean x r.store) :
    Action.Clean (onStore x) r := hx.zoom rfl

theorem node_of_unavailable (ha : r.store.available = false) (path : String) (v : RevisionVector) :
    node path v r = (.error .storeUnavailable, r) := by
  simp only [node, Action.bind_apply, onStore, Action.zoom, DocumentStore.find_of_unavailable ha]

theorem clean_node (hs : r.store.Sound) (path : String) (v : RevisionVector) :
    Action.Clean (node path v) r := by
  cases ha : r.store.available with
  | true =>
    intro e he hkind
    -- at an available store a node can only fail to be resolved
    rw [(ends_node hs ha path v).answer, DocumentStore.nodeAt] at he
    split at he
    · cases he
    · split at he
      · cases he
      · cases he
        cases hkind
  | false => exact Action.clean_of_snd (congrArg Prod.snd (node_of_unavailable ha path v))

theorem kind_of_ownRevision {e : Failure} (h : ownRevision r = .error e) : e.kind = .value := by
  rw [ownRevision] at h
  split at h
  · cases h
  · rw [Revision.ofInts] at h
    split at h
    · cases h
      rfl
    · cases h

theorem clean_addPrevious (hs : r.store.Sound) (path : String) (height : Int)
    (modified : Option Modified) (split : SplitKind) :
    Action.Clean (addPrevious path height modified split) r := by
  cases ha : r.store.available with
  | true =>
    obtain ⟨s, hfind, hagrees⟩ := DocumentStore.ends_find hs ha (DocumentId.ofPath path)
    intro e he hkind
    rw [addPrevious_eq hfind (hagrees.available.trans ha)] at he
    cases hown : ownRevision r with
    | ok own =>
      rw [hown] at he
      cases he
    | error e' =>
      rw [hown] at he
      cases he
      rw [kind_of_ownRevision hown] at hkind
      cases hkind
  | false =>
    apply Action.clean_of_snd
    simp only [addPrevious, Action.bind_apply, onStore, Action.zoom,
      DocumentStore.find_of_unavailable ha]

/-- A write that fails has moved the clock, and that is all. -/
theorem writeVersion_of_error {path : String} {properties : Option Properties} {bundled : Bundle}
    {modified : Option Modified} {e : Failure}
    (h : (writeVersion path properties bundled modified r).1 = .error e) :
    (writeVersion path properties bundled modified r).2 = r.ticked := by
  rcases cluster_nat_or_negative r.writer with ⟨n, hn⟩ | hn
  · cases ha : r.store.available with
    | true =>
      rw [writeVersion_of_available path properties bundled modified hn ha] at h
      cases h
    | false => rw [writeVersion_of_unavailable path properties bundled modified hn ha]
  · obtain ⟨e', he'⟩ := writeVersion_of_negative path properties bundled modified hn
    rw [he']

end Repository

section

variable {υ α : Type}

/-- The function makes no requests. -/
def Callback.IsSilent : Callback υ α → Prop
  | done _ => True
  | consult next => ∀ own, (next own).IsSilent
  | record _ next => next.IsSilent
  | request .. => False

namespace Operation

def WritesVersion : Operation υ → Prop
  | request (.commit ..) | request (.remove ..) => True
  | _ => False

def Updates : Operation υ → Prop
  | update .. => True
  | _ => False

/-- The failure is a refusal of the operation: the store was not available or, in an update, the
function failed. The function must not make requests, which would be calls of their own. -/
def Refused : Operation υ → Failure → Prop
  | request (.estimatedSize _), _ | request (.setAvailable _), _ | fetch _, _ | closeCursor _, _ =>
    False
  | request _, e | openCursor .., e => e.kind = .storeUnavailable
  | update _ updater, _ => ∀ current, (updater current).IsSilent

end Operation

namespace Workspace

variable {w : Workspace υ}

theorem clean_onRepository {x : Action Repository α} (hx : Action.Clean x w.repository) :
    Action.Clean (onRepository x) w := hx.zoom rfl

theorem clean_onStore {x : Action DocumentStore α} (hx : Action.Clean x w.repository.store) :
    Action.Clean (onStore x) w := clean_onRepository (Repository.clean_onStore hx)

theorem clean_openCursor (range : TimeRange) : Action.Clean (openCursor range) w := by
  cases hscan : w.store.scannable range with
  | error e => exact Action.clean_of_snd (congrArg Prod.snd (openCursor_of_error hscan))
  | ok items => exact Action.clean_of_eq_ok (congrArg Prod.fst (openCursor_of_ok hscan))

/-- The workspace after its writer's clock has come to `clock`, and with the caller's state. -/
def delayed (w : Workspace υ) (clock : Nat) (own : υ) : Workspace υ :=
  { w with
    repository := { w.repository with writer := { w.repository.writer with clock } }
    caller := own }

theorem performed_silently {f : Callback υ α} (hf : f.IsSilent) (w : Workspace υ) :
    ∃ own, (f.perform w).2 = { w with caller := own } := by
  induction f generalizing w with
  | done result =>
    cases result with
    | ok a => exact ⟨w.caller, rfl⟩
    | error e => exact ⟨w.caller, rfl⟩
  | consult next ih => exact ih w.caller (hf w.caller) w
  | record own next ih => exact ih hf { w with caller := own }
  | request r next => exact hf.elim

theorem replace_of_error {id : String} {d : Document} {e : Failure}
    (h : (onStore (DocumentStore.update id fun _ => .ok d) w).1 = .error e) :
    (onStore (DocumentStore.update id fun _ => .ok d) w).2 = w := by
  cases ha : w.repository.store.available with
  | true =>
    have hok : DocumentStore.update id (fun _ => .ok d) w.repository.store = _ :=
      DocumentStore.update_eq rfl ha
    simp only [onStore, onRepository, Repository.onStore, Action.zoom, hok] at h
    cases h
  | false =>
    have hrefused : DocumentStore.update id (fun _ => .ok d) w.repository.store = _ :=
      DocumentStore.update_of_unavailable rfl ha
    simp only [onStore, onRepository, Repository.onStore, Action.zoom, hrefused]

/-- An update that fails leaves what its function left. -/
theorem update_of_error {id : String} {updater : Option Document → Action (Workspace υ) Document}
    {e : Failure} (h : (update id updater w).1 = .error e) :
    (update id updater w).2 = (updater (w.store.stored? id) w).2 := by
  rcases hupdater : updater (w.store.stored? id) w with ⟨e' | d, w'⟩
  · have hupdate : update id updater w = (.error e', w') := by
      simp only [update, Action.bind_apply, Action.get_apply, hupdater]
    rw [hupdate]
  · have hupdate : update id updater w = onStore (DocumentStore.update id fun _ => .ok d) w' := by
      simp only [update, Action.bind_apply, Action.get_apply, hupdater]
    rw [hupdate] at h ⊢
    exact replace_of_error h

theorem write_error {path : String} {properties : Option Properties} {bundled : Bundle}
    {modified : Option Modified} {deletion : Bool} {e : Failure}
    (h : (write path properties bundled modified deletion w).1 = .error e) :
    (write path properties bundled modified deletion w).2 =
      w.delayed (w.repository.writer.clock + 1) w.caller := by
  rcases hwrite : Repository.writeVersion path properties bundled modified w.repository with
    ⟨e' | x, r⟩
  · have hticked := Repository.writeVersion_of_error (congrArg Prod.fst hwrite)
    rw [hwrite] at hticked
    rw [write_of_error deletion hwrite]
    exact congrArg (fun r => { w with repository := r }) hticked
  · rw [write_of_ok deletion hwrite] at h
    cases h

end Workspace

namespace Client

variable {c : Client υ}

def delayed (c : Client υ) (clock : Nat) (own : υ) : Client υ :=
  { c with workspace := c.workspace.delayed clock own }

theorem perform_request (c : Client υ) (r : Request) :
    c.perform (.request r) = ((r.perform c.workspace).1,
      { c with workspace := (r.perform c.workspace).2 }) := rfl

theorem perform_update (c : Client υ) (id : String)
    (updater : Option Document → Callback υ Document) :
    let x := Workspace.update id (fun current => (updater current).perform) c.workspace
    c.perform (.update id updater) =
      (x.1.map fun d => .document (some d), { c with workspace := x.2 }) := rfl

theorem clean_request {w : Workspace υ} (hs : w.store.Sound) {r : Request}
    (hr : ¬ (Operation.request r : Operation υ).WritesVersion) :
    Action.Clean (r.perform : Action (Workspace υ) Answer) w := by
  cases r with
  | write d => exact (Workspace.clean_onStore (DocumentStore.clean_write d)).map _
  | delete id => exact (Workspace.clean_onStore (DocumentStore.clean_delete id)).map _
  | find id => exact (Workspace.clean_onStore (DocumentStore.clean_find hs id)).map _
  | estimatedSize range =>
    apply Action.clean_of_snd
    show ((Answer.count <$> Action.ofExcept (w.store.estimatedSize range)) w).2 = w
    rw [Action.map_apply]
    cases w.store.estimatedSize range <;> rfl
  | setAvailable available => exact Action.clean_of_eq_ok rfl
  | commit | remove => exact absurd trivial hr
  | addPrevious path height modified split =>
    exact (Workspace.clean_onRepository (Repository.clean_addPrevious hs _ _ _ _)).map _
  | node path v => exact (Workspace.clean_onRepository (Repository.clean_node hs path v)).map _

/-- The operation left everything as it was, except that a write may have moved the clock on, and
the function of an update the client's own state. -/
def Untraced (c : Client υ) (operation : Operation υ) (c' : Client υ) : Prop :=
  ∃ clock own, c' = c.delayed clock own ∧ c.workspace.repository.writer.clock ≤ clock ∧
    (¬ operation.WritesVersion → clock = c.workspace.repository.writer.clock) ∧
    (¬ operation.Updates → own = c.workspace.caller)

theorem untraced_of_eq {operation : Operation υ} {c' : Client υ} (h : c' = c) :
    c.Untraced operation c' :=
  ⟨_, _, h, Nat.le_refl _, fun _ => rfl, fun _ => rfl⟩

theorem untraced_of_write {operation : Operation υ} (hoperation : operation.WritesVersion)
    {path : String} {properties : Option Properties} {bundled : Bundle}
    {modified : Option Modified} {deletion : Bool} {e : Failure}
    (h : (Workspace.write path properties bundled modified deletion c.workspace).1 = .error e) :
    c.Untraced operation { c with
      workspace := (Workspace.write path properties bundled modified deletion c.workspace).2 } := by
  rw [Workspace.write_error h]
  exact ⟨_, _, rfl, Nat.le_succ _, fun hnot => absurd hoperation hnot, fun _ => rfl⟩

theorem of_map_eq_error {β : Type} {f : α → β} {result : Except Failure α} {e : Failure}
    (h : f <$> result = .error e) : result = .error e := by
  cases result with
  | ok a => cases h
  | error e' =>
    cases h
    rfl

theorem untraced_of_refused (hs : c.workspace.store.Sound) {operation : Operation υ} {e : Failure}
    (hrefused : operation.Refused e) (h : (c.perform operation).1 = .error e) :
    c.Untraced operation (c.perform operation).2 := by
  cases operation with
  | request r =>
    rw [perform_request] at h ⊢
    cases r with
    | estimatedSize | setAvailable => exact hrefused.elim
    | write | delete | find | addPrevious | node =>
      apply untraced_of_eq
      rw [clean_request hs id e h hrefused]
    | commit path properties bundled modified =>
      have hwrites : (Operation.request (.commit path properties bundled modified) :
        Operation υ).WritesVersion := trivial
      rw [Request.perform, Action.map_apply] at h ⊢
      exact untraced_of_write hwrites (of_map_eq_error h)
    | remove path modified =>
      have hwrites : (Operation.request (.remove path modified) : Operation υ).WritesVersion :=
        trivial
      rw [Request.perform, Action.map_apply] at h ⊢
      exact untraced_of_write hwrites (of_map_eq_error h)
  | update id updater =>
    rw [perform_update] at h ⊢
    have hupdate := Workspace.update_of_error (of_map_eq_error h)
    obtain ⟨own, hown⟩ := Workspace.performed_silently
      (hrefused (c.workspace.store.stored? id)) c.workspace
    refine ⟨_, own, ?_, Nat.le_refl _, fun _ => rfl, fun hnot => absurd trivial hnot⟩
    rw [hupdate, hown]
    rfl
  | openCursor range filter =>
    apply untraced_of_eq
    rw [perform] at h ⊢
    rcases hopen : Workspace.openCursor range c.workspace with ⟨e' | ⟨number, remaining⟩, w⟩
    · rw [hopen] at h
      cases h
      have hclean := Workspace.clean_openCursor (w := c.workspace) range e
        (congrArg Prod.fst hopen) hrefused
      rw [hopen] at hclean
      exact congrArg (fun w => { c with workspace := w }) hclean
    · rw [hopen] at h
      cases h
  | fetch | closeCursor => exact hrefused.elim

/-- What may come to pass while nothing succeeds: operations are refused, and the store is made
available or unavailable. -/
inductive Outage (c : Client υ) : Client υ → Prop where
  | start : Outage c c
  | refused {c' : Client υ} (h : Outage c c') (operation : Operation υ) (e : Failure)
      (hrefused : operation.Refused e) (hanswer : (c'.perform operation).1 = .error e) :
      Outage c (c'.perform operation).2
  | switched {c' : Client υ} (h : Outage c c') (available : Bool) :
      Outage c (c'.perform (.request (.setAvailable available))).2

theorem Outage.keeps {P : Workspace υ → Prop} (hP : Workspace.Invariant P) {c' : Client υ}
    (h : Outage c c') (hc : P c.workspace) : P c'.workspace := by
  induction h with
  | start => exact hc
  | refused _ operation _ _ _ ih => exact hP.perform ih operation
  | switched _ available ih => exact hP.perform ih _

theorem Outage.coherent {c' : Client υ} (h : Outage c c') (hc : c.Coherent) : c'.Coherent := by
  induction h with
  | start => exact hc
  | refused _ operation _ _ _ ih => exact (perform_uncached ih operation).2
  | switched _ available ih => exact (perform_uncached ih _).2

/-- Nothing was written in between. -/
theorem Outage.kept {c' : Client υ} (h : Outage c c') (hc : c.Coherent) :
    c'.workspace.store = c.workspace.store.setAvailable c'.workspace.store.available ∧
      c'.workspace.head = c.workspace.head := by
  induction h with
  | start => exact ⟨rfl, rfl⟩
  | refused h operation e hrefused hanswer ih =>
    obtain ⟨clock, own, heq, -⟩ :=
      untraced_of_refused (h.coherent hc).sound hrefused hanswer
    rw [heq]
    exact ih
  | @switched c' h available ih =>
    obtain ⟨hstore, hhead⟩ := ih
    refine ⟨?_, hhead⟩
    show c'.workspace.store.setAvailable available = c.workspace.store.setAvailable available
    rw [hstore]
    rfl

theorem answer_node (hs : c.workspace.store.Sound) (ha : c.workspace.store.available = true)
    (path : String) (v : RevisionVector) :
    (c.perform (.request (.node path v))).1 =
      Answer.state <$> c.workspace.store.nodeAt path v := by
  rw [perform_request, Request.perform, Action.map_apply]
  exact congrArg (Answer.state <$> ·) (Repository.ends_node hs ha path v).answer

/-- The journal after a write that succeeded. -/
theorem journal_of_write {operation : Operation υ} (hwrites : operation.WritesVersion)
    {x : Revision} (h : (c.perform operation).1 = .ok (.revision x)) :
    (c.perform operation).2.workspace.journal = c.workspace.journal.wrote x ∧
      c.workspace.journal.IsNext x := by
  have hanswer {result : Except Failure Revision} {j : Journal}
      (hentered : Workspace.Entered c.workspace.journal result j)
      (h : Answer.revision <$> result = .ok (.revision x)) :
      j = c.workspace.journal.wrote x ∧ c.workspace.journal.IsNext x := by
    cases hentered with
    | wrote y hy =>
      cases h
      exact ⟨rfl, hy⟩
    | ticked e => cases h
  cases operation with
  | request r =>
    rw [perform_request] at h ⊢
    cases r with
    | commit path properties bundled modified =>
      rw [Request.perform, Action.map_apply] at h ⊢
      exact hanswer (Workspace.entered_commit c.workspace path properties bundled modified) h
    | remove path modified =>
      rw [Request.perform, Action.map_apply] at h ⊢
      exact hanswer (Workspace.entered_remove c.workspace path modified) h
    | write | delete | find | estimatedSize | setAvailable | addPrevious | node =>
      exact hwrites.elim
  | update | openCursor | fetch | closeCursor => exact hwrites.elim

/-- A refused operation has changed nothing but the clock of the writer and, in an update, what its
function changed. After any number of them the nodes are as they were before, and whatever is done
then, writes get newer and newer revisions, the last of which the head holds. -/
theorem refusals_leave_no_trace {settings : CacheSettings} {store : DocumentStore}
    (hstore : DocumentStore.create settings = .ok store) (cluster : Int) (caller : υ)
    (operations : List (Operation υ)) :
    let c := ((start store cluster caller).run operations).2
    (∀ operation e, operation.Refused e → (c.perform operation).1 = .error e →
      c.Untraced operation (c.perform operation).2) ∧
    (∀ id updater e, (c.perform (.update id updater)).1 = .error e →
      (c.perform (.update id updater)).2.workspace =
        ((updater (c.workspace.store.stored? id)).perform c.workspace).2) ∧
    ∀ c', c.Outage c' →
      c'.workspace.store = c.workspace.store.setAvailable c'.workspace.store.available ∧
      c'.workspace.head = c.workspace.head ∧
      (c.workspace.store.available = true → c'.workspace.store.available = true →
        ∀ path v, (c'.perform (.request (.node path v))).1 =
          (c.perform (.request (.node path v))).1) ∧
      ∀ later, let d := (c'.run later).2
        c.workspace.journal.written <+: d.workspace.journal.written ∧
        d.workspace.journal.written.Pairwise (· < ·) ∧
        d.workspace.head.revisions = d.workspace.journal.written.getLast?.toList ∧
        ∀ operation x, operation.WritesVersion → (d.perform operation).1 = .ok (.revision x) →
          (d.perform operation).2.workspace.journal.written =
              d.workspace.journal.written ++ [x] ∧
            ∀ y ∈ d.workspace.journal.written, y < x := by
  intro c
  have hcoherent : c.Coherent := (run_uncached (coherent_start hstore cluster caller) operations).2
  have hfaithful : c.workspace.journal.Faithful := faithful_run store cluster caller operations
  refine ⟨fun operation e hrefused h => ?_, fun id updater e h => ?_, fun c' houtage => ?_⟩
  · exact untraced_of_refused hcoherent.sound hrefused h
  · rw [perform_update] at h ⊢
    exact Workspace.update_of_error (of_map_eq_error h)
  · obtain ⟨hstore', hhead⟩ := houtage.kept hcoherent
    refine ⟨hstore', hhead, fun ha ha' path v => ?_, fun later => ?_⟩
    · rw [answer_node hcoherent.sound ha, answer_node (houtage.coherent hcoherent).sound ha',
        hstore']
      rfl
    · intro d
      have hgrown : c.workspace.journal.written <+: d.workspace.journal.written :=
        (Workspace.invariant_written _).run
          (houtage.keeps (Workspace.invariant_written _) (List.prefix_refl _)) later
      have hlast : d.workspace.journal.Faithful :=
        Workspace.invariant_faithful.run (houtage.keeps Workspace.invariant_faithful hfaithful)
          later
      refine ⟨hgrown, hlast.ascending, hlast.head_eq, fun operation x hwrites hanswer => ?_⟩
      obtain ⟨hjournal, hnext⟩ := journal_of_write hwrites hanswer
      rw [hjournal]
      exact ⟨rfl, hlast.newer hnext⟩

theorem refusals_leave_no_trace_of_refused_commit :
    let commit (n : Int) : Operation Unit :=
      .request (.commit "/a" [("x", .number n)] .empty none)
    let c := ((start { cache := some { limit := some 10000 } } 1 ()).run [commit 1]).2
    let down := (c.perform (.request (.setAvailable false))).2
    let c' := ((down.perform (commit 2)).2.perform (.request (.setAvailable true))).2
    (∀ path v, (c'.perform (.request (.node path v))).1 =
      (c.perform (.request (.node path v))).1) ∧
    c'.workspace.head = c.workspace.head ∧
    (c'.perform (commit 3)).1 = .ok (.revision ⟨3, 0, 1⟩) ∧
    ∀ y ∈ c'.workspace.journal.written, y < ⟨3, 0, 1⟩ := by
  intro commit c down c'
  have hcreate : DocumentStore.create {} = .ok { cache := some { limit := some 10000 } } := rfl
  obtain ⟨-, -, hafter⟩ := refusals_leave_no_trace hcreate 1 () [commit 1]
  have houtage : c.Outage c' :=
    .switched (.refused (.switched .start false) (commit 2) .storeUnavailable rfl rfl) true
  obtain ⟨-, hhead, hnodes, hlater⟩ := hafter c' houtage
  obtain ⟨-, -, -, hwrite⟩ := hlater []
  have hthird : (c'.perform (commit 3)).1 = .ok (.revision ⟨3, 0, 1⟩) := rfl
  exact ⟨hnodes rfl rfl, hhead, hthird, (hwrite (commit 3) _ trivial hthird).2⟩

end Client

end

end VersionedTree
