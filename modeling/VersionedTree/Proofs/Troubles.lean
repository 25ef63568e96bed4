import VersionedTree.Proofs.Interludes
import VersionedTree.Proofs.Outages
import VersionedTree.Proofs.Releases
import VersionedTree.Proofs.Twins

/-! # Faults amid an iteration

The store gets lost between two steps of an iteration or inside one of the caller's functions, or a
function fails. Until a fault shows, the iteration goes as it would have gone; so what it delivers
is a beginning of what it would have delivered, and only the fault can end it before it is through.
-/

namespace VersionedTree

/-- What goes wrong when one of the caller's functions is called. -/
inductive Strike where
  /-- The store is lost, and the function goes on. -/
  | outage
  | raised (e : Failure)

namespace Callback

variable {υ δ α : Type}

/-- The function fails, too, when one of its requests finds that the store is not available. -/
def IsForthright : Callback υ α → Prop
  | done _ => True
  | consult next => ∀ own, (next own).IsForthright
  | record _ next => next.IsForthright
  | request _ next =>
    next (.error .storeUnavailable) = done (.error .storeUnavailable) ∧
      ∀ answer, (next answer).IsForthright

theorem IsSilent.isForthright {f : Callback υ α} (h : f.IsSilent) : f.IsForthright := by
  induction f with
  | done result => trivial
  | consult next ih => exact fun own => ih own (h own)
  | record own next ih => exact ih h
  | request r next => exact h.elim

/-- The function, where something else is kept beside the caller's own state. -/
def beside : Callback υ α → Callback (υ × δ) α
  | done result => done result
  | consult next => consult fun both => (next both.1).beside
  | record own next => consult fun both => record (own, both.2) next.beside
  | request r next => request r fun answer => (next answer).beside

def struck (f : Callback υ α) : Option Strike → Callback υ α
  | none => f
  | some .outage => request (.setAvailable false) fun _ => f
  | some (.raised e) => done (.error e)

/-- The function, where calls are put down and may go wrong, each depending on those so far. -/
def troubled (plan : List Traverser.Call → Option Strike) (call : Traverser.Call)
    (f : Callback υ α) : Callback (υ × List Traverser.Call) α :=
  consult fun both =>
    let calls := both.2 ++ [call]
    record (both.1, calls) (f.beside.struck (plan calls))

end Callback

/-- A traverser as its caller describes it. -/
structure Survey (υ : Type) where
  number : Nat := 0
  label : String
  range : TimeRange := .all
  delivery : Delivery := .nodes
  accepts : String → Callback υ Bool := fun _ => .done (.ok true)
  report : String → Callback υ Unit := fun _ => .done (.ok ())

namespace Survey

variable {υ : Type} (s : Survey υ)

def traverser : Traverser υ where
  number := s.number
  label := s.label
  range := s.range
  delivery := s.delivery
  predicate path := (s.accepts path).perform
  progress id := (s.report id).perform

def troubled (plan : List Traverser.Call → Option Strike) : Survey (υ × List Traverser.Call) where
  number := s.number
  label := s.label
  range := s.range
  delivery := s.delivery
  accepts path := (s.accepts path).troubled plan (.predicate path)
  report id := (s.report id).troubled plan (.progress id)

/-- The caller's functions do not conceal it if the store is not available. Those that make no
requests, as plain functions of a path or an id, have nothing to conceal. -/
structure IsForthright : Prop where
  accepts : ∀ path, (s.accepts path).IsForthright
  report : ∀ id, (s.report id).IsForthright

theorem isNeat_traverser : s.traverser.IsNeat where
  backend := rfl
  predicate path := Workspace.restores_callback (s.accepts path)
  progress id := Workspace.restores_callback (s.report id)

end Survey

/-- The faults that an iteration may meet. -/
structure Faults where
  /-- For each step, is the store lost before it? -/
  cuts : List Bool := []
  plan : List Traverser.Call → Option Strike := fun _ => none

namespace Faults

/-- By the time of these calls the store may be lost. -/
def Lost (f : Faults) (calls : List Traverser.Call) : Prop :=
  true ∈ f.cuts ∨ ∃ before, before <+: calls ∧ f.plan before = some .outage

def Refuses (f : Faults) (e : Failure) (calls : List Traverser.Call) : Prop :=
  e = .storeUnavailable ∧ f.Lost calls

/-- The failure is that of a fault, after these calls. -/
def Explains (f : Faults) (e : Failure) (calls : List Traverser.Call) : Prop :=
  f.Refuses e calls ∨ f.plan calls = some (.raised e)

theorem Lost.append {f : Faults} {calls : List Traverser.Call} (h : f.Lost calls)
    (more : List Traverser.Call) : f.Lost (calls ++ more) := by
  rcases h with hcut | ⟨before, hbefore, houtage⟩
  · exact .inl hcut
  · exact .inr ⟨before, hbefore.trans (List.prefix_append _ _), houtage⟩

end Faults

def Repository.amid (lost : Bool) (r : Repository) : Repository :=
  { r with store := r.store.setAvailable (!lost && r.store.available) }

namespace Workspace

variable {υ α β : Type}

/-- The workspace after some calls, and without its store if that was lost. -/
def amid (calls : List Traverser.Call) (lost : Bool) (w : Workspace υ) :
    Workspace (υ × List Traverser.Call) :=
  { w.withCaller (w.caller, calls) with repository := w.repository.amid lost }

/-- Nothing tells the two workspaces apart but the calls and a store that was lost. -/
inductive Tracks (f : Faults) (w : Workspace υ) : Workspace (υ × List Traverser.Call) → Prop where
  | amid (calls : List Traverser.Call) (lost : Bool) (hlost : lost = true → f.Lost calls) :
    Tracks f w (w.amid calls lost)

/-- The action answers as the other one does, and the workspaces stay alike; or it fails, as `S`
says. -/
def Suffers (f : Faults) (S : Failure → List Traverser.Call → Prop)
    (x' : Action (Workspace (υ × List Traverser.Call)) α) (x : Action (Workspace υ) α) : Prop :=
  ∀ w w', Tracks f w w' →
    (∃ u', x' w' = ((x w).1, u') ∧ Tracks f (x w).2 u') ∨
      ∃ e u', x' w' = (.error e, u') ∧ S e u'.caller.2

section

variable {f : Faults} {S : Failure → List Traverser.Call → Prop}
  {x' : Action (Workspace (υ × List Traverser.Call)) α} {x : Action (Workspace υ) α}

theorem suffers_pure (a : α) :
    Suffers f S (pure a) (pure a : Action (Workspace υ) α) := fun _ w' h => .inl ⟨w', rfl, h⟩

theorem suffers_fail (e : Failure) :
    Suffers f S (Action.fail e) (Action.fail e : Action (Workspace υ) α) :=
  fun _ w' h => .inl ⟨w', rfl, h⟩

theorem Suffers.bind {g' : α → Action (Workspace (υ × List Traverser.Call)) β}
    {g : α → Action (Workspace υ) β} (hx : Suffers f S x' x)
    (hg : ∀ a, Suffers f S (g' a) (g a)) : Suffers f S (x' >>= g') (x >>= g) := by
  intro w w' h
  rw [Action.bind_apply, Action.bind_apply]
  rcases hx w w' h with ⟨u', hx', hu⟩ | ⟨e, u', hx', he⟩
  · rw [hx']
    rcases hxw : x w with ⟨e | a, u⟩
    · rw [hxw] at hu
      exact .inl ⟨u', rfl, hu⟩
    · rw [hxw] at hu
      exact hg a u u' hu
  · rw [hx']
    exact .inr ⟨e, u', rfl, he⟩

variable (f S) in
/-- What an iteration suffers, beside one that meets no faults. -/
def suffering : Coupling (Workspace (υ × List Traverser.Call)) (Workspace υ) where
  Rel := Suffers f S
  pure := suffers_pure
  fail := suffers_fail
  bind := Suffers.bind

theorem suffers_get_bind {g' : Workspace (υ × List Traverser.Call) → Action _ α}
    {g : Workspace υ → Action (Workspace υ) α}
    (h : ∀ calls lost w, Suffers f S (g' (amid calls lost w)) (g w)) :
    Suffers f S (Action.get >>= g') (Action.get >>= g) := by
  rintro w _ ⟨calls, lost, hlost⟩
  exact h calls lost w w _ ⟨calls, lost, hlost⟩

theorem suffers_of_amid
    (h : ∀ calls lost w, x' (amid calls lost w) = ((x w).1, (x w).2.amid calls lost)) :
    Suffers f S x' x := by
  rintro w _ ⟨calls, lost, hlost⟩
  exact .inl ⟨_, h calls lost w, ⟨calls, lost, hlost⟩⟩

theorem Suffers.map (hx : Suffers f S x' x) (g : α → β) : Suffers f S (g <$> x') (g <$> x) := by
  rw [map_eq_pure_bind, map_eq_pure_bind]
  exact hx.bind fun a => suffers_pure (g a)

theorem Suffers.mono {S' : Failure → List Traverser.Call → Prop} (hx : Suffers f S x' x)
    (h : ∀ e calls, S e calls → S' e calls) : Suffers f S' x' x := by
  intro w w' hw
  rcases hx w w' hw with hsame | ⟨e, u', hfail, he⟩
  · exact .inl hsame
  · exact .inr ⟨e, u', hfail, h e _ he⟩

theorem suffers_onRepository {x : Action Repository α}
    (h : ∀ r, r.store.available = false → (x r).1 = .error .storeUnavailable) :
    Suffers (υ := υ) f f.Refuses (onRepository x) (onRepository x) := by
  rintro w _ ⟨calls, lost, hlost⟩
  cases lost with
  | false =>
    have hsame : onRepository x (w.amid calls false) =
        ((onRepository x w).1, (onRepository x w).2.amid calls false) := rfl
    exact .inl ⟨_, hsame, calls, false, hlost⟩
  | true =>
    have hrefused : onRepository x (w.amid calls true) =
        (.error .storeUnavailable, (onRepository x (w.amid calls true)).2) :=
      Prod.ext (h (w.repository.amid true) rfl) rfl
    exact .inr ⟨_, _, hrefused, rfl, hlost rfl⟩

/-! ### What a client can ask for -/

theorem onRepository_bind (x : Action Repository α) (g : α → Action Repository β) :
    (onRepository (x >>= g) : Action (Workspace υ) β) =
      (onRepository x >>= fun a => onRepository (g a)) := by
  funext w
  simp only [onRepository, Action.zoom, Action.bind_apply]
  rcases x w.repository with ⟨e | a, r⟩
  · rfl
  · rfl

theorem suffers_nextRevision :
    Suffers (υ := υ) f f.Refuses (onRepository Repository.nextRevision)
      (onRepository Repository.nextRevision) := by
  have hnext (r : Repository) : Repository.nextRevision r =
      ((Revision.ofInts (r.writer.clock + 1 : Nat) 0 r.writer.cluster).mapError .revision,
        r.ticked) := by
    rw [Repository.nextRevision, Action.bind_apply, Action.modify_apply]
    simp only [Action.bind_apply, Action.get_apply]
    cases Revision.ofInts (r.writer.clock + 1 : Nat) 0 r.writer.cluster <;> rfl
  apply suffers_of_amid
  intro calls lost w
  simp only [onRepository, Action.zoom, hnext]
  rfl

theorem suffers_write (path : String) (properties : Option Properties) (bundled : Bundle)
    (modified : Option Modified) (deletion : Bool) :
    Suffers (υ := υ) f f.Refuses (write path properties bundled modified deletion)
      (write path properties bundled modified deletion) := by
  rw [write, write, Repository.writeVersion, onRepository_bind, onRepository_bind]
  apply Suffers.bind
  · apply suffers_nextRevision.bind
    intro revision
    apply suffers_onRepository
    intro r ha
    simp only [Action.bind_apply, Repository.onStore, Action.zoom]
    rw [DocumentStore.update_of_unavailable rfl ha]
  · intro revision
    apply Suffers.bind (suffers_of_amid fun _ _ _ => rfl)
    intro _
    exact suffers_pure revision

theorem suffers_node (path : String) (v : RevisionVector) :
    Suffers (υ := υ) f f.Refuses (node path v) (node path v) := by
  apply suffers_onRepository
  intro r ha
  rw [Repository.node_of_unavailable ha]

theorem suffers_onStore {x : Action DocumentStore α}
    (h : ∀ s, s.available = false → (x s).1 = .error .storeUnavailable) :
    Suffers (υ := υ) f f.Refuses (onStore x) (onStore x) :=
  suffers_onRepository fun r ha => h r.store ha

theorem suffers_request (r : Request) : Suffers (υ := υ) f f.Refuses r.perform r.perform := by
  cases r with
  | write d =>
    apply Suffers.map
    apply suffers_onStore
    intro s ha
    rw [DocumentStore.write_of_unavailable ha]
  | delete id =>
    apply Suffers.map
    apply suffers_onStore
    intro s ha
    rw [DocumentStore.delete, DocumentStore.requireAvailable_bind_of_unavailable ha]
  | find id =>
    apply Suffers.map
    apply suffers_onStore
    intro s ha
    rw [DocumentStore.find_of_unavailable ha]
  | estimatedSize range =>
    apply suffers_get_bind
    intro calls lost w
    exact Suffers.map ((suffering f f.Refuses).ofExcept _) _
  | setAvailable available =>
    apply Suffers.map
    rintro w _ ⟨calls, lost, -⟩
    exact .inl ⟨_, rfl, calls, false, fun h => absurd h Bool.false_ne_true⟩
  | commit path properties bundled modified =>
    exact (suffers_write path (some properties) bundled modified false).map _
  | remove path modified => exact (suffers_write path none .empty modified true).map _
  | addPrevious path height modified split =>
    apply Suffers.map
    apply suffers_onRepository
    intro r ha
    simp only [Repository.addPrevious, Action.bind_apply, Repository.onStore, Action.zoom,
      DocumentStore.find_of_unavailable ha]
  | node path v => exact (suffers_node path v).map _

theorem suffers_openCursor (range : TimeRange) :
    Suffers (υ := υ) f f.Refuses (openCursor range) (openCursor range) := by
  apply Suffers.bind
  · apply suffers_onStore
    intro s ha
    rw [DocumentStore.openScan, DocumentStore.requireAvailable_bind_of_unavailable ha]
  · intro stream
    exact suffers_of_amid fun _ _ _ => rfl

theorem suffers_beside {g : Callback υ α} (hg : g.IsForthright) :
    Suffers f f.Explains g.beside.perform g.perform := by
  induction g with
  | done result => exact (suffering f f.Explains).ofExcept result
  | consult next ih =>
    rintro w _ ⟨calls, lost, hlost⟩
    exact ih w.caller (hg w.caller) w _ ⟨calls, lost, hlost⟩
  | record own next ih =>
    rintro w _ ⟨calls, lost, hlost⟩
    exact ih hg { w with caller := own } _ ⟨calls, lost, hlost⟩
  | request r next ih =>
    obtain ⟨hconfesses, hrest⟩ := hg
    intro w w' h
    rw [Callback.beside, Callback.perform, Callback.perform, Action.bind_apply, Action.bind_apply,
      Action.attempt, Action.attempt]
    -- only a refusal tells the two apart, and the function passes that on
    rcases suffers_request r w w' h with ⟨u', hsame, hu⟩ | ⟨e, u', hrefused, rfl, hlost⟩
    · rw [hsame]
      exact ih _ (hrest _) _ u' hu
    · rw [hrefused]
      dsimp only
      rw [hconfesses]
      exact .inr ⟨_, u', rfl, .inl ⟨rfl, hlost⟩⟩

theorem suffers_troubled {g : Callback υ α} (hg : g.IsForthright) (call : Traverser.Call) :
    Suffers f f.Explains (g.troubled f.plan call).perform g.perform := by
  rintro w _ ⟨calls, lost, hlost⟩
  have hcalled : (g.troubled f.plan call).perform (w.amid calls lost) =
      (g.beside.struck (f.plan (calls ++ [call]))).perform (w.amid (calls ++ [call]) lost) := rfl
  rw [hcalled]
  -- what strikes strikes before the function itself runs
  cases hplan : f.plan (calls ++ [call]) with
  | none => exact suffers_beside hg w _ ⟨_, lost, fun h => (hlost h).append [call]⟩
  | some strike =>
    cases strike with
    | outage => exact suffers_beside hg w _ ⟨_, true, fun _ => .inr ⟨_, List.prefix_rfl, hplan⟩⟩
    | raised e => exact .inr ⟨e, _, rfl, .inr hplan⟩

theorem Suffers.explained (hx : Suffers f f.Refuses x' x) : Suffers f f.Explains x' x :=
  hx.mono fun _ _ => .inl

end

end Workspace

namespace Traverser

open Workspace

variable {υ : Type} {f : Faults} {s : Survey υ}

theorem suffers_modifyState (g : TraverserState → TraverserState) :
    Suffers f f.Explains (Action.modify ((s.troubled f.plan).traverser.modifyState g))
      (Action.modify (s.traverser.modifyState g)) := suffers_of_amid fun _ _ _ => rfl

theorem suffers_remember (item : Stored) :
    Suffers (υ := υ) f f.Explains (changeStore (·.rememberIfCurrent item))
      (changeStore (·.rememberIfCurrent item)) := by
  have hremember (s : DocumentStore) (lost : Bool) :
      (s.setAvailable (!lost && s.available)).rememberIfCurrent item =
        (s.rememberIfCurrent item).setAvailable
          (!lost && (s.rememberIfCurrent item).available) := by
    simp only [DocumentStore.rememberIfCurrent, DocumentStore.setAvailable]
    split
    · split <;> rfl
    · rfl
  apply suffers_of_amid
  intro calls lost w
  exact congrArg (fun store => (Except.ok (), { w.withCaller (w.caller, calls) with
    repository := { w.repository with store } })) (hremember w.store lost)

theorem suffers_parts (hs : s.IsForthright) (v : RevisionVector) :
    (suffering f f.Explains).Parts (s.troubled f.plan).traverser s.traverser v where
  delivery := rfl
  available := by
    apply Suffers.explained
    apply suffers_onStore
    intro s ha
    rw [DocumentStore.requireAvailable, ha]
    rfl
  remember := suffers_remember
  count _ _ := suffers_modifyState _
  complete _ _ := suffers_of_amid fun _ _ _ => rfl
  predicate path := suffers_troubled (hs.accepts path) _
  progress id := suffers_troubled (hs.report id) _
  node path := (suffers_node path v).explained
  requireOpen number := suffers_get_bind fun _ _ w =>
    (suffering f f.Explains).ofExcept (w.cursor number).requireOpen
  resumeFetch number := suffers_get_bind fun _ _ w =>
    (suffering f f.Explains).ofExcept (w.cursor number).requireUninterrupted

theorem suffers_openScan (v : RevisionVector) :
    Suffers f f.Explains ((s.troubled f.plan).traverser.openScan v) (s.traverser.openScan v) := by
  apply suffers_get_bind
  intro calls lost w
  apply (suffers_modifyState _).bind
  intro _
  apply (suffers_openCursor s.range).explained.bind
  intro opened
  apply (suffers_modifyState _).bind
  intro _
  apply Suffers.bind (suffers_of_amid fun _ _ _ => rfl)
  intro _
  exact suffers_pure _

/-- What the steps of an iteration suffer is what the faults explain. -/
theorem suffers_iterates (hs : s.IsForthright) :
    (suffering f f.Explains).Iterates (s.troubled f.plan).traverser s.traverser where
  parts := suffers_parts hs
  headPauses := rfl
  ask ticket := by
    apply suffers_get_bind
    intro calls lost w
    apply (suffers_modifyState _).bind
    intro _
    exact suffers_pure _
  openScan := suffers_openScan
  readHead := by
    apply suffers_get_bind
    intro calls lost w
    apply (suffers_modifyState _).bind
    intro _
    exact suffers_openScan w.head

end Traverser

namespace Turntaker

open Workspace Traverser

variable {υ : Type} {f : Faults} {s : Survey υ} {mayPause : Bool} {r : Turntaker υ}
  {r' : Turntaker (υ × List Call)} {w : Workspace υ} {w' : Workspace (υ × List Call)}

/-- Another traverser's iteration that stands where this one stands. -/
def handedTo {υ' : Type} (t : Traverser υ') (r : Turntaker υ) : Turntaker υ' :=
  { traverser := t, standing := r.standing, entries := r.entries, closes := r.closes }

theorem handedTo_after {υ' : Type} (t : Traverser υ') (r : Turntaker υ)
    (step : Except Failure Step) : (r.handedTo t).after step = (r.after step).handedTo t := by
  rcases step with e | ⟨e, it⟩ | it | ticket | _ <;> rfl

/-- The iteration that may meet faults stands where the other one stands, or a fault has ended
it. -/
inductive Follows (f : Faults) (s : Survey υ) (r : Turntaker υ) (w : Workspace υ) :
    Turntaker (υ × List Call) → Workspace (υ × List Call) → Prop where
  | inStep {w' : Workspace (υ × List Call)} (h : Tracks f w w') :
    Follows f s r w (r.handedTo (s.troubled f.plan).traverser) w'
  | struck {r' : Turntaker (υ × List Call)} {w' : Workspace (υ × List Call)} {e : Failure}
    (hended : r'.standing = .ended (some e)) (hentries : r'.entries <+: r.entries)
    (he : f.Explains e w'.caller.2) : Follows f s r w r' w'

/-- Between two steps the store may get lost. -/
def cut (lost : Bool) : Action (Workspace υ) Unit :=
  if lost then changeStore (·.setAvailable false) else pure ()

theorem Follows.cut (h : Follows f s r w r' w') {lost : Bool} (hcut : lost = true → true ∈ f.cuts) :
    Follows f s r w r' (Turntaker.cut lost w').2 := by
  cases h with
  | inStep h =>
    obtain ⟨calls, already, halready⟩ := h
    cases lost with
    | false => exact .inStep ⟨calls, already, halready⟩
    | true => exact .inStep ⟨calls, true, fun _ => .inl (hcut rfl)⟩
  | struck hended hentries he => cases lost <;> exact .struck hended hentries he

theorem tracks_setFetching (h : Tracks f w w') (fetching : Bool) (it : Iteration) :
    Tracks f (setFetching fetching it w).2 (setFetching fetching it w').2 := by
  obtain ⟨calls, lost, hlost⟩ := h
  cases it <;> exact ⟨calls, lost, hlost⟩

theorem tracks_resting (h : Tracks f w w') (step : Except Failure Step) :
    Tracks f (resting step w).2 (resting step w').2 := by
  rcases step with e | ⟨e, it⟩ | it | ticket | _
  · exact h
  · exact h
  · exact tracks_setFetching h true it
  · exact h
  · exact h

variable (hs : s.IsForthright)

include hs

theorem follows_stepOn (ht : r.traverser = s.traverser) (hcloses : r.closes = false)
    (mayPause : Bool) (it : Iteration) (h : Tracks f w w') :
    ∃ r₁ w₁ r₁' w₁', r.stepOn mayPause it w = (.ok r₁, w₁) ∧
      (r.handedTo (s.troubled f.plan).traverser).stepOn mayPause it w' = (.ok r₁', w₁') ∧
      (r₁.traverser = s.traverser ∧ r₁.closes = false) ∧ Follows f s r₁ w₁ r₁' w₁' := by
  let t' := (s.troubled f.plan).traverser
  have hcloses' : (r.handedTo t').closes = false := hcloses
  refine ⟨_, _, _, _, stepOn_apply hcloses mayPause it w, stepOn_apply hcloses' mayPause it w',
    by simp [ht, hcloses], ?_⟩
  have ht' : (r.handedTo t').traverser = t' := rfl
  rw [ht, ht', handedTo_after]
  rcases (suffers_iterates hs).advance mayPause it _ _ (tracks_setFetching h false it) with
    ⟨u', hsame, hu⟩ | ⟨e, u', hfail, he⟩
  · rw [hsame]
    exact .inStep (tracks_resting hu _)
  · rw [hfail]
    exact .struck rfl (entries_after r _) he

/-- What a step makes of the two iterations. -/
theorem follows_step (ht : r.traverser = s.traverser) (hcloses : r.closes = false)
    (mayPause : Bool) (h : Follows f s r w r' w') :
    ∃ r₁ w₁ r₁' w₁', r.step mayPause w = (.ok r₁, w₁) ∧ r'.step mayPause w' = (.ok r₁', w₁') ∧
      (r₁.traverser = s.traverser ∧ r₁.closes = false) ∧ Follows f s r₁ w₁ r₁' w₁' := by
  cases h with
  | inStep h =>
    let t' := (s.troubled f.plan).traverser
    have hstanding : (r.handedTo t').standing = r.standing := rfl
    rw [step, step, hstanding]
    cases r.standing with
    | unbegun =>
      obtain ⟨calls, lost, hlost⟩ := h
      let w₀ := (s.traverser.iterate w).2
      have h₀ : Tracks f w₀ (w₀.amid calls lost) := ⟨calls, lost, hlost⟩
      rw [ht]
      exact follows_stepOn hs ht hcloses mayPause (.entering (s.traverser.state w).iterations) h₀
    | due it => exact follows_stepOn hs ht hcloses mayPause it h
    | waiting ticket => exact follows_stepOn hs ht hcloses mayPause (.entering ticket) h
    | ended failure => exact ⟨r, w, _, w', rfl, rfl, ⟨ht, hcloses⟩, .inStep h⟩
  | struck hended hentries he =>
    -- the other iteration may go on and deliver more
    have hidle : r'.step mayPause w' = (.ok r', w') := by
      rw [step, hended]
      rfl
    obtain ⟨r₁, w₁, hstep, h₁, hmore⟩ := entries_step ht hcloses mayPause w
    exact ⟨r₁, w₁, r', w', hstep, hidle, h₁, .struck hended (hentries.trans hmore) he⟩

theorem follows_stepAmid (ht : r.traverser = s.traverser) (hcloses : r.closes = false)
    (mayPause : Bool) {cuts : List Bool} (hcuts : true ∈ cuts → true ∈ f.cuts)
    (h : Follows f s r w r' w') :
    ∃ r₁ w₁ r₁' w₁',
      stepAmid mayPause (List.replicate cuts.length (pure ())) r w = (.ok r₁, w₁) ∧
      stepAmid mayPause (cuts.map cut) r' w' = (.ok r₁', w₁') ∧ Follows f s r₁ w₁ r₁' w₁' := by
  induction cuts generalizing r w r' w' with
  | nil => exact ⟨r, w, r', w', rfl, rfl, h⟩
  | cons lost cuts ih =>
    have hcut : lost = true → true ∈ f.cuts := by
      rintro rfl
      exact hcuts List.mem_cons_self
    obtain ⟨r₁, w₁, r₁', w₁', hstep, hstep', ⟨ht₁, hcloses₁⟩, h₁⟩ :=
      follows_step hs ht hcloses mayPause (h.cut hcut)
    obtain ⟨r₂, w₂, r₂', w₂', hrest, hrest', h₂⟩ :=
      ih ht₁ hcloses₁ (fun h => hcuts (List.mem_cons_of_mem _ h)) h₁
    exact ⟨r₂, w₂, r₂', w₂', (stepAmid_cons hstep _).trans hrest,
      (stepAmid_cons hstep' _).trans hrest', h₂⟩

omit hs

/-- Amid actions that close what they open, an iteration may be left after any step: once its
traverser is closed, there are as many open cursors as before. -/
theorem openCursors_close {t : Traverser υ} (ht : t.IsNeat) (hw : w.ledger.Balanced)
    (hmade : t.number < w.traversers.length) (hidle : (t.state w).closer.resources = [])
    {others : List (Action (Workspace υ) Unit)} (hothers : ∀ other ∈ others, Restores other)
    {w₁ : Workspace υ}
    (hrun : stepAmid mayPause others { traverser := t } w = (.ok r, w₁)) :
    (t.close w₁).2.store.openCursors = w.store.openCursors := by
  let mine := [t.number]
  let P := Ledger.Entrusted w.ledger mine mine
  have hn : t.number ∈ mine := List.mem_singleton_self _
  have hspare : Ledger.Spare w.ledger mine w.ledger t.number := by
    refine ⟨?_, fun _ => hn, ?_⟩
    · rwa [ledger, List.length_map]
    · rw [← holding_traverser]
      exact hidle
  have hstart : P w.ledger := (hw.entrusted mine).passed
    (fun m hm => (List.not_mem_nil hm).elim)
    (fun m hm => .inr (List.mem_singleton.1 hm ▸ hspare))
  have hadvance (it : Iteration) : Upholds P (t.advance mayPause it) :=
    upholds_advance ht.heeds (allows_entrusted hn) mayPause it
  let Q (r : Turntaker υ) (l : Ledger) : Prop := (r.traverser = t ∧ r.closes = false) ∧ P l
  have hstep (r : Turntaker υ) (w : Workspace υ) (h : Q r w.ledger) :
      ∃ r' w', r.step mayPause w = (.ok r', w') ∧ Q r' w'.ledger := by
    obtain ⟨r', w', hstep, h', -, hP⟩ := step_upholds hadvance h.1.1 h.1.2 h.2
    exact ⟨r', w', hstep, h', hP⟩
  have hkept : ∀ other ∈ others, ∀ r, Upholds (Q r) other :=
    fun other hother r w h => ⟨h.1, (hothers other hother).upholds w h.2⟩
  have hbegun : Q { traverser := t } w.ledger := ⟨⟨rfl, rfl⟩, hstart⟩
  obtain ⟨_, _, hrun', -, hend⟩ := stepAmid_keeps hstep hkept hbegun
  rw [hrun] at hrun'
  cases hrun'
  have hclosed : Ledger.Entrusted w.ledger mine [] (t.close w₁).2.ledger :=
    entrusted_close hn hend (fun m hm => .inl (List.mem_singleton.1 hm))
      fun m hm => (List.not_mem_nil hm).elim
  exact hclosed.openCursors hw

theorem restores_cut {cuts : List Bool} :
    ∀ other ∈ cuts.map (cut (υ := υ)), Restores other := by
  intro other hother
  obtain ⟨lost, -, rfl⟩ := List.mem_map.1 hother
  apply Quiet.restores
  intro w
  cases lost <;> rfl

/-- An iteration comes to its end in `k` steps if nothing goes wrong. If anything does, then what it
delivers is a beginning of what it would have delivered; it ends without a failure only when it has
delivered all of that, and otherwise with the failure of a fault that it met. When its traverser is
closed then, there are as many open cursors as before.

The caller's functions are to be forthright. That leaves out those that make requests of the store
themselves and hide from the iteration that one of them found the store lost: they would answer
differently without any failure. A function that makes no requests is forthright, and so is every
function of nothing but the path or the id. -/
theorem faults_end_early {settings : CacheSettings} {store : DocumentStore}
    (hstore : DocumentStore.create settings = .ok store) {cluster : Int} {caller : υ} {α : Type}
    {x : Action (Workspace υ) α} (hx : Workspace.Operation x) {w : Workspace υ}
    (hw : (x (.start store cluster caller)).2 = w) {s : Survey υ} (hs : s.IsForthright)
    (hmade : s.number < w.traversers.length)
    (hidle : (w.traverser s.number).closer.resources = []) {mayPause : Bool} {k : Nat}
    {full : Turntaker υ} {u : Workspace υ}
    (hfull : stepAmid mayPause (List.replicate k (pure ())) { traverser := s.traverser } w =
      (.ok full, u)) (hended : full.standing = .ended none) (f : Faults) :
    let t := (s.troubled f.plan).traverser
    ∃ r w', stepAmid mayPause (f.cuts.map cut) { traverser := t } (w.withCaller (w.caller, [])) =
        (.ok r, w') ∧
      r.entries <+: full.entries ∧
      (r.standing = .ended none → r.entries = full.entries) ∧
      (∀ e, r.standing = .ended (some e) → f.Explains e w'.caller.2) ∧
      (k ≤ f.cuts.length → ∃ failure, r.standing = .ended failure) ∧
      (t.close w').2.store.openCursors = w.store.openCursors := by
  intro t
  have hstart : Follows f s { traverser := s.traverser } w { traverser := t }
      (w.withCaller (w.caller, [])) := .inStep ⟨[], false, fun h => absurd h Bool.false_ne_true⟩
  obtain ⟨r₁, w₁, r, w', hrun, hrun', hfollows⟩ :=
    follows_stepAmid hs rfl rfl mayPause id hstart
  obtain ⟨hentries, hsame, hlong⟩ := stepAmid_of_ended rfl hfull hended hrun
  have hbalanced : w.ledger.Balanced := by
    rw [← hw]
    exact hx.keeps Ledger.stable_balanced _ (balanced_start hstore cluster caller)
  have hclose : (t.close w').2.store.openCursors = w.store.openCursors :=
    openCursors_close (s.troubled f.plan).isNeat_traverser (w := w.withCaller (w.caller, []))
      hbalanced hmade hidle restores_cut hrun'
  cases hfollows with
  | inStep h =>
    refine ⟨_, w', hrun', hentries, ?_, ?_, ?_, hclose⟩
    · intro hnone
      exact congrArg entries (hsame none hnone)
    · intro e hsome
      have hfailed : r₁.standing = .ended (some e) := hsome
      rw [hsame _ hfailed, hended] at hfailed
      cases hfailed
    · intro hk
      exact ⟨none, (congrArg standing (hlong hk)).trans hended⟩
  | struck hstruck hbefore he =>
    refine ⟨r, w', hrun', hbefore.trans hentries, ?_, ?_, ?_, hclose⟩
    · intro hnone
      rw [hstruck] at hnone
      cases hnone
    · intro e' hsome
      rw [hstruck] at hsome
      cases hsome
      exact he
    · exact fun _ => ⟨_, hstruck⟩

/-- The store is lost when the scan comes across the second of two documents. -/
theorem faults_end_early_of_lost_store :
    let s : Survey Unit := { label := "all" }
    let x : Action (Workspace Unit) (Traverser Unit) := do
      let _ ← Request.perform (.commit "/a" [] .empty none)
      let _ ← Request.perform (.commit "/b" [] .empty none)
      s.traverser.create none
    let w := (x (.start { cache := some { limit := some 1 } } 1 ())).2
    let f : Faults :=
      { cuts := [false, false, false]
        plan := fun calls =>
          if calls.getLast? = some (.progress "1:/b") then some .outage else none }
    let t := (s.troubled f.plan).traverser
    ∃ r w', stepAmid false (f.cuts.map cut) { traverser := t } (w.withCaller (w.caller, [])) =
        (.ok r, w') ∧
      r.entries.length = 1 ∧ r.standing = .ended (some .storeUnavailable) ∧
      (t.close w').2.store.openCursors = 0 := by
  intro s x w f t
  have hx : Workspace.Operation x :=
    .bind (.request _) fun _ _ => .bind (.request _) fun _ _ => .create rfl none _
  have hstore : DocumentStore.create { maxEntries := some 1 } =
      .ok { cache := some { limit := some 1 } } := rfl
  have hs : s.IsForthright :=
    ⟨fun _ => Callback.IsSilent.isForthright trivial,
      fun _ => Callback.IsSilent.isForthright trivial⟩
  obtain ⟨full, u, hfull, -, -⟩ := entries_stepAmid (r := { traverser := s.traverser }) rfl rfl
    false (List.replicate 3 (pure ())) w
  have hthrough : ((stepAmid false (List.replicate 3 (pure ()))
      { traverser := s.traverser } w).1.map fun r =>
        (r.entries.length, r.standing matches .ended none)).toOption =
        some (2, true) := by decide +kernel
  rw [hfull] at hthrough
  obtain ⟨htwo, hthrough⟩ := Prod.mk.inj (Option.some.inj hthrough)
  have hended : full.standing = .ended none := by
    split at hthrough
    · assumption
    · cases hthrough
  have hmade : s.number < w.traversers.length := by decide +kernel
  have hidle : (w.traverser s.number).closer.resources = [] := by decide +kernel
  obtain ⟨r, w', hrun, -, hwhole, hexplained, hends, hclosed⟩ :=
    faults_end_early hstore hx rfl hs hmade hidle hfull hended f
  have hone : ((stepAmid false (f.cuts.map cut) { traverser := t }
      (w.withCaller (w.caller, []))).1.map fun r => r.entries.length).toOption = some 1 := by
    decide +kernel
  have hnone : w.store.openCursors = 0 := by decide +kernel
  rw [hrun] at hone
  have hone : r.entries.length = 1 := Option.some.inj hone
  refine ⟨r, w', hrun, hone, ?_, hclosed.trans hnone⟩
  obtain ⟨failure, hfailure⟩ := hends (Nat.le_refl 3)
  cases failure with
  | none =>
    have hboth : full.entries.length = 2 := htwo
    rw [hwhole hfailure, hboth] at hone
    cases hone
  | some e =>
    rcases hexplained e hfailure with ⟨rfl, -⟩ | hraised
    · exact hfailure
    · dsimp only [f] at hraised
      split at hraised
      · cases hraised
      · cases hraised

end Turntaker

end VersionedTree
