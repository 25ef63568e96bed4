import VersionedTree.Proofs.Transparency

/-! # Clients of a store

A client makes requests, replaces documents by what a function of its own makes of them, and opens,
reads on and closes any number of cursors, in any order. Its functions may make requests
themselves. A client cannot tell whether the store has a cache.
-/

namespace VersionedTree

/-- A call that reads or writes documents or nodes. -/
inductive Request where
  | write (d : Document)
  | delete (id : String)
  | find (id : String)
  | estimatedSize (range : TimeRange)
  | setAvailable (available : Bool)
  | commit (path : String) (properties : Properties) (bundled : Bundle)
    (modified : Option Modified)
  | remove (path : String) (modified : Option Modified)
  | addPrevious (path : String) (height : Int) (modified : Option Modified) (split : SplitKind)
  | node (path : String) (snapshot : RevisionVector)

inductive Answer where
  | done
  | flag (value : Bool)
  | count (n : Nat)
  | revision (r : Revision)
  | document (found : Option Document)
  | state (found : Option NodeState)
  | cursor (number : Nat)
  deriving Inhabited

/-- A function of the client's: it uses the client's own state and makes requests, each as it likes
after the answers to those before, and ends with a value or a failure. -/
inductive Callback (υ α : Type) where
  | done (result : Except Failure α)
  | consult (next : υ → Callback υ α)
  | record (own : υ) (next : Callback υ α)
  | request (r : Request) (next : Except Failure Answer → Callback υ α)

inductive Operation (υ : Type) where
  | request (r : Request)
  /-- Replaces a document by what the function makes of it. -/
  | update (id : String) (updater : Option Document → Callback υ Document)
  | openCursor (range : TimeRange) (filter : String → Callback υ Bool)
  /-- Reads on from a cursor; cursors are numbered as the client opened them. -/
  | fetch (cursor : Nat)
  | closeCursor (cursor : Nat)

/-- A cursor that a client opened: its number in the workspace, the filter, and what is still to be
streamed. -/
structure Opened (υ : Type) where
  number : Nat
  filter : String → Callback υ Bool
  remaining : List Stored

structure Client (υ : Type) where
  workspace : Workspace υ
  opened : List (Opened υ) := []

section

variable {υ α : Type}

def Request.perform : Request → Action (Workspace υ) Answer
  | write d => (fun _ => .done) <$> Workspace.onStore (DocumentStore.write d)
  | delete id => Answer.flag <$> Workspace.onStore (DocumentStore.delete id)
  | find id => Answer.document <$> Workspace.onStore (DocumentStore.find id)
  | estimatedSize range => do
    let w ← Action.get
    Answer.count <$> Action.ofExcept (w.store.estimatedSize range)
  | setAvailable available => (fun _ => .done) <$> Workspace.changeStore (·.setAvailable available)
  | commit path properties bundled modified =>
    Answer.revision <$> Workspace.commit path properties bundled modified
  | remove path modified => Answer.revision <$> Workspace.remove path modified
  | addPrevious path height modified split =>
    (fun d => .document (some d)) <$>
      Workspace.onRepository (Repository.addPrevious path height modified split)
  | node path snapshot => Answer.state <$> Workspace.node path snapshot

def Callback.perform : Callback υ α → Action (Workspace υ) α
  | done result => Action.ofExcept result
  | consult next => do (next (← Action.get).caller).perform
  | record own next => do
    Action.modify fun w => { w with caller := own }
    next.perform
  | request r next => do (next (← Action.attempt r.perform)).perform

namespace Client

/-- Performs an operation. One on a cursor that was never opened does nothing. -/
def perform (c : Client υ) : Operation υ → Except Failure Answer × Client υ
  | .request r =>
    let (answer, w) := r.perform c.workspace
    (answer, { c with workspace := w })
  | .update id updater =>
    let (answer, w) := Workspace.update id (fun current => (updater current).perform) c.workspace
    (answer.map fun d => .document (some d), { c with workspace := w })
  | .openCursor range filter =>
    match Workspace.openCursor range c.workspace with
    | (.ok (number, remaining), w) =>
      (.ok (.cursor number),
        { workspace := w, opened := c.opened ++ [⟨number, filter, remaining⟩] })
    | (.error e, w) => (.error e, { c with workspace := w })
  | .fetch i =>
    match c.opened[i]? with
    | none => (.ok .done, c)
    | some o =>
      match Workspace.fetch o.number (fun id => (o.filter id).perform) o.remaining c.workspace with
      | (.ok (outcome, remaining), w) =>
        (outcome.map .document,
          { workspace := w, opened := c.opened.set i { o with remaining } })
      | (.error e, w) => (.error e, { c with workspace := w })
  | .closeCursor i =>
    match c.opened[i]? with
    | none => (.ok .done, c)
    | some o =>
      let (answer, w) := Workspace.closeCursor o.number c.workspace
      (answer.map fun _ => .done, { c with workspace := w })

/-- Performs operations one after the other, whether they fail or not. -/
def run (c : Client υ) : List (Operation υ) → List (Except Failure Answer) × Client υ
  | [] => ([], c)
  | operation :: operations =>
    let (answer, c) := c.perform operation
    let (answers, c) := c.run operations
    (answer :: answers, c)

def start (store : DocumentStore) (cluster : Int) (caller : υ) : Client υ where
  workspace := { repository := { store, writer := { cluster } }, caller }

end Client

/-! ## What clients maintain -/

namespace Workspace

variable {P : Workspace υ → Prop}

theorem maintains_callback (hrequest : ∀ r : Request, Action.Maintains P r.perform)
    (hrecord : ∀ w own, P w → P { w with caller := own }) (f : Callback υ α) :
    Action.Maintains P f.perform := by
  induction f with
  | done result => exact Action.maintains_ofExcept result
  | consult next ih => exact Action.Maintains.bind Action.maintains_get fun w => ih w.caller
  | record own next ih =>
    have hown : Action.Maintains P (Action.modify fun w => { w with caller := own }) :=
      Action.maintains_modify fun w hw => hrecord w own hw
    exact hown.bind fun _ => ih
  | request r next ih => exact (hrequest r).attempt.bind ih

variable {filter : String → Action (Workspace υ) Bool}

theorem maintains_offer
    (havailable : Action.Maintains P (onStore DocumentStore.requireAvailable))
    (hremember : ∀ item, Action.Maintains P (changeStore (·.rememberIfCurrent item)))
    (hfilter : ∀ id, Action.Maintains P (filter id)) (item : Stored) :
    Action.Maintains P (offer filter item) := by
  refine havailable.bind fun _ => (hfilter item.id).bind fun accepted => ?_
  split
  · exact (hremember item).bind fun _ => Action.maintains_pure true
  · exact Action.maintains_pure false

theorem maintains_nextAccepted (h : ∀ item, Action.Maintains P (offer filter item))
    (stream : List Stored) : Action.Maintains P (nextAccepted filter stream) := by
  induction stream with
  | nil => exact Action.maintains_pure none
  | cons item rest ih =>
    refine (h item).bind fun accepted => ?_
    split
    · exact Action.maintains_pure _
    · exact ih

theorem maintains_requireOpen (n : Nat) : Action.Maintains P (requireOpen n) :=
  Action.maintains_get.bind fun _ => Action.maintains_ofExcept _

theorem maintains_resumeFetch (n : Nat) : Action.Maintains P (resumeFetch n) :=
  Action.maintains_get.bind fun _ => Action.maintains_ofExcept _

theorem maintains_fetch (h : ∀ item, Action.Maintains P (offer filter item)) (n : Nat)
    (stream : List Stored) : Action.Maintains P (fetch n filter stream) := by
  refine (maintains_requireOpen n).attempt.bind fun opened => ?_
  cases opened with
  | error e => exact Action.maintains_pure _
  | ok =>
    refine (maintains_nextAccepted h stream).attempt.bind fun found => ?_
    split <;> exact Action.maintains_pure _

/-- What the parts of all operations of a client maintain. -/
structure Invariant (P : Workspace υ → Prop) : Prop where
  request : ∀ r : Request, Action.Maintains P r.perform
  replace : ∀ id d, Action.Maintains P (onStore (DocumentStore.update id fun _ => .ok d))
  record : ∀ w own, P w → P { w with caller := own }
  opening : ∀ range, Action.Maintains P (openCursor range)
  available : Action.Maintains P (onStore DocumentStore.requireAvailable)
  remember : ∀ item, Action.Maintains P (changeStore (·.rememberIfCurrent item))
  close : ∀ n, Action.Maintains P (closeCursor n)

end Workspace

theorem Workspace.Invariant.perform {P : Workspace υ → Prop} (h : Invariant P) {c : Client υ}
    (hc : P c.workspace) (operation : Operation υ) : P (c.perform operation).2.workspace := by
  have hcallback {α : Type} (f : Callback υ α) : Action.Maintains P f.perform :=
    maintains_callback h.request h.record f
  cases operation with
  | request r => exact h.request r c.workspace hc
  | update id updater =>
    have hupdate : Action.Maintains P
        (Workspace.update id fun current => (updater current).perform) :=
      Action.maintains_get.bind fun w => (hcallback _).bind fun d => h.replace id d
    exact hupdate c.workspace hc
  | openCursor range filter =>
    have hopened := h.opening range c.workspace hc
    rw [Client.perform]
    rcases hopen : Workspace.openCursor range c.workspace with ⟨e | ⟨number, remaining⟩, w⟩
    · rwa [hopen] at hopened
    · rwa [hopen] at hopened
  | fetch i =>
    rw [Client.perform]
    cases c.opened[i]? with
    | none => exact hc
    | some o =>
      have hfetched := maintains_fetch
        (maintains_offer h.available h.remember fun id => hcallback (o.filter id)) o.number
        o.remaining c.workspace hc
      dsimp only
      rcases hfetch : Workspace.fetch o.number (fun id => (o.filter id).perform) o.remaining
        c.workspace with ⟨e | ⟨outcome, remaining⟩, w⟩
      · rwa [hfetch] at hfetched
      · rwa [hfetch] at hfetched
  | closeCursor i =>
    rw [Client.perform]
    cases c.opened[i]? with
    | none => exact hc
    | some o => exact h.close o.number c.workspace hc

theorem Workspace.Invariant.run {P : Workspace υ → Prop} (h : Invariant P) {c : Client υ}
    (hc : P c.workspace) (operations : List (Operation υ)) :
    P (c.run operations).2.workspace := by
  induction operations generalizing c with
  | nil => exact hc
  | cons operation operations ih => exact ih (h.perform hc operation)

/-! ## Clients do not see the cache -/

namespace Workspace

variable {w : Workspace υ}

theorem blind_request (hs : w.store.Sound) (r : Request) : Blind r.perform w := by
  cases r with
  | write d => exact (blind_onStore (DocumentStore.blind_write _ d)).map _ .refl
  | delete id => exact (blind_onStore (DocumentStore.blind_delete _ id)).map _ .refl
  | find id => exact (blind_onStore (DocumentStore.blind_find hs id)).map _ .refl
  | estimatedSize range =>
    exact Action.blind_get_bind rfl ((Action.blind_ofExcept (.refl w) _).map _ .refl)
  | setAvailable available =>
    have hset : DocumentStore.Blind (Action.modify (·.setAvailable available)) w.store :=
      Action.blind_modify rfl (DocumentStore.grows_of_cache rfl rfl rfl)
    exact (blind_onStore hset).map _ .refl
  | commit path properties bundled modified => exact (blind_commit w _ _ _ _).map _ .refl
  | remove path modified => exact (blind_remove w _ _).map _ .refl
  | addPrevious path height modified split =>
    exact (blind_onRepository (Repository.blind_addPrevious hs _ _ _ _)).map _ .refl
  | node path snapshot =>
    exact (blind_onRepository (Repository.blind_node hs _ _)).map _ .refl

theorem blind_callback (hs : w.store.Sound) (f : Callback υ α) : Blind f.perform w := by
  induction f generalizing w with
  | done result => exact Action.blind_ofExcept (.refl w) result
  | consult next ih => exact Action.blind_get_bind rfl (ih w.caller hs)
  | record own next ih =>
    have hrecord : Blind (Action.modify fun w => { w with caller := own }) w :=
      Action.blind_modify rfl (.refl w)
    exact hrecord.bind fun _ w₁ h₁ => ih (h₁.sound hs)
  | request r next ih =>
    exact (blind_request hs r).attempt.bind fun answer w₁ h₁ => ih answer (h₁.sound hs)

theorem items_of_openCursor (w : Workspace υ) (range : TimeRange) (number : Nat)
    (stream : List Stored) (h : (openCursor range w).1 = .ok (number, stream)) :
    ∀ item ∈ stream, item ∈ w.store.catalog.items := by
  cases ha : w.store.available with
  | false =>
    have hfail : openCursor range w = (.error .storeUnavailable, w) := by
      have ha : w.repository.store.available = false := ha
      simp [openCursor, onStore, onRepository, Repository.onStore, Action.zoom,
        DocumentStore.openScan, DocumentStore.requireAvailable, Action.bind_apply, ha]
    rw [hfail] at h
    cases h
  | true =>
    obtain ⟨result, w', hopen, -, hitems⟩ := openCursor_agrees ha range
    rw [hopen] at h
    exact hitems number stream h

theorem suffix_of_nextAccepted {filter : String → Action (Workspace υ) Bool}
    {stream rest : List Stored} {d : Document} {w' : Workspace υ}
    (h : nextAccepted filter stream w = (.ok (some (d, rest)), w')) : rest <:+ stream := by
  induction stream generalizing w with
  | nil => cases h
  | cons item stream ih =>
    rw [nextAccepted, Action.bind_apply] at h
    rcases hoffer : offer filter item w with ⟨_ | accepted, w₁⟩
    · rw [hoffer] at h
      cases h
    · rw [hoffer] at h
      cases accepted with
      | true =>
        cases h
        exact List.suffix_cons item _
      | false => exact (ih h).trans (List.suffix_cons item stream)

theorem suffix_of_fetch {n : Nat} {filter : String → Action (Workspace υ) Bool}
    {stream rest : List Stored} {outcome : Except Failure (Option Document)} {w' : Workspace υ}
    (h : fetch n filter stream w = (.ok (outcome, rest), w')) : rest <:+ stream := by
  rw [fetch, Action.bind_apply, Action.attempt] at h
  rcases hopen : requireOpen n w with ⟨_ | _, w₁⟩
  · rw [hopen] at h
    cases h
    exact List.suffix_refl _
  · rw [hopen] at h
    simp only [Action.bind_apply, Action.attempt] at h
    rcases hnext : nextAccepted filter stream w₁ with ⟨_ | _ | ⟨d, rest'⟩, w₂⟩
    · rw [hnext] at h
      cases h
      exact List.nil_suffix
    · rw [hnext] at h
      cases h
      exact List.nil_suffix
    · rw [hnext] at h
      cases h
      exact suffix_of_nextAccepted hnext

end Workspace

namespace Client

variable {c : Client υ}

/-- The client of the same store without its cache. -/
def uncached (c : Client υ) : Client υ := { c with workspace := c.workspace.uncached }

/-- What every operation keeps: the cache holds what is stored, and what the cursors have still to
stream is known to have come from the catalog. -/
structure Coherent (c : Client υ) : Prop where
  sound : c.workspace.store.Sound
  issued : ∀ o ∈ c.opened, ∀ item ∈ o.remaining, c.workspace.store.Issued item

theorem Coherent.grows (hc : c.Coherent) {w : Workspace υ} (hw : c.workspace.Grows w) :
    Coherent { c with workspace := w } :=
  ⟨hw.sound hc.sound, fun o ho item hitem => hw.issued item (hc.issued o ho item hitem)⟩

/-- Both clients answer alike and stay alike. -/
theorem perform_uncached (hc : c.Coherent) (operation : Operation υ) :
    c.uncached.perform operation =
        ((c.perform operation).1, (c.perform operation).2.uncached) ∧
      (c.perform operation).2.Coherent := by
  cases operation with
  | request r =>
    obtain ⟨hsame, hkept⟩ := Workspace.blind_request hc.sound r
    exact ⟨by simp only [perform, uncached, hsame], hc.grows hkept⟩
  | update id updater =>
    have hblind : Workspace.Blind
        (Workspace.update id fun current => (updater current).perform) c.workspace :=
      Workspace.blind_update fun current => Workspace.blind_callback hc.sound _
    exact ⟨by simp only [perform, uncached, hblind.same], hc.grows hblind.kept⟩
  | openCursor range filter =>
    obtain ⟨hsame, hkept⟩ := Workspace.blind_openCursor c.workspace range
    have hitems := Workspace.items_of_openCursor c.workspace range
    rcases hopen : Workspace.openCursor range c.workspace with ⟨e | ⟨number, remaining⟩, w⟩
    · rw [hopen] at hsame hkept
      refine ⟨?_, ?_⟩
      · simp only [perform, uncached, hsame, hopen]
      · rw [perform, hopen]
        exact hc.grows hkept
    · rw [hopen] at hsame hkept hitems
      refine ⟨?_, ?_⟩
      · simp only [perform, uncached, hsame, hopen]
      · rw [perform, hopen]
        have hgrows := hc.grows hkept
        refine ⟨hgrows.sound, fun o ho item hitem => ?_⟩
        rcases List.mem_append.1 ho with ho | ho
        · exact hgrows.issued o ho item hitem
        · rw [List.mem_singleton.1 ho] at hitem
          have hissued := DocumentStore.issued_of_mem hc.sound (hitems _ _ rfl item hitem)
          exact hkept.issued item hissued
  | fetch i =>
    cases hi : c.opened[i]? with
    | none =>
      refine ⟨?_, ?_⟩
      · simp only [perform, uncached, hi]
      · rw [perform, hi]
        exact hc
    | some o =>
      obtain ⟨hsame, hkept⟩ := Workspace.blind_fetch o.number
        (hc.issued o (List.mem_of_getElem? hi))
        fun id w' h' => Workspace.blind_callback (h'.sound hc.sound) (o.filter id)
      rcases hfetch : Workspace.fetch o.number (fun id => (o.filter id).perform) o.remaining
        c.workspace with ⟨e | ⟨outcome, remaining⟩, w⟩
      · rw [hfetch] at hsame hkept
        refine ⟨?_, ?_⟩
        · simp only [perform, uncached, hi, hsame, hfetch]
        · simp only [perform, hi, hfetch]
          exact hc.grows hkept
      · rw [hfetch] at hsame hkept
        refine ⟨?_, ?_⟩
        · simp only [perform, uncached, hi, hsame, hfetch]
        · simp only [perform, hi, hfetch]
          have hgrows := hc.grows hkept
          refine ⟨hgrows.sound, fun o' ho' item hitem => ?_⟩
          rcases List.mem_or_eq_of_mem_set ho' with ho' | rfl
          · exact hgrows.issued o' ho' item hitem
          · have hrest : remaining <:+ o.remaining := Workspace.suffix_of_fetch hfetch
            exact hgrows.issued o (List.mem_of_getElem? hi) item (hrest.subset hitem)
  | closeCursor i =>
    cases hi : c.opened[i]? with
    | none =>
      refine ⟨?_, ?_⟩
      · simp only [perform, uncached, hi]
      · rw [perform, hi]
        exact hc
    | some o =>
      obtain ⟨hsame, hkept⟩ := Workspace.blind_closeCursor c.workspace o.number
      refine ⟨?_, ?_⟩
      · simp only [perform, uncached, hi, hsame]
      · simp only [perform, hi]
        exact hc.grows hkept

theorem run_uncached (hc : c.Coherent) (operations : List (Operation υ)) :
    c.uncached.run operations = ((c.run operations).1, (c.run operations).2.uncached) ∧
      (c.run operations).2.Coherent := by
  induction operations generalizing c with
  | nil => exact ⟨rfl, hc⟩
  | cons operation operations ih =>
    obtain ⟨hsame, hnext⟩ := perform_uncached hc operation
    obtain ⟨hrun, hlast⟩ := ih hnext
    exact ⟨by simp only [run, hsame, hrun], hlast⟩

theorem coherent_start {settings : CacheSettings} {store : DocumentStore}
    (hstore : DocumentStore.create settings = .ok store) (cluster : Int) (caller : υ) :
    (start store cluster caller).Coherent :=
  ⟨DocumentStore.sound_create hstore, fun o ho => by cases ho⟩

/-- Whatever sound settings its cache has, a store gives every client the answers and failures, one
after the other, that it gives with the cache disabled, and ends with the same documents, counts
and cursors. All the while each cached document is the one that is stored. -/
theorem run_same_with_disabled_cache {settings : CacheSettings} {store : DocumentStore}
    (hstore : DocumentStore.create settings = .ok store) (cluster : Int) (caller : υ)
    (operations : List (Operation υ)) :
    ∃ plain, DocumentStore.create { settings with enabled := false } = .ok plain ∧
      (start plain cluster caller).run operations =
        (((start store cluster caller).run operations).1,
          ((start store cluster caller).run operations).2.uncached) ∧
      ∀ cache, ((start store cluster caller).run operations).2.workspace.store.cache = some cache →
        ∀ e ∈ cache.held.entries,
          ((start store cluster caller).run operations).2.workspace.store.stored? e.1 =
            some e.2 := by
  refine ⟨store.uncached, DocumentStore.create_disabled hstore, ?_⟩
  obtain ⟨hrun, hlast⟩ := run_uncached (coherent_start hstore cluster caller) operations
  exact ⟨hrun, hlast.sound.cached⟩

theorem run_same_with_cache_of_one :
    let settings : CacheSettings := { maxEntries := some 1 }
    let store : DocumentStore := { cache := some { limit := some 1 } }
    let rewritten (current : Option Document) : Callback Nat Document :=
      .consult fun n => .record (n + 1) <| .request (.find "1:/b") fun _ =>
        .done (.ok { current.getD (.forPath "/a") with modified := some (.time n) })
    let operations : List (Operation Nat) :=
      [.request (.commit "/a" [("x", .number 1)] .empty none),
        .request (.commit "/b" [] .empty none),
        .openCursor .all fun id =>
          .done (if id = "1:/b" then .error (.raised .runtime "no") else .ok true),
        .update "1:/a" rewritten, .fetch 0, .request (.find "1:/a"), .fetch 0, .closeCursor 0,
        .request (.delete "1:/b"), .request (.node "/a" (.ofList [⟨1, 0, 1⟩]))]
    ∃ plain, DocumentStore.create { settings with enabled := false } = .ok plain ∧
      (start plain 1 0).run operations =
        (((start store 1 0).run operations).1, ((start store 1 0).run operations).2.uncached) ∧
      ∀ cache, ((start store 1 0).run operations).2.workspace.store.cache = some cache →
        ∀ e ∈ cache.held.entries,
          ((start store 1 0).run operations).2.workspace.store.stored? e.1 = some e.2 := by
  intro settings store rewritten operations
  have hstore : DocumentStore.create settings = .ok store := rfl
  exact run_same_with_disabled_cache hstore 1 0 operations

end Client

end

end VersionedTree
