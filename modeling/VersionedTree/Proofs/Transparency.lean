import VersionedTree.Proofs.Fleets

/-! # Working without the cache

Every operation of the stores, and every step of a cursor, works in a sound store as it does in the
same store without its cache: `uncached` takes the cache away, and the operations are blind to it.
They keep the store sound, and they keep what is known of the documents that a cursor has still to
stream; both are needed where a document is read from the cache or put into it.
-/

namespace VersionedTree

namespace DocumentStore

variable {s s' : DocumentStore} {item : Stored}

/-- The store with its cache disabled. -/
def uncached (s : DocumentStore) : DocumentStore := { s with cache := none }

theorem create_disabled {settings : CacheSettings} (h : create settings = .ok s) :
    create { settings with enabled := false } = .ok s.uncached := by
  have hproblems : { settings with enabled := false }.problems = settings.problems := rfl
  cases hp : settings.problems with
  | error e =>
    rw [create, hp] at h
    cases h
  | ok problems =>
    rw [create, hp] at h
    rw [create, hproblems, hp]
    simp only [bind, Except.bind] at h ⊢
    by_cases hempty : problems.isEmpty = true
    · rw [if_pos hempty] at h ⊢
      cases h
      rfl
    · rw [if_neg hempty] at h
      cases h

/-- What every operation keeps: a sound store stays sound, and what came from the catalog at some
time is still known to have come from it. -/
structure Grows (s s' : DocumentStore) : Prop where
  sound : s.Sound → s'.Sound
  issued : ∀ item, s.Issued item → s'.Issued item

theorem Grows.refl (s : DocumentStore) : s.Grows s := ⟨id, fun _ => id⟩

theorem Grows.trans {s'' : DocumentStore} (h : s.Grows s') (h' : s'.Grows s'') : s.Grows s'' :=
  ⟨h'.sound ∘ h.sound, fun item => h'.issued item ∘ h.issued item⟩

instance : Trans Grows Grows Grows := ⟨Grows.trans⟩

theorem Agrees.grows (h : s.Agrees s') : s.Grows s' := ⟨h.sound, fun _ => h.issued⟩

theorem grows_written (s : DocumentStore) (d : Document) : s.Grows (s.written d) :=
  ⟨fun hs => sound_written hs d, fun _ hi => issued_written hi d⟩

/-- The store after the document of an id was deleted. -/
def erased (s : DocumentStore) (id : String) : DocumentStore :=
  { s.forget id with catalog := s.catalog.erase id }

theorem mem_erased {id : String} {x : Stored} :
    x ∈ (s.erased id).catalog.items ↔ x ∈ s.catalog.items ∧ x.id ≠ id := by
  simp [erased, Catalog.erase]

theorem stored?_erased_of_ne {id other : String} (h : other ≠ id) :
    (s.erased id).stored? other = s.stored? other := by
  apply Option.ext
  intro d
  rw [stored?_eq_some_iff, stored?_eq_some_iff]
  constructor
  · rintro ⟨x, hx, hid, hd⟩
    exact ⟨x, (mem_erased.1 hx).1, hid, hd⟩
  · rintro ⟨x, hx, hid, hd⟩
    exact ⟨x, mem_erased.2 ⟨hx, hid.symm ▸ h⟩, hid, hd⟩

theorem grows_erased (s : DocumentStore) (id : String) : s.Grows (s.erased id) where
  sound hs := by
    refine ⟨fun x hx => hs.stamped x (mem_erased.1 hx).1, fun cache' h' e he => ?_⟩
    obtain ⟨cache, hc, rfl⟩ := Option.map_eq_some_iff.1 h'
    obtain ⟨he, hne⟩ := DocumentCache.mem_of_mem_invalidate he
    rw [stored?_erased_of_ne hne]
    exact hs.cached cache hc e he
  issued item hi := ⟨hi.1, fun other hother => hi.2 other (mem_erased.1 hother).1⟩

/-- The action works as it would without the cache. -/
abbrev Blind {α : Type} (x : Action DocumentStore α) (s : DocumentStore) : Prop :=
  Action.Blind uncached Grows x s

theorem uncached_rememberIfCurrent (s : DocumentStore) (item : Stored) :
    (s.rememberIfCurrent item).uncached = s.uncached := by
  rw [rememberIfCurrent]
  split
  · split
    · rfl
    · rfl
  · rfl

theorem rememberIfCurrent_uncached (s : DocumentStore) (item : Stored) :
    s.uncached.rememberIfCurrent item = s.uncached := by
  rw [rememberIfCurrent]
  split
  · split
    · rfl
    · rfl
  · rfl

theorem blind_requireAvailable (s : DocumentStore) : Blind requireAvailable s :=
  ⟨rfl, .refl s⟩

theorem find_uncached (ha : s.available = true) (id : String) :
    find id s.uncached = (.ok (s.stored? id), s.uncached) := by
  have ha' : s.uncached.available = true := ha
  rw [find, Action.bind_apply, requireAvailable_eq ha']
  have hlook : lookUp id s.uncached = (.ok none, s.uncached) := rfl
  simp only [Action.bind_apply, hlook, Action.get_apply]
  have hstored : s.uncached.stored? id = s.stored? id := rfl
  rw [hstored]
  cases s.stored? id with
  | none => rfl
  | some d => rfl

theorem uncached_find (s : DocumentStore) (id : String) :
    (find id s).2.uncached = s.uncached := by
  have hlook : ∃ found s₁, lookUp id s = (.ok found, s₁) ∧ s₁.uncached = s.uncached := by
    rw [lookUp]
    cases s.cache with
    | none => exact ⟨_, _, rfl, rfl⟩
    | some cache => exact ⟨_, _, rfl, rfl⟩
  obtain ⟨found, s₁, hlook, h₁⟩ := hlook
  cases ha : s.available with
  | false => simp [find, requireAvailable, Action.bind_apply, ha]
  | true =>
    rw [find, Action.bind_apply, requireAvailable_eq ha]
    simp only [Action.bind_apply, hlook]
    cases found with
    | some d => exact h₁
    | none =>
      simp only [Action.bind_apply, Action.get_apply]
      cases s₁.stored? id with
      | none => exact h₁
      | some d => exact h₁

theorem blind_find (hs : s.Sound) (id : String) : Blind (find id) s := by
  cases ha : s.available with
  | false =>
    have hfail (t : DocumentStore) (ht : t.available = false) :
        find id t = (.error .storeUnavailable, t) := by
      simp [find, requireAvailable, Action.bind_apply, ht]
    refine ⟨?_, ?_⟩
    · rw [hfail s ha, hfail s.uncached ha]
    · rw [hfail s ha]
      exact .refl s
  | true =>
    have hblur := uncached_find s id
    obtain ⟨s', hfind, hs'⟩ := ends_find hs ha id
    rw [hfind] at hblur
    refine ⟨?_, ?_⟩
    · rw [find_uncached ha, hfind, hblur]
    · rw [hfind]
      exact hs'.grows

theorem blind_write (s : DocumentStore) (d : Document) : Blind (write d) s :=
  (blind_requireAvailable s).bind fun _ s' _ => Action.blind_modify rfl (grows_written s' d)

theorem blind_delete (s : DocumentStore) (id : String) : Blind (delete id) s := by
  refine (blind_requireAvailable s).bind fun _ s₁ _ => Action.blind_get_bind rfl ?_
  have herase : Blind (Action.modify fun s => s.erased id) s₁ :=
    Action.blind_modify rfl (grows_erased s₁ id)
  exact herase.bind fun _ s₂ _ => Action.blind_pure (.refl s₂) _

theorem blind_update (s : DocumentStore) (id : String)
    (updater : Option Document → Except Failure Document) : Blind (update id updater) s := by
  refine Action.blind_get_bind rfl ?_
  refine (Action.blind_ofExcept (.refl s) _).bind fun d s₁ _ => ?_
  exact (blind_write s₁ d).bind fun _ s₂ _ => Action.blind_pure (.refl s₂) _

theorem grows_of_cache {t : DocumentStore} (hcatalog : t.catalog = s.catalog)
    (hnext : t.nextStamp = s.nextStamp) (hcache : t.cache = s.cache) : s.Grows t := by
  refine ⟨fun hs => ⟨?_, fun cache hc e he => ?_⟩, fun item hi => ?_⟩
  · rw [hcatalog, hnext]
    exact hs.stamped
  · rw [stored?_congr hcatalog]
    exact hs.cached cache (hcache ▸ hc) e he
  · rw [Issued, hcatalog, hnext]
    exact hi

theorem blind_openScan (s : DocumentStore) (range : TimeRange) : Blind (openScan range) s := by
  refine (blind_requireAvailable s).bind fun _ s₁ _ => Action.blind_get_bind rfl ?_
  refine (Action.blind_ofExcept (.refl s₁) _).bind fun _ s₂ _ => ?_
  have hcount : Blind (Action.modify fun s =>
      { s with openCursors := s.openCursors + 1, queries := s.queries + 1 }) s₂ :=
    Action.blind_modify rfl (grows_of_cache rfl rfl rfl)
  exact hcount.bind fun _ s₃ _ => Action.blind_pure (.refl s₃) _

end DocumentStore

namespace Repository

variable {r : Repository} {α : Type}

def uncached (r : Repository) : Repository := { r with store := r.store.uncached }

/-- What every operation keeps of the store. -/
def Grows (r r' : Repository) : Prop := r.store.Grows r'.store

theorem Grows.refl (r : Repository) : r.Grows r := DocumentStore.Grows.refl r.store

instance : Trans Grows Grows Grows := ⟨fun h h' => DocumentStore.Grows.trans h h'⟩

abbrev Blind (x : Action Repository α) (r : Repository) : Prop := Action.Blind uncached Grows x r

theorem blind_onStore {x : Action DocumentStore α} (h : DocumentStore.Blind x r.store) :
    Blind (onStore x) r :=
  h.zoom rfl (fun _ => rfl) fun _ hs => hs

theorem blind_modifyWriter (r : Repository) (f : Writer → Writer) :
    Blind (Action.modify fun r => { r with writer := f r.writer }) r :=
  Action.blind_modify rfl (.refl r)

theorem blind_nextRevision (r : Repository) : Blind nextRevision r := by
  refine (blind_modifyWriter r fun w => { w with clock := w.clock + 1 }).bind fun _ r₁ _ => ?_
  exact Action.blind_get_bind rfl (Action.blind_ofExcept (.refl r₁) _)

theorem blind_writeVersion (r : Repository) (path : String) (properties : Option Properties)
    (bundled : Bundle) (modified : Option Modified) :
    Blind (writeVersion path properties bundled modified) r := by
  refine (blind_nextRevision r).bind fun revision r₁ _ => ?_
  refine (blind_onStore (DocumentStore.blind_update r₁.store _ _)).bind fun _ r₂ _ => ?_
  refine (blind_modifyWriter r₂ fun w => { w with head := w.head.update revision }).bind
    fun _ r₃ _ => ?_
  exact Action.blind_pure (.refl r₃) _

theorem blind_addPrevious (hs : r.store.Sound) (path : String) (height : Int)
    (modified : Option Modified) (split : SplitKind) :
    Blind (addPrevious path height modified split) r := by
  refine (blind_onStore (DocumentStore.blind_find hs _)).bind fun main r₁ _ => ?_
  refine Action.blind_get_bind rfl ?_
  have hput (d : Document) (r : Repository) :
      Blind (onStore (DocumentStore.write d) >>= fun _ => pure d) r :=
    (blind_onStore (DocumentStore.blind_write r.store d)).bind fun _ r' _ =>
      Action.blind_pure (.refl r') d
  -- Of which revision the document is put down: the writer's own, or one that may be refused.
  dsimp only
  split
  · exact (Action.blind_pure (.refl r₁) _).bind fun _ r₂ _ => hput _ r₂
  · exact (Action.blind_ofExcept (.refl r₁) _).bind fun _ r₂ _ => hput _ r₂

theorem blind_node (hs : r.store.Sound) (path : String) (v : RevisionVector) :
    Blind (node path v) r := by
  refine (blind_onStore (DocumentStore.blind_find hs _)).bind fun found r₁ _ => ?_
  have hrefl : r₁.Grows r₁ := DocumentStore.Grows.refl r₁.store
  cases found with
  | none => exact Action.blind_pure hrefl _
  | some d =>
    dsimp only
    by_cases hpath : d.path = path
    · rw [if_neg (not_not_intro hpath)]
      cases d.resolve v with
      | none => exact Action.blind_pure hrefl _
      | some c => exact Action.blind_pure hrefl _
    · rw [if_pos hpath]
      exact Action.blind_fail hrefl _

end Repository

namespace Workspace

variable {υ α : Type} {w : Workspace υ}

/-- The workspace with the cache of its store disabled. -/
def uncached (w : Workspace υ) : Workspace υ := { w with repository := w.repository.uncached }

def Grows (w w' : Workspace υ) : Prop := w.store.Grows w'.store

theorem Grows.refl (w : Workspace υ) : w.Grows w := DocumentStore.Grows.refl w.store

theorem Grows.trans {w' w'' : Workspace υ} (h : w.Grows w') (h' : w'.Grows w'') : w.Grows w'' :=
  DocumentStore.Grows.trans h h'

instance : Trans (@Grows υ) (@Grows υ) (@Grows υ) := ⟨Grows.trans⟩

abbrev Blind (x : Action (Workspace υ) α) (w : Workspace υ) : Prop :=
  Action.Blind uncached Grows x w

theorem blind_onRepository {x : Action Repository α} (h : Repository.Blind x w.repository) :
    Blind (onRepository x) w :=
  h.zoom rfl (fun _ => rfl) fun _ hr => hr

theorem blind_onStore {x : Action DocumentStore α} (h : DocumentStore.Blind x w.store) :
    Blind (onStore x) w := blind_onRepository (Repository.blind_onStore h)

theorem blind_note (w : Workspace υ) (e : Event) : Blind (note e) w :=
  Action.blind_modify rfl (Grows.refl w)

theorem blind_commit (w : Workspace υ) (path : String) (properties : Properties)
    (bundled : Bundle) (modified : Option Modified) :
    Blind (commit path properties bundled modified) w := by
  refine (blind_onRepository (Repository.blind_writeVersion _ _ _ _ _)).bind fun _ w₁ _ => ?_
  exact (blind_note w₁ _).bind fun _ w₂ _ => Action.blind_pure (.refl w₂) _

theorem blind_remove (w : Workspace υ) (path : String) (modified : Option Modified) :
    Blind (remove path modified) w := by
  refine (blind_onRepository (Repository.blind_writeVersion _ _ _ _ _)).bind fun _ w₁ _ => ?_
  exact (blind_note w₁ _).bind fun _ w₂ _ => Action.blind_pure (.refl w₂) _

theorem blind_update {id : String} {updater : Option Document → Action (Workspace υ) Document}
    (h : ∀ current, Blind (updater current) w) : Blind (update id updater) w := by
  refine Action.blind_get_bind rfl ?_
  refine (h _).bind fun d w₁ _ => ?_
  exact blind_onStore (DocumentStore.blind_update _ _ _)

theorem blind_openCursor (w : Workspace υ) (range : TimeRange) : Blind (openCursor range) w := by
  refine (blind_onStore (DocumentStore.blind_openScan _ range)).bind fun stream w₁ _ => ?_
  refine (blind_note w₁ _).bind fun _ w₂ _ => Action.blind_get_bind rfl ?_
  have hopen (c : Cursor) :
      Blind (Action.modify fun w => { w with cursors := w.cursors ++ [c] }) w₂ :=
    Action.blind_modify rfl (.refl w₂)
  exact (hopen _).bind fun _ w₃ _ => Action.blind_pure (.refl w₃) _

theorem blind_offer {filter : String → Action (Workspace υ) Bool} {item : Stored}
    (hi : w.store.Issued item) (hfilter : ∀ w', w.Grows w' → Blind (filter item.id) w') :
    Blind (offer filter item) w := by
  refine (blind_onStore (DocumentStore.blind_requireAvailable _)).bind fun _ w₁ h₁ => ?_
  refine (hfilter w₁ h₁).bind fun accepted w₂ h₂ => ?_
  cases accepted with
  | false => exact Action.blind_pure (.refl w₂) _
  | true =>
    have hissued : w₂.store.Issued item := h₂.issued item (h₁.issued item hi)
    have hremember : Blind (changeStore (·.rememberIfCurrent item)) w₂ := by
      refine blind_onStore (Action.blind_modify ?_ ?_)
      · rw [DocumentStore.rememberIfCurrent_uncached, DocumentStore.uncached_rememberIfCurrent]
      · exact (DocumentStore.agrees_rememberIfCurrent hissued).grows
    exact hremember.bind fun _ w₃ _ => Action.blind_pure (.refl w₃) _

theorem blind_nextAccepted {filter : String → Action (Workspace υ) Bool} {stream : List Stored}
    (hstream : ∀ item ∈ stream, w.store.Issued item)
    (hfilter : ∀ id w', w.Grows w' → Blind (filter id) w') :
    Blind (nextAccepted filter stream) w := by
  induction stream generalizing w with
  | nil => exact Action.blind_pure (.refl w) _
  | cons item stream ih =>
    have hoffer : Blind (offer filter item) w :=
      blind_offer (hstream item List.mem_cons_self) (hfilter item.id)
    refine hoffer.bind fun accepted w₁ h₁ => ?_
    cases accepted with
    | true => exact Action.blind_pure (.refl w₁) _
    | false =>
      refine ih (fun x hx => h₁.issued x (hstream x (List.mem_cons_of_mem item hx))) ?_
      exact fun id w' h' => hfilter id w' (h₁.trans h')

theorem blind_requireOpen (w : Workspace υ) (n : Nat) : Blind (requireOpen n) w :=
  Action.blind_get_bind rfl (Action.blind_ofExcept (.refl w) _)

theorem blind_fetch {filter : String → Action (Workspace υ) Bool} {stream : List Stored} (n : Nat)
    (hstream : ∀ item ∈ stream, w.store.Issued item)
    (hfilter : ∀ id w', w.Grows w' → Blind (filter id) w') : Blind (fetch n filter stream) w := by
  refine (blind_requireOpen w n).attempt.bind fun outcome w₁ h₁ => ?_
  cases outcome with
  | error e => exact Action.blind_pure (.refl w₁) _
  | ok _ =>
    have hnext : Blind (nextAccepted filter stream) w₁ :=
      blind_nextAccepted (fun x hx => h₁.issued x (hstream x hx))
        fun id w' h' => hfilter id w' (h₁.trans h')
    refine hnext.attempt.bind fun found w₂ _ => ?_
    split
    · exact Action.blind_pure (.refl w₂) _
    · exact Action.blind_pure (.refl w₂) _
    · exact Action.blind_pure (.refl w₂) _

theorem uncached_released (r : Release) (w : Workspace υ) :
    released r w.uncached = (released r w).uncached := by
  rw [released, released]
  split
  · rfl
  · rfl
  · rfl

theorem blind_closeCursor (w : Workspace υ) (n : Nat) : Blind (closeCursor n) w := by
  have hreleases (releases : List Release) (w : Workspace υ) :
      releases.foldl (fun w r => released r w) w.uncached =
          (releases.foldl (fun w r => released r w) w).uncached ∧
        w.Grows (releases.foldl (fun w r => released r w) w) := by
    induction releases generalizing w with
    | nil => exact ⟨rfl, .refl w⟩
    | cons r releases ih =>
      obtain ⟨hsame, hgrows⟩ := ih (released r w)
      refine ⟨?_, Grows.trans (released_agrees r w).grows hgrows⟩
      rw [List.foldl_cons, uncached_released, hsame]
      rfl
  refine Action.blind_get_bind rfl ?_
  have hclosed (c : Cursor) : Blind (Action.modify (modifyCursor n fun _ => c)) w :=
    Action.blind_modify rfl (.refl w)
  refine (hclosed _).bind fun _ w₁ _ => ?_
  obtain ⟨hsame, hgrows⟩ := hreleases (w.cursor n).close.1 w₁
  have hreleased : Blind (Action.modify fun w' =>
      (w.cursor n).close.1.foldl (fun w r => released r w) w') w₁ :=
    Action.blind_modify hsame hgrows
  exact hreleased.bind fun _ w₂ _ => Action.blind_ofExcept (.refl w₂) _

end Workspace
end VersionedTree
