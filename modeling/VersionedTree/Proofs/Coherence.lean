import VersionedTree.Proofs.Actions
import VersionedTree.Proofs.Catalogs

/-! # The cache holds what is stored

A store is sound when every document in its cache is the one stored under its id, and every stamp
in the catalog was given out. Reading, scanning and writing keep this; a scan may also try to cache
a document that it has held since some time, if that document once came from the catalog. In a
sound store a look-up answers with the stored document, whatever is cached.
-/

namespace VersionedTree

namespace OrderedMap

variable {β : Type} {m : OrderedMap β} {key k : String} {value v : β} {e : String × β}

theorem mem_of_get?_eq_some (h : m.get? key = some v) : (key, v) ∈ m.entries := by
  obtain ⟨l₁, l₂, hentries, _⟩ := List.lookup_eq_some_iff.1 h
  rw [hentries]
  simp

theorem get?_of_mem (h : (key, v) ∈ m.entries) : m.get? key = some v := by
  obtain ⟨entries, hnodup⟩ := m
  obtain ⟨l₁, l₂, rfl⟩ := List.append_of_mem h
  rw [List.map_append, List.map_cons] at hnodup
  refine List.lookup_eq_some_iff.2 ⟨l₁, l₂, rfl, fun e he => ?_⟩
  rw [bne_iff_ne]
  rintro rfl
  exact List.disjoint_of_nodup_append hnodup (List.mem_map_of_mem he) List.mem_cons_self

theorem mem_of_mem_putEntry {l : List (String × β)} (h : e ∈ putEntry key value l) :
    e = (key, value) ∨ e ∈ l := by
  induction l with
  | nil => exact .inl (List.mem_singleton.1 h)
  | cons a l ih =>
    rw [putEntry] at h
    split at h <;> rcases List.mem_cons.1 h with rfl | h
    · exact .inl rfl
    · exact .inr (List.mem_cons_of_mem _ h)
    · exact .inr List.mem_cons_self
    · exact (ih h).imp_right (List.mem_cons_of_mem _)

theorem mem_of_mem_put (h : e ∈ (m.put key value).entries) :
    e = (key, value) ∨ e ∈ m.entries := mem_of_mem_putEntry h

theorem mem_erase : e ∈ (m.erase key).entries ↔ e ∈ m.entries ∧ e.1 ≠ key := by
  simp [erase, filter, List.mem_filter]

theorem mem_of_mem_renew (h : e ∈ (m.renew key value).entries) :
    e = (key, value) ∨ e ∈ m.entries := by
  rcases mem_of_mem_put h with rfl | h
  · exact .inl rfl
  · exact .inr (mem_erase.1 h).1

theorem mem_of_mem_dropOldest {n : Nat} (h : e ∈ (m.dropOldest n).entries) : e ∈ m.entries :=
  List.mem_of_mem_drop h

end OrderedMap

namespace DocumentCache

variable {c : DocumentCache} {d : Document} {id : String} {e : String × Document}

theorem get_eq_some (h : (c.get id).1 = some d) : (id, d) ∈ c.held.entries := by
  rw [get] at h
  split at h
  · cases h
  · rename_i d' hd'
    cases h
    exact OrderedMap.mem_of_get?_eq_some hd'

theorem mem_of_mem_get (h : e ∈ (c.get id).2.held.entries) : e ∈ c.held.entries := by
  rw [get] at h
  split at h
  · exact h
  · rename_i d hd
    simp only at h
    split at h
    · rcases OrderedMap.mem_of_mem_renew h with rfl | h
      · exact OrderedMap.mem_of_get?_eq_some hd
      · exact h
    · exact h

theorem mem_of_mem_put (h : e ∈ (c.put d).held.entries) : e = (d.id, d) ∨ e ∈ c.held.entries := by
  rw [put, evict] at h
  have h := OrderedMap.mem_of_mem_dropOldest h
  simp only at h
  split at h
  · exact OrderedMap.mem_of_mem_renew h
  · exact OrderedMap.mem_of_mem_put h

theorem mem_of_mem_invalidate (h : e ∈ (c.invalidate id).2.held.entries) :
    e ∈ c.held.entries ∧ e.1 ≠ id := OrderedMap.mem_erase.1 h

end DocumentCache

namespace DocumentStore

variable {s s' : DocumentStore} {d : Document} {item : Stored}

structure Sound (s : DocumentStore) : Prop where
  stamped : ∀ item ∈ s.catalog.items, item.stamp < s.nextStamp
  cached : ∀ cache, s.cache = some cache →
    ∀ e ∈ cache.held.entries, s.stored? e.1 = some e.2

/-- The item came from the catalog at some time. -/
def Issued (s : DocumentStore) (item : Stored) : Prop :=
  item.stamp < s.nextStamp ∧
    ∀ other ∈ s.catalog.items, other.id = item.id → other.stamp = item.stamp → other = item

/-- The stores hold the same documents; only what is cached and counted may differ. -/
structure Agrees (s s' : DocumentStore) : Prop where
  catalog : s'.catalog = s.catalog
  nextStamp : s'.nextStamp = s.nextStamp
  available : s'.available = s.available
  sound : s.Sound → s'.Sound

theorem Agrees.refl (s : DocumentStore) : s.Agrees s := ⟨rfl, rfl, rfl, id⟩

theorem Agrees.trans {t : DocumentStore} (h : s.Agrees s') (h' : s'.Agrees t) : s.Agrees t :=
  ⟨h'.catalog.trans h.catalog, h'.nextStamp.trans h.nextStamp, h'.available.trans h.available,
    h'.sound ∘ h.sound⟩

instance : Trans Agrees Agrees Agrees := ⟨Agrees.trans⟩

theorem Agrees.stored? (h : s.Agrees s') (id : String) : s'.stored? id = s.stored? id :=
  stored?_congr h.catalog id

theorem Agrees.issued (h : s.Agrees s') (hi : s.Issued item) : s'.Issued item := by
  rw [Issued, h.catalog, h.nextStamp]
  exact hi

theorem issued_of_mem (hs : s.Sound) (h : item ∈ s.catalog.items) : s.Issued item :=
  ⟨hs.stamped item h, fun _ hother hid _ => Catalog.eq_of_id_eq hother h hid⟩

/-- A change of the cache alone agrees if nothing comes in that is not stored. -/
theorem agrees_of_cache (hcatalog : s'.catalog = s.catalog) (hnext : s'.nextStamp = s.nextStamp)
    (havailable : s'.available = s.available)
    (hcache : ∀ cache', s'.cache = some cache' → ∃ cache, s.cache = some cache ∧
      ∀ e ∈ cache'.held.entries, e ∈ cache.held.entries ∨ s.stored? e.1 = some e.2) :
    s.Agrees s' := by
  refine ⟨hcatalog, hnext, havailable, fun hs => ⟨?_, fun cache' h' e he => ?_⟩⟩
  · rw [hcatalog, hnext]
    exact hs.stamped
  · obtain ⟨cache, h, hmem⟩ := hcache cache' h'
    rw [stored?_congr hcatalog]
    exact (hmem e he).elim (hs.cached cache h e) id

theorem agrees_remember (h : s.stored? d.id = some d) : s.Agrees (s.remember d) := by
  refine agrees_of_cache rfl rfl rfl fun cache' h' => ?_
  obtain ⟨cache, hc, rfl⟩ := Option.map_eq_some_iff.1 h'
  refine ⟨cache, hc, fun e he => ?_⟩
  rcases DocumentCache.mem_of_mem_put he with rfl | he
  · exact .inr h
  · exact .inl he

theorem agrees_rememberIfCurrent (h : s.Issued item) : s.Agrees (s.rememberIfCurrent item) := by
  rw [rememberIfCurrent]
  split
  · rename_i current hfind
    obtain ⟨hmem, hid⟩ := Catalog.find?_eq_some_iff.1 hfind
    split
    · rename_i hstamp
      have same : current = item := h.2 current hmem hid hstamp
      subst same
      exact agrees_remember (stored?_of_mem hmem)
    · exact .refl s
  · exact .refl s

theorem requireAvailable_eq (ha : s.available = true) : requireAvailable s = (.ok (), s) := by
  simp [requireAvailable, ha]

theorem ends_requireAvailable (ha : s.available = true) :
    Action.Ends Agrees requireAvailable s (.ok ()) := ⟨s, requireAvailable_eq ha, .refl s⟩

theorem ends_lookUp (id : String) :
    ∃ found, Action.Ends Agrees (lookUp id) s (.ok found) ∧
      (s.Sound → ∀ d, found = some d → s.stored? id = some d) := by
  cases hc : s.cache with
  | none =>
    refine ⟨none, ⟨s, ?_, .refl s⟩, fun _ _ h => by cases h⟩
    rw [lookUp, hc]
  | some cache =>
    refine ⟨(cache.get id).1, ⟨{ s with cache := some (cache.get id).2 }, ?_, ?_⟩, ?_⟩
    · rw [lookUp, hc]
    · refine agrees_of_cache rfl rfl rfl fun cache' h' => ⟨cache, hc, fun e he => ?_⟩
      cases h'
      exact .inl (DocumentCache.mem_of_mem_get he)
    · intro hs d hd
      exact hs.cached cache hc _ (DocumentCache.get_eq_some hd)

theorem ends_find (hs : s.Sound) (ha : s.available = true) (id : String) :
    Action.Ends Agrees (find id) s (.ok (s.stored? id)) := by
  refine (ends_requireAvailable ha).bind_ok fun s₁ h₁ => ?_
  obtain ⟨found, hlook, hfound⟩ := ends_lookUp (s := s₁) id
  refine hlook.bind_ok fun s₂ h₂ => ?_
  cases found with
  | some d =>
    rw [← h₁.stored?, hfound (h₁.sound hs) d rfl]
    exact Action.ends_pure (.refl _) _
  | none =>
    rw [← h₁.stored?, ← h₂.stored?]
    refine Action.ends_get_bind ?_
    cases hd : s₂.stored? id with
    | none => exact Action.ends_pure (.refl _) _
    | some d =>
      have hself : s₂.stored? d.id = some d := by rwa [id_of_stored? hd]
      exact (Action.ends_modify (agrees_remember hself)).bind_ok fun s₃ _ =>
        Action.ends_pure (.refl s₃) _

/-! ## Writing -/

/-- The store after a document was written. -/
def written (s : DocumentStore) (d : Document) : DocumentStore :=
  { s.forget d.id with catalog := s.catalog.put ⟨s.nextStamp, d⟩, nextStamp := s.nextStamp + 1 }

theorem write_eq (ha : s.available = true) (d : Document) : write d s = (.ok (), s.written d) := by
  rw [write, Action.bind_apply, requireAvailable_eq ha]
  rfl

theorem write_of_unavailable (ha : s.available = false) (d : Document) :
    write d s = (.error .storeUnavailable, s) := by
  simp [write, requireAvailable, Action.bind_apply, ha]

theorem update_eq {id : String} {updater : Option Document → Except Failure Document}
    (hd : updater (s.stored? id) = .ok d) (ha : s.available = true) :
    update id updater s = (.ok d, s.written d) := by
  simp only [update, Action.bind_apply, Action.get_apply, hd, Action.ofExcept, Action.pure_apply,
    write_eq ha]

theorem update_of_unavailable {id : String}
    {updater : Option Document → Except Failure Document}
    (hd : updater (s.stored? id) = .ok d) (ha : s.available = false) :
    update id updater s = (.error .storeUnavailable, s) := by
  simp only [update, Action.bind_apply, Action.get_apply, hd, Action.ofExcept, Action.pure_apply,
    write_of_unavailable ha]

theorem mem_written {x : Stored} : x ∈ (s.written d).catalog.items ↔
    x = ⟨s.nextStamp, d⟩ ∨ x ∈ s.catalog.items ∧ x.id ≠ d.id := Catalog.mem_put

theorem stored?_written_self (s : DocumentStore) (d : Document) :
    (s.written d).stored? d.id = some d :=
  congrArg (Option.map Stored.document) (Catalog.find?_put_self s.catalog ⟨s.nextStamp, d⟩)

theorem stored?_written_of_ne {id : String} (h : id ≠ d.id) :
    (s.written d).stored? id = s.stored? id :=
  congrArg (Option.map Stored.document) (Catalog.find?_put_of_ne (s := ⟨s.nextStamp, d⟩) h)

theorem sound_written (hs : s.Sound) (d : Document) : (s.written d).Sound := by
  refine ⟨fun x hx => ?_, fun cache' h' e he => ?_⟩
  · rcases mem_written.1 hx with rfl | ⟨hx, _⟩
    · exact Nat.lt_succ_self _
    · exact Nat.lt_succ_of_lt (hs.stamped x hx)
  · obtain ⟨cache, hc, rfl⟩ := Option.map_eq_some_iff.1 h'
    obtain ⟨he, hne⟩ := DocumentCache.mem_of_mem_invalidate he
    rw [stored?_written_of_ne hne]
    exact hs.cached cache hc e he

theorem issued_written (hi : s.Issued item) (d : Document) : (s.written d).Issued item := by
  refine ⟨Nat.lt_succ_of_lt hi.1, fun other hother hid hstamp => ?_⟩
  rcases mem_written.1 hother with rfl | ⟨hother, _⟩
  · exact absurd hstamp (Nat.ne_of_gt hi.1)
  · exact hi.2 other hother hid hstamp

theorem sound_create {c : CacheSettings} (h : create c = .ok s) : s.Sound := by
  cases hp : c.problems with
  | error e =>
    rw [create, hp] at h
    cases h
  | ok problems =>
    rw [create, hp] at h
    simp only [bind, Except.bind] at h
    split at h
    · cases h
      refine ⟨fun item hitem => (by cases hitem), fun cache hc e he => ?_⟩
      split at hc <;> cases hc
      cases he
    · cases h

end DocumentStore

end VersionedTree
