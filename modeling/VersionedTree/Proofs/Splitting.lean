import VersionedTree.Proofs.Bundles
import VersionedTree.Proofs.Closing
import VersionedTree.Proofs.Numerals
import VersionedTree.Proofs.Partitioned
import Mathlib.Data.List.Perm.Basic

/-! # Splitting a full traversal

A traversal of the range of all times goes through every document. If the range is split, each part
goes through the documents whose time it contains. So the parts together deliver what the whole
traversal does, in whatever order they run, except for the documents whose time is in no part: those
without a time, and those of a time before 0 or at the upper limit.
-/

namespace VersionedTree

/-! ## Lists and sums -/

section

variable {ρ α : Type} {p : ρ → α → Bool} {l : List ρ}

theorem flatMap_selected (a : α) :
    (l.flatMap fun r => if p r a = true then [a] else []) =
      List.replicate (l.countP (p · a)) a := by
  induction l with
  | nil => rfl
  | cons r l ih =>
    rw [List.flatMap_cons, ih, List.countP_cons]
    split
    · rw [List.replicate_succ, List.singleton_append]
    · rfl

theorem flatMap_filter_perm {q : α → Bool} {items : List α}
    (h : ∀ a ∈ items, l.countP (p · a) = if q a = true then 1 else 0) :
    (l.flatMap fun r => items.filter (p r)).Perm (items.filter q) := by
  induction items with
  | nil => simp
  | cons a items ih =>
    obtain ⟨ha, hitems⟩ := List.forall_mem_cons.1 h
    have hfilter (p : α → Bool) :
        (a :: items).filter p = (if p a = true then [a] else []) ++ items.filter p := by
      rw [List.filter_cons]
      split <;> rfl
    have hfirst : (l.flatMap fun r => if p r a = true then [a] else []) =
        if q a = true then [a] else [] := by
      rw [flatMap_selected, ha]
      split <;> rfl
    simp only [hfilter]
    refine (List.flatMap_append_perm l _ _).symm.trans ?_
    rw [hfirst]
    exact (ih hitems).append_left _

end

/-- The sum of what a map holds. -/
def OrderedMap.total (m : OrderedMap Nat) : Nat := m.entries.foldr (fun e n => e.2 + n) 0

theorem total_lengths {α β : Type} (l : List α) (label : α → String) (f : α → List β) :
    (l.map fun a => (label a, (f a).length)).foldr (fun e n => e.2 + n) 0 =
      (l.flatMap f).length := by
  induction l with
  | nil => rfl
  | cons a l ih => rw [List.map_cons, List.foldr_cons, ih, List.flatMap_cons, List.length_append]

/-! ## Documents and parts -/

namespace DocumentStore

variable {s s' : DocumentStore} {ranges : List TimeRange} {parts : Int}

/-- Wherever something is put down for the time of a modification, it is a time. -/
def Timed (s : DocumentStore) : Prop :=
  ∀ item ∈ s.catalog.items, ∀ m, item.document.modified = some m → m.time? ≠ none

theorem Agrees.timed (h : s.Agrees s') (ht : s.Timed) : s'.Timed := by
  rw [Timed, h.catalog]
  exact ht

theorem timed_written (h : s.Timed) {d : Document}
    (hd : ∀ m, d.modified = some m → m.time? ≠ none) : (s.written d).Timed := by
  intro item hitem
  rcases mem_written.1 hitem with rfl | ⟨hitem, _⟩
  · exact hd
  · exact h item hitem

theorem Timed.admits (h : s.Timed) (range : TimeRange) {item : Stored}
    (hitem : item ∈ s.catalog.items) : range.admits item.document.modified =
      .ok (range.contains (item.document.modified.bind Modified.time?)) := by
  cases hm : item.document.modified with
  | none => rfl
  | some m =>
    cases htime : m.time? with
    | none => exact absurd htime (h item hitem m hm)
    | some t => simp only [TimeRange.admits, Option.bind_some, htime]

theorem Timed.requireTimes (h : s.Timed) (range : TimeRange) : s.requireTimes range = .ok () := by
  have hadmits : ∀ item ∈ s.catalog.items, ∃ b, range.admits item.document.modified = .ok b :=
    fun item hitem => ⟨_, h.admits range hitem⟩
  rw [DocumentStore.requireTimes]
  split
  · rfl
  · generalize s.catalog.items = items at hadmits
    induction items with
    | nil => rfl
    | cons item items ih =>
      obtain ⟨⟨b, hfirst⟩, hrest⟩ := List.forall_mem_cons.1 hadmits
      rw [List.forM_eq_forM, List.forM_cons, hfirst]
      exact ih hrest

theorem timed_of_requireTimes {range : TimeRange} (hrange : range.coversAll = false)
    (h : s.requireTimes range = .ok ()) : s.Timed := by
  rw [requireTimes, hrange, if_neg Bool.false_ne_true] at h
  rw [Timed]
  generalize s.catalog.items = items at h
  induction items with
  | nil => exact List.forall_mem_nil _
  | cons item items ih =>
    rw [List.forM_eq_forM, List.forM_cons] at h
    cases hadmits : range.admits item.document.modified with
    | error e =>
      rw [hadmits] at h
      cases h
    | ok b =>
      rw [hadmits] at h
      refine List.forall_mem_cons.2 ⟨fun m hm htime => ?_, ih h⟩
      rw [hm, TimeRange.admits, htime] at hadmits
      cases hadmits

/-- Does a full range that is split into so many parts still have the documents that were modified
like this? -/
def splitKeeps (parts : Int) (modified : Option Modified) : Bool :=
  (parts = 1 || TimeRange.unlimited < parts) ||
    TimeRange.all.contains (modified.bind Modified.time?)

theorem flatMap_select_perm (hparts : 1 ≤ parts) (h : TimeRange.all.split parts = .ok ranges)
    (s : DocumentStore) :
    (ranges.flatMap s.select).Perm
      (s.catalog.items.filter fun item => splitKeeps parts item.document.modified) := by
  refine flatMap_filter_perm fun item _ => ?_
  have hcount := TimeRange.countP_split hparts h (item.document.modified.bind Modified.time?)
  simp only [splitKeeps, Bool.or_eq_true, decide_eq_true_eq]
  exact hcount

end DocumentStore

/-! ## Workers -/

namespace Workspace

/-- The caller takes an entry. -/
def take (e : Entry) : Action (Workspace (List Entry)) Unit := Action.modify (gathered [e])

end Workspace

namespace Traverser

variable {t : Traverser (List Entry)} {ts : List (Traverser (List Entry))}
  {accepts : String → Bool} {roots : List String} {w : Workspace (List Entry)}
  {s : DocumentStore} {v : RevisionVector} {n m : Nat}

/-- What visiting a document delivers. -/
def visited (s : DocumentStore) (v : RevisionVector) (accepts : String → Bool)
    (roots : List String) (item : Stored) : List Entry :=
  (Visit.yield item.document.modified (visitOutcome s v accepts roots item)).items

theorem lastModified_of_mem_visited {item : Stored} {e : Entry}
    (h : e ∈ visited s v accepts roots item) : e.lastModified = item.document.modified := by
  rw [visited] at h
  generalize visitOutcome s v accepts roots item = found at h
  match found, h with
  | .ok (.found first more), h =>
    obtain ⟨n, _, rfl⟩ := List.mem_map.1 h
    rfl

/-- What a traversal of a range delivers of a store in which no visit fails. -/
def share (s : DocumentStore) (v : RevisionVector) (accepts : String → Bool) (roots : List String)
    (range : TimeRange) : List Entry :=
  (s.select range).flatMap (visited s v accepts roots)

/-- A traversal of the range fails on nothing in the store. -/
structure Traversable (s : DocumentStore) (v : RevisionVector) (accepts : String → Bool)
    (roots : List String) (range : TimeRange) : Prop where
  sound : s.Sound
  available : s.available = true
  times : s.requireTimes range = .ok ()
  complete : ∀ item ∈ s.select range,
    (Visit.yield item.document.modified (visitOutcome s v accepts roots item)).failure = none

theorem Traversable.visits_select {range : TimeRange}
    (h : Traversable s v accepts roots range) :
    visits s v accepts roots (s.select range) = ⟨share s v accepts roots range, none⟩ :=
  Yield.flatMap_of_complete h.complete

theorem Traversable.part {range part : TimeRange} (h : Traversable s v accepts roots range)
    (htimed : s.Timed) (hpart : s.select part ⊆ s.select range) :
    Traversable s v accepts roots part where
  sound := h.sound
  available := h.available
  times := htimed.requireTimes part
  complete item hitem := h.complete item (hpart hitem)

theorem foldl_count (entries : List Entry) (n : Nat) :
    entries.foldl (fun n _ => n + 1) n = n + entries.length := by
  induction entries generalizing n with
  | nil => rfl
  | cons e entries ih =>
    rw [List.foldl_cons, ih, List.length_cons]
    omega

theorem consume_serves (ht : t.IsPlain accepts fun _ u => u)
    (hconfig : (t.state w).config = (.of v, roots)) (hs : Traversable s v accepts roots t.range)
    (hw : s.Agrees w.store) (htidy : w.Tidy n m) (hn : n ≤ t.number) :
    ∃ w', t.consume Workspace.take w = (.ok (share s v accepts roots t.range).length, w') ∧
      w.Serves (share s v accepts roots t.range) w' := by
  have hpin : (t.state w).pin = .of v := congrArg Prod.fst hconfig
  have hroots : (t.state w).hiddenRoots = roots := congrArg Prod.snd hconfig
  obtain ⟨w', hfold, h⟩ := guarded_fold_serves (fun n _ => n + 1) ht (hw.sound hs.sound)
    (hw.available.trans hs.available) hpin ((hw.requireTimes t.range).trans hs.times) htidy hn
    (fun _ _ _ => rfl) 0
  rw [hroots, visits_of_agrees hw, hw.select, hs.visits_select] at hfold h
  refine ⟨w', hfold.trans ?_, h⟩
  rw [Yield.outcome, Except.map, foldl_count, Nat.zero_add]

/-- Whatever the order in which the traversers finish, each delivers its share. -/
theorem workers_serve (hts : Pinned ts accepts v roots w)
    (hs : ∀ t ∈ ts, Traversable s v accepts roots t.range) (hw : s.Agrees w.store)
    (htidy : w.Tidy n m) (hn : ∀ t ∈ ts, n ≤ t.number) :
    ∃ w', (ts.mapM fun t : Traverser (List Entry) =>
        return (t, ← Action.attempt (t.consume Workspace.take))) w =
        (.ok (ts.map fun t => (t, .ok (share s v accepts roots t.range).length)), w') ∧
      w.Serves (ts.flatMap fun t => share s v accepts roots t.range) w' := by
  induction ts generalizing w with
  | nil => exact ⟨w, rfl, (Workspace.Looks.refl w).serves rfl⟩
  | cons t ts ih =>
    obtain ⟨⟨hplain, hconfig⟩, hrest⟩ := List.forall_mem_cons.1 hts
    obtain ⟨hst, hsts⟩ := List.forall_mem_cons.1 hs
    obtain ⟨hnt, hnts⟩ := List.forall_mem_cons.1 hn
    obtain ⟨w₁, hconsume, h₁⟩ := consume_serves hplain hconfig hst hw htidy hnt
    obtain ⟨w₂, hworkers, h₂⟩ := ih (Pinned.of_configs hrest h₁.configs) hsts
      (hw.trans h₁.repository.1) (h₁.tidy htidy) hnts
    refine ⟨w₂, ?_, h₁.append h₂⟩
    rw [List.mapM_cons]
    simp only [Action.bind_apply, Action.attempt, hconsume, Action.pure_apply, hworkers]
    rfl

theorem gatherCounts_eq {υ : Type} (l : List (Traverser υ × Nat)) (counts : OrderedMap Nat)
    (w : Workspace υ) :
    ∃ w', gatherCounts (l.map fun x => (x.1, .ok x.2)) counts w =
        (.ok ((l.map fun x => (x.1.label, x.2)).foldl
          (fun m (key, value) => m.put key value) counts), w') ∧
      w'.caller = w.caller := by
  induction l generalizing counts w with
  | nil => exact ⟨w, rfl, rfl⟩
  | cons x l ih =>
    obtain ⟨w', hrest, hcaller⟩ := ih (counts.put x.1.label x.2)
      (Workspace.noted (.partitionCompleted x.1.label x.1.range x.2) w)
    exact ⟨w', hrest, hcaller⟩

/-- What a parallel run hands to the caller, and how it counts. -/
theorem parallel_delivers (hts : Pinned ts accepts v roots w)
    (hs : ∀ t ∈ ts, Traversable s v accepts roots t.range)
    (hw : s.Agrees w.store) (htidy : w.Tidy n m) (hn : ∀ t ∈ ts, n ≤ t.number)
    (hlabels : (ts.map label).Nodup) {maxWorkers : Option Int}
    (hmax : maxWorkers.any (· < 0) = false) :
    ∃ counts w', parallel ts Workspace.take maxWorkers w = (.ok counts, w') ∧
      counts.entries = ts.map (fun t => (t.label, (share s v accepts roots t.range).length)) ∧
      w'.caller = w.caller ++ ts.flatMap fun t => share s v accepts roots t.range := by
  rw [parallel]
  split
  · rename_i hempty
    rw [List.isEmpty_iff.1 hempty]
    exact ⟨.empty, w, rfl, rfl, (List.append_nil _).symm⟩
  · obtain ⟨w₁, hworkers, h₁⟩ := workers_serve hts hs hw htidy hn
    obtain ⟨w₂, hgather, h₂⟩ := gatherCounts_eq
      (ts.map fun t => (t, (share s v accepts roots t.range).length)) .empty w₁
    simp only [List.map_map, Function.comp_def] at hgather
    refine ⟨.ofList (ts.map fun t => (t.label, (share s v accepts roots t.range).length)), w₂, ?_,
      ?_, h₂.trans h₁.caller⟩
    · rw [hmax, if_neg Bool.false_ne_true, Action.bind_apply, hworkers]
      exact hgather
    · exact OrderedMap.entries_ofList (by rwa [List.map_map])

theorem parallel_serves (hts : Pinned ts accepts v roots w)
    (hs : ∀ range, Traversable s v accepts roots range)
    (hw : s.Agrees w.store) (htidy : w.Tidy n m) (hn : ∀ t ∈ ts, n ≤ t.number)
    (hlabels : (ts.map label).Nodup) {maxWorkers : Option Int}
    (hmax : maxWorkers.any (· < 0) = false) :
    ∃ counts w', parallel ts Workspace.take maxWorkers w = (.ok counts, w') ∧
      counts.entries = ts.map (fun t => (t.label, (share s v accepts roots t.range).length)) ∧
      w'.caller = w.caller ++ ts.flatMap fun t => share s v accepts roots t.range :=
  parallel_delivers hts (fun t _ => hs t.range) hw htidy hn hlabels hmax

/-- The parts of the full range share out what the whole range delivers, but for the documents that
no part has. -/
theorem flatMap_share_perm {parts : Int} (hparts : 1 ≤ parts) {ranges : List TimeRange}
    (h : TimeRange.all.split parts = .ok ranges) (s : DocumentStore) (v : RevisionVector)
    (accepts : String → Bool) (roots : List String) :
    (ranges.flatMap (share s v accepts roots)).Perm
      ((share s v accepts roots .all).filter fun e =>
        DocumentStore.splitKeeps parts e.lastModified) := by
  have hkept (items : List Stored) :
      (items.filter fun item => DocumentStore.splitKeeps parts item.document.modified).flatMap
          (visited s v accepts roots) =
        (items.flatMap (visited s v accepts roots)).filter fun e =>
          DocumentStore.splitKeeps parts e.lastModified := by
    induction items with
    | nil => rfl
    | cons item items ih =>
      have hfirst : ∀ e ∈ visited s v accepts roots item, DocumentStore.splitKeeps parts
          e.lastModified = DocumentStore.splitKeeps parts item.document.modified :=
        fun e he => by rw [lastModified_of_mem_visited he]
      rw [List.flatMap_cons, List.filter_append, ← ih, List.filter_congr hfirst, List.filter_cons]
      cases DocumentStore.splitKeeps parts item.document.modified <;> simp
  have hperm := (DocumentStore.flatMap_select_perm hparts h s).flatMap_right
    (visited s v accepts roots)
  rw [List.flatMap_assoc, hkept] at hperm
  rwa [share, DocumentStore.select_all]

theorem Made.map_label {t : Traverser (List Entry)} {ranges : List TimeRange}
    {w' : Workspace (List Entry)}
    (h : Made accepts v roots
      (ranges.zipIdx.map fun (range, i) => (t.label ++ "-" ++ toString i, range)) ts w w') :
    (ts.map label).Nodup ∧ ts.map range = ranges := by
  have hlabels : ts.map label =
      (List.range' 0 ranges.length).map fun i => t.label ++ "-" ++ toString i := by
    have hparts := congrArg (List.map Prod.fst) h.parts
    rw [List.map_map, List.map_map] at hparts
    rw [← List.zipIdx_map_snd, List.map_map]
    exact hparts
  have hranges : ts.map range = ranges := by
    have hparts := congrArg (List.map Prod.snd) h.parts
    rw [List.map_map, List.map_map] at hparts
    exact hparts.trans (List.zipIdx_map_fst 0 ranges)
  refine ⟨?_, hranges⟩
  rw [hlabels]
  refine List.Nodup.map (fun i j hij => ?_) List.nodup_range'
  have hdigits := String.ofList_injective ((String.append_right_inj _).1 hij)
  exact Decimal.eq_of_toDigits_eq hdigits

end Traverser

/-! ## The whole and its parts -/

namespace TraversalSettings

variable {σ : Type} {c : TraversalSettings σ}

theorem of_problems_eq_nil (h : c.problems = .ok []) :
    (∀ parts, c.partitions = some parts → 1 ≤ parts) ∧ c.maxWorkers.any (· < 0) = false := by
  rw [problems] at h
  cases hparts : c.partitions with
  | none =>
    rw [hparts] at h
    cases h
  | some parts =>
    rw [hparts] at h
    have hnone := Except.ok.inj h
    simp only [List.append_eq_nil_iff] at hnone
    obtain ⟨⟨_, hpositive⟩, hworkers⟩ := hnone
    constructor
    · rintro _ ⟨⟩
      split at hpositive
      · cases hpositive
      · omega
    · cases hmax : c.maxWorkers with
      | none => rfl
      | some n =>
        rw [hmax] at hworkers
        dsimp only at hworkers
        split at hworkers
        · cases hworkers
        · rw [Option.any_some, decide_eq_false]
          omega

theorem of_check_eq_ok {u u' : σ} (h : c.check u = (.ok (), u')) :
    u' = u ∧ (∀ parts, c.partitions = some parts → 1 ≤ parts) ∧
      c.maxWorkers.any (· < 0) = false := by
  obtain ⟨problems, u₁, hlisted, hend⟩ := Action.of_bind_eq_ok h
  obtain ⟨hproblems, rfl⟩ := Action.of_ofExcept_eq_ok hlisted
  split at hend
  · rename_i hempty
    obtain rfl := List.isEmpty_iff.1 hempty
    cases hend
    exact ⟨rfl, of_problems_eq_nil hproblems⟩
  · cases hend

end TraversalSettings

namespace Traverser

variable {υ : Type} {t : Traverser υ} {w : Workspace υ}

theorem createPartitioned_snapshot (ht : t.backend = .memory) (parts : Int)
    (snapshot : Option RevisionVector) (roots : List String) (w : Workspace υ) :
    t.createPartitioned parts snapshot roots w =
      t.createPartitioned parts (some (snapshot.getD w.head)) roots w := by
  cases snapshot with
  | some v => rfl
  | none =>
    rw [createPartitioned, createPartitioned, ht]
    rfl

end Traverser

theorem Traverser.requireTimes_of_fold {t : Traverser (List Entry)} {accepts : String → Bool}
    {v : RevisionVector} {w w' : Workspace (List Entry)} {β : Type}
    {f : β → Entry → Action (Workspace (List Entry)) β} {b b' : β}
    (ht : t.IsPlain accepts fun _ u => u) (hpin : (t.state w).pin = .of v)
    (h : t.fold f b w = (.ok b', w')) : w.store.requireTimes t.range = .ok () := by
  cases htimes : w.store.requireTimes t.range with
  | ok => rfl
  | error e =>
    obtain ⟨w₁, hrefused, _⟩ := fold_refused ht (available_of_fold ht hpin h) hpin htimes f b
    rw [hrefused] at h
    cases h

namespace Traverser

variable {t t' : Traverser (List Entry)} {accepts : String → Bool} {v : RevisionVector}
  {roots : List String} {w w₁ w' : Workspace (List Entry)}

/-- The traversal of a new traverser. -/
theorem created_serves (ht : t.IsPlain accepts fun _ u => u) (hs : w.store.Sound)
    (ha : w.store.available = true) (htimes : w.store.requireTimes t.range = .ok ())
    (hcreate : t.create (some v) roots w = (.ok t', w₁)) :
    let y := visits w.store v accepts roots (w.store.select t.range)
    ∃ w', Action.guarded (t'.fold (fun _ e => Workspace.take e) ()) t'.close w₁ =
      (y.outcome, w') ∧ w'.caller = w.caller ++ y.items := by
  intro y
  have hmade : Made accepts v roots [(t.label, t.range)] [t'] w w₁ := made_of_create ht hcreate
  have hstore : w₁.store = w.store := congrArg Repository.store hmade.repository
  have hrange : t'.range = t.range := congrArg Prod.snd (List.head_eq_of_cons_eq hmade.parts)
  obtain ⟨hplain, hconfig⟩ := hmade.pinned t' List.mem_cons_self
  have hpin : (t'.state w₁).pin = .of v := congrArg Prod.fst hconfig
  have hroots : (t'.state w₁).hiddenRoots = roots := congrArg Prod.snd hconfig
  obtain ⟨w', hserved, h⟩ := guarded_fold_serves (f := fun _ e => Workspace.take e)
    (fun _ _ => ()) hplain (hstore ▸ hs) (hstore ▸ ha) hpin (by rwa [hstore, hrange])
    (hmade.tidy w.tidy_lengths) (hmade.numbers t' List.mem_cons_self) (fun _ _ _ => rfl) ()
  rw [hroots, hrange, hstore] at hserved h
  refine ⟨w', hserved.trans ?_, ?_⟩
  · show (y.outcome.map fun _ => (), w') = (y.outcome, w')
    cases y.outcome <;> rfl
  · rw [h.caller, hmade.caller]

/-- What it takes that a traversal comes to its end, and what it delivers. -/
theorem of_guarded_created_eq_ok (ht : t.IsPlain accepts fun _ u => u) (hs : w.store.Sound)
    (hcreate : t.create (some v) roots w = (.ok t', w₁))
    (hfold : Action.guarded (t'.fold (fun _ e => Workspace.take e) ()) t'.close w₁ =
      (.ok (), w')) :
    Traversable w.store v accepts roots t.range ∧
      w'.caller = w.caller ++ share w.store v accepts roots t.range := by
  have hmade : Made accepts v roots [(t.label, t.range)] [t'] w w₁ := made_of_create ht hcreate
  have hstore : w₁.store = w.store := congrArg Repository.store hmade.repository
  have hrange : t'.range = t.range := congrArg Prod.snd (List.head_eq_of_cons_eq hmade.parts)
  obtain ⟨hplain, hconfig⟩ := hmade.pinned t' List.mem_cons_self
  have hpin : (t'.state w₁).pin = .of v := congrArg Prod.fst hconfig
  obtain ⟨_, hrun⟩ := Action.of_guarded_eq_ok hfold
  have ha : w₁.store.available = true := available_of_fold hplain hpin hrun
  have htimes : w₁.store.requireTimes t'.range = .ok () := requireTimes_of_fold hplain hpin hrun
  rw [hstore] at ha
  rw [hstore, hrange] at htimes
  obtain ⟨w₂, hserved, hcaller⟩ := created_serves ht hs ha htimes hcreate
  rw [hserved] at hfold
  -- That the run came to its end tells of the visits that it is made of.
  obtain ⟨houtcome, rfl⟩ := Prod.mk.inj hfold
  have hfailure : (visits w.store v accepts roots (w.store.select t.range)).failure = none := by
    cases hfailure : (visits w.store v accepts roots (w.store.select t.range)).failure with
    | none => rfl
    | some e =>
      rw [Yield.outcome, hfailure] at houtcome
      cases houtcome
  have htraversable : Traversable w.store v accepts roots t.range :=
    ⟨hs, ha, htimes, Yield.complete_of_flatMap hfailure⟩
  refine ⟨htraversable, ?_⟩
  rw [hcaller, htraversable.visits_select]

end Traverser

namespace EntryQuery

variable {label : Option String} {roots : List String} {accepts : String → Bool} {parts : Int}
  {maxWorkers : Option Int} {snapshot : Option RevisionVector} {w w' : Workspace (List Entry)}

/-- All of the tree at a snapshot. A parallel run splits the range into so many parts. -/
def full (label : Option String) (roots : List String) (accepts : String → Bool) (parts : Int)
    (maxWorkers : Option Int) (snapshot : Option RevisionVector) : EntryQuery (List Entry) where
  settings :=
    { label, hiddenRoots := roots, predicate := some fun path => pure (accepts path)
      partitions := some parts, maxWorkers }
  snapshot

/-- What it takes that a full traversal comes to its end, and what it delivers. -/
theorem of_fold_full_eq_ok (hs : w.store.Sound) (htimed : w.store.Timed)
    (h : (full label roots accepts parts maxWorkers snapshot).fold
      (fun _ e => Workspace.take e) () w = (.ok (), w')) :
    (full label roots accepts parts maxWorkers snapshot).settings.check w = (.ok (), w) ∧
      (∀ range, Traverser.Traversable w.store (snapshot.getD w.head) accepts roots range) ∧
      w'.caller = w.caller ++
        Traverser.share w.store (snapshot.getD w.head) accepts roots .all := by
  obtain ⟨t, w₁, hopen, hfold⟩ := Action.of_bind_eq_ok h
  obtain ⟨_, w₀, hcheck, hcreate⟩ := Action.of_bind_eq_ok hopen
  obtain ⟨rfl, _⟩ := TraversalSettings.of_check_eq_ok hcheck
  rw [Traverser.create_snapshot rfl] at hcreate
  obtain ⟨hall, hcaller⟩ := Traverser.of_guarded_created_eq_ok ⟨rfl, rfl, rfl, rfl⟩ hs hcreate hfold
  refine ⟨hcheck, fun range => hall.part htimed fun item hitem => ?_, hcaller⟩
  have hmem := List.mem_of_mem_filter hitem
  rw [← DocumentStore.select_all] at hmem
  exact hmem

/-- A full traversal that comes to its end is shared out by the parts of its range, in whatever
order they finish: the caller is handed the same entries, and they are all counted, but for those of
documents whose modification time is in no part. -/
theorem partitioned_perm_iff {w w' : Workspace (List Entry)} (hs : w.store.Sound)
    (htimed : w.store.Timed) (hcaller : w.caller = []) {label : Option String}
    {roots : List String} {accepts : String → Bool} {parts : Int} {maxWorkers : Option Int}
    {snapshot : Option RevisionVector}
    (hwhole : (full label roots accepts parts maxWorkers snapshot).fold
      (fun _ e => Workspace.take e) () w = (.ok (), w')) :
    let q := full label roots accepts parts maxWorkers snapshot
    let t := Traverser.described q.settings q.delivery q.backend
    ∃ ts w₁, t.createPartitioned parts snapshot roots w = (.ok ts, w₁) ∧
      q.partitioned Workspace.take w = Traverser.parallel ts Workspace.take maxWorkers w₁ ∧
      ∀ order, order.Perm ts → ∃ counts w₂,
        Traverser.parallel order Workspace.take maxWorkers w₁ = (.ok counts, w₂) ∧
        counts.total = w₂.caller.length ∧
        w₂.caller.Perm (w'.caller.filter fun e =>
          DocumentStore.splitKeeps parts e.lastModified) ∧
        (w₂.caller.Perm w'.caller ↔
          ∀ e ∈ w'.caller, DocumentStore.splitKeeps parts e.lastModified = true) := by
  intro q t
  obtain ⟨hcheck, htraversable, hdelivered⟩ := of_fold_full_eq_ok hs htimed hwhole
  obtain ⟨_, hparts, hmax⟩ := TraversalSettings.of_check_eq_ok hcheck
  generalize hv : snapshot.getD w.head = v at htraversable hdelivered
  have ht : t.IsPlain accepts fun _ u => u := ⟨rfl, rfl, rfl, rfl⟩
  obtain ⟨ranges, ts, w₁, hranges, _, hts, hmade⟩ :=
    Traverser.createPartitioned_eq ht (hparts parts rfl) v roots w
  have hcreated : t.createPartitioned parts snapshot roots w = (.ok ts, w₁) := by
    rw [Traverser.createPartitioned_snapshot rfl, hv]
    exact hts
  have hpartitioned : q.partitioned Workspace.take w =
      Traverser.parallel ts Workspace.take maxWorkers w₁ := by
    rw [partitioned, Action.bind_apply, hcheck]
    show (t.createPartitioned parts snapshot roots >>= fun ts =>
      Traverser.parallel ts Workspace.take maxWorkers) w = _
    rw [Action.bind_apply, hcreated]
  refine ⟨ts, w₁, hcreated, hpartitioned, fun order horder => ?_⟩
  obtain ⟨hlabels, hsplit⟩ := hmade.map_label
  -- The order does not matter to what a worker delivers.
  have hstore : w₁.store = w.store := congrArg Repository.store hmade.repository
  have hagrees : w.store.Agrees w₁.store := by
    rw [hstore]
    exact .refl _
  obtain ⟨counts, w₂, hrun, hcounts, hserved⟩ := Traverser.parallel_serves
    (fun t ht => hmade.pinned t (horder.subset ht)) htraversable hagrees
    (hmade.tidy w.tidy_lengths) (fun t ht => hmade.numbers t (horder.subset ht))
    ((horder.map Traverser.label).nodup_iff.2 hlabels) hmax
  rw [hmade.caller, hcaller, List.nil_append] at hserved
  rw [hcaller, List.nil_append] at hdelivered
  have hperm : w₂.caller.Perm
      (w'.caller.filter fun e => DocumentStore.splitKeeps parts e.lastModified) := by
    rw [hserved, hdelivered]
    refine (horder.flatMap_right _).trans ?_
    have hshared := Traverser.flatMap_share_perm (hparts parts rfl) hranges w.store v accepts roots
    rwa [← hsplit, List.flatMap_map] at hshared
  refine ⟨counts, w₂, hrun, ?_, hperm, ?_⟩
  · rw [OrderedMap.total, hcounts, hserved]
    exact total_lengths order _ _
  · constructor
    · intro hall
      have hlength := hperm.symm.length_eq.trans hall.length_eq
      exact List.length_filter_eq_length_iff.1 hlength
    · intro hkept
      rwa [List.filter_eq_self.2 hkept] at hperm

theorem partitioned_perm_iff_of_untimed :
    let commits : List Commit := [{ revision := ⟨1, 0, 1⟩, properties := some [] }]
    let a : Document := { Document.forPath "/a" with modified := some (.time 3), commits }
    let b : Document := { Document.forPath "/b" with commits }
    let w : Workspace (List Entry) :=
      { repository := { store := (DocumentStore.written {} a).written b }, caller := [] }
    let q := full (some "full") ["/c"] (fun _ => true) 3 (some 2) (some (.ofList [⟨1, 0, 1⟩]))
    let t := Traverser.described q.settings q.delivery q.backend
    ∃ w', q.fold (fun _ e => Workspace.take e) () w = (.ok (), w') ∧
      ∃ ts w₁, t.createPartitioned 3 (some (.ofList [⟨1, 0, 1⟩])) ["/c"] w = (.ok ts, w₁) ∧
        q.partitioned Workspace.take w = Traverser.parallel ts Workspace.take (some 2) w₁ ∧
        ∀ order, order.Perm ts → ∃ counts w₂,
          Traverser.parallel order Workspace.take (some 2) w₁ = (.ok counts, w₂) ∧
          counts.total = w₂.caller.length ∧
          w₂.caller.Perm (w'.caller.filter fun e =>
            DocumentStore.splitKeeps 3 e.lastModified) ∧
          (w₂.caller.Perm w'.caller ↔
            ∀ e ∈ w'.caller, DocumentStore.splitKeeps 3 e.lastModified = true) := by
  intro commits a b w q t
  have hwhole : q.fold (fun _ e => Workspace.take e) () w =
      (.ok (), (q.fold (fun _ e => Workspace.take e) () w).2) :=
    Action.eq_ok_of_isOk (by decide +kernel)
  have hsound : w.store.Sound := DocumentStore.sound_written (DocumentStore.sound_written
    (DocumentStore.sound_create (c := { enabled := false }) rfl) a) b
  have hempty : DocumentStore.Timed {} := List.forall_mem_nil _
  have htimed : w.store.Timed := by
    refine DocumentStore.timed_written (DocumentStore.timed_written hempty ?_) ?_
    · intro m hm
      cases hm
      decide
    · intro m hm
      cases hm
  exact ⟨_, hwhole, partitioned_perm_iff hsound htimed rfl hwhole⟩

/-- A document without a modification time is delivered by no part. -/
theorem partitioned_loses_untimed :
    let a : Document :=
      { Document.forPath "/a" with commits := [{ revision := ⟨1, 0, 1⟩, properties := some [] }] }
    let w : Workspace (List Entry) :=
      { repository := { store := DocumentStore.written {} a }, caller := [] }
    let q := full (some "full") [] (fun _ => true) 2 none (some (.ofList [⟨1, 0, 1⟩]))
    let whole := q.fold (fun _ e => Workspace.take e) () w
    let split := q.partitioned Workspace.take w
    whole.1.isOk = true ∧
      split.1.toOption.map OrderedMap.total = some 0 ∧
      ¬ split.2.caller.Perm whole.2.caller := by
  intro a w q whole split
  refine ⟨by decide +kernel, by decide +kernel, fun h => absurd h.length_eq ?_⟩
  decide +kernel

end EntryQuery

end VersionedTree
