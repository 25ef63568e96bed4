import VersionedTree.Proofs.Deliveries
import VersionedTree.Proofs.Isolation
import VersionedTree.Proofs.Ranges

/-! # Partitioned traversals between writes

The parts of a range are scanned one after the other, in any order, at the snapshot that was the
head when the traversers were made; writes may come before each scan. The scans see one tree: what
they deliver of a node is what a single scan would have delivered. But each selects its documents
by the modification times of the moment when it begins, so a write that changes the time of a
document can move it into a part that is still to be scanned or out of it. The nodes are those of a
single scan, each once, exactly if this makes no node be found more or less often.
-/

namespace VersionedTree

namespace Repository

variable {r r' : Repository} {history : List Version} {v : RevisionVector}

/-- The repository records a history, and later versions that the snapshot does not see. -/
structure Grown (history : List Version) (v : RevisionVector) (r : Repository) : Prop where
  behind : v.Behind r.writer
  recorded : ∃ later, r.Recorded (history ++ later) ∧ ∀ x ∈ later, v.sees x.revision = false

theorem Grown.kept (h : r.Grown history v) : r.Kept := by
  obtain ⟨later, hrecorded, _⟩ := h.recorded
  exact hrecorded.kept

theorem Grown.of_agrees (h : r.Grown history v) (ha : r.Agrees r') : r'.Grown history v := by
  obtain ⟨later, hrecorded, hlater⟩ := h.recorded
  refine ⟨?_, later, ha.recorded hrecorded, hlater⟩
  rw [ha.2]
  exact h.behind

theorem Grown.performAll (h : r.Grown history v) {calls : List WriteCall}
    (hcalls : ∀ call ∈ calls, call.Admissible) :
    (WriteCall.performAll calls r).2.Grown history v := by
  obtain ⟨later, hrecorded, hlater⟩ := h.recorded
  obtain ⟨hbehind, hunseen⟩ := unseen_performAll h.behind h.kept hcalls
  refine ⟨hbehind, later ++ (WriteCall.performAll calls r).1, ?_, fun x hx => ?_⟩
  · rw [← List.append_assoc]
    exact recorded_performAll hrecorded hcalls
  · rcases List.mem_append.1 hx with hx | hx
    · exact hlater x hx
    · exact hunseen x hx

/-- Of documents of the grown store, a traversal delivers what it finds in the store as it was. -/
theorem Grown.seen_yields (h : r'.Grown history v) (hr : r.Recorded history)
    (accepts : String → Bool) {items : List Stored}
    (hitems : ∀ item ∈ items, item ∈ r'.store.catalog.items) :
    (r'.store.yields v accepts items).items.map Entry.seen =
      (r.store.reached v accepts items).flatMap NodeState.delivered := by
  obtain ⟨later, hrecorded, hlater⟩ := h.recorded
  have hnode : ∀ item ∈ items, item.document.IsMain →
      r'.store.nodeAt item.document.path v = r.store.nodeAt item.document.path v :=
    fun item hitem hmain => DocumentStore.nodeAt_of_unseen hr.records hrecorded.records hlater
      hmain.absolute (DocumentStore.owns_of_mem (hitems item hitem) hmain)
  have hyields : r'.store.yields v accepts items = r.store.yields v accepts items :=
    Yield.flatMap_congr fun item hitem => DocumentStore.yieldOf_congr <|
      (h.kept.arranged item (hitems item hitem)).imp_left (hnode item hitem)
  rw [hyields]
  refine DocumentStore.seen_yields fun item hitem hlive => ?_
  have hmain := h.kept.arranged.isMain_of_not_isSplit (hitems item hitem) hlive
  obtain ⟨d, hd, hpath⟩ := DocumentStore.owns_of_mem (hitems item hitem) hmain
  exact ⟨_, (hnode item hitem hmain).symm.trans (DocumentStore.nodeAt_of_stored hd hpath)⟩

end Repository

namespace Traverser

variable {ts : List (Traverser (List Entry))} {accepts : String → Bool} {roots : List String}
  {v : RevisionVector} {w : Workspace (List Entry)}

/-- The traversers work as plain ones do, and are pinned. -/
def Pinned (ts : List (Traverser (List Entry))) (accepts : String → Bool) (v : RevisionVector)
    (roots : List String) (w : Workspace (List Entry)) : Prop :=
  ∀ t ∈ ts, t.IsPlain accepts (fun _ u => u) ∧ (t.state w).config = (.of v, roots)

theorem Pinned.of_configs (h : Pinned ts accepts v roots w) {w' : Workspace (List Entry)}
    (hconfigs : w'.traversers.map TraverserState.config =
      w.traversers.map TraverserState.config) : Pinned ts accepts v roots w' := by
  intro t ht
  obtain ⟨hplain, hconfig⟩ := h t ht
  exact ⟨hplain, (Workspace.map_traverser hconfigs t.number).trans hconfig⟩

/-- Traversers of these labels and ranges were made, at one snapshot. -/
structure Made (accepts : String → Bool) (v : RevisionVector) (roots : List String)
    (parts : List (String × TimeRange)) (ts : List (Traverser (List Entry)))
    (w w' : Workspace (List Entry)) : Prop where
  repository : w'.repository = w.repository
  caller : w'.caller = w.caller
  previous : w.traversers <+: w'.traversers
  tidy : ∀ {n m}, w.Tidy n m → w'.Tidy n m
  parts : ts.map (fun t => (t.label, t.range)) = parts
  numbers : ∀ t ∈ ts, w.traversers.length ≤ t.number
  pinned : Pinned ts accepts v roots w'

theorem Made.cons {t : Traverser (List Entry)} (ht : t.IsPlain accepts fun _ u => u)
    {parts : List (String × TimeRange)} {w' : Workspace (List Entry)}
    (h : Made accepts v roots parts ts
      { w with traversers := w.traversers ++ [{ pin := .of v, hiddenRoots := roots }] } w') :
    Made accepts v roots ((t.label, t.range) :: parts)
      ({ t with number := w.traversers.length } :: ts) w w' where
  repository := h.repository
  caller := h.caller
  previous := (List.prefix_append w.traversers _).trans h.previous
  tidy hw := h.tidy (hw.enroll rfl)
  parts := by rw [List.map_cons, h.parts]
  numbers := by
    refine List.forall_mem_cons.2 ⟨Nat.le_refl _, fun t' ht' => Nat.le_trans ?_ (h.numbers t' ht')⟩
    rw [List.length_append]
    exact Nat.le_add_right _ _
  pinned := by
    refine List.forall_mem_cons.2 ⟨⟨⟨ht.delivery, ht.predicate, ht.progress, ht.backend⟩, ?_⟩,
      h.pinned⟩
    obtain ⟨more, hmore⟩ := h.previous
    rw [state, Workspace.traverser, ← hmore, List.getD_eq_getElem?_getD]
    simp [TraverserState.config]

theorem Made.nil (accepts : String → Bool) (v : RevisionVector) (roots : List String)
    (w : Workspace (List Entry)) : Made accepts v roots [] [] w w :=
  ⟨rfl, rfl, List.prefix_refl _, id, rfl, List.forall_mem_nil _, List.forall_mem_nil _⟩

theorem made_of_create {t t' : Traverser (List Entry)} (ht : t.IsPlain accepts fun _ u => u)
    {w' : Workspace (List Entry)} (h : t.create (some v) roots w = (.ok t', w')) :
    Made accepts v roots [(t.label, t.range)] [t'] w w' := by
  rw [create_eq] at h
  obtain ⟨ht', rfl⟩ := Prod.mk.inj h
  rw [← Except.ok.inj ht']
  exact .cons ht (.nil accepts v roots _)

theorem mapM_create {t : Traverser (List Entry)} (ht : t.IsPlain accepts fun _ u => u)
    (v : RevisionVector) (roots : List String) (label : Nat → String)
    (ranges : List (TimeRange × Nat)) (w : Workspace (List Entry)) :
    ∃ ts w', (ranges.mapM fun (range, i) =>
        { t with label := label i, range }.create (some v) roots) w = (.ok ts, w') ∧
      Made accepts v roots (ranges.map fun (range, i) => (label i, range)) ts w w' := by
  induction ranges generalizing w with
  | nil => exact ⟨[], w, rfl, .nil accepts v roots w⟩
  | cons r rest ih =>
    obtain ⟨ts, w', hts, hmade⟩ :=
      ih { w with traversers := w.traversers ++ [{ pin := .of v, hiddenRoots := roots }] }
    have ht' : { t with label := label r.2, range := r.1 }.IsPlain accepts fun _ u => u :=
      ⟨ht.delivery, ht.predicate, ht.progress, ht.backend⟩
    refine ⟨_, w', ?_, hmade.cons ht'⟩
    rw [List.mapM_cons, Action.bind_apply]
    simp only [create_eq, Action.bind_apply]
    rw [hts]
    rfl

theorem createPartitioned_eq {t : Traverser (List Entry)} (ht : t.IsPlain accepts fun _ u => u)
    {parts : Int} (hparts : 1 ≤ parts) (v : RevisionVector) (roots : List String)
    (w : Workspace (List Entry)) :
    ∃ ranges ts w', t.range.split parts = .ok ranges ∧ ranges.length = parts.toNat ∧
      t.createPartitioned parts (some v) roots w = (.ok ts, w') ∧
      Made accepts v roots
        (ranges.zipIdx.map fun (range, i) => (t.label ++ "-" ++ toString i, range)) ts w w' := by
  obtain ⟨ranges, hranges, hlength⟩ := t.range.split_eq hparts
  obtain ⟨ts, w', hts, hmade⟩ :=
    mapM_create ht v roots (fun i => t.label ++ "-" ++ toString i) ranges.zipIdx w
  refine ⟨ranges, ts, w', hranges, hlength, ?_, hmade⟩
  rw [createPartitioned, Action.bind_apply]
  simp only [Action.pure_apply, Action.bind_apply, hranges]
  exact hts

theorem collect_seen {r : Repository} {history : List Version} (hr : r.Recorded history)
    (hw : w.repository.Grown history v) {t : Traverser (List Entry)}
    (ht : t.IsPlain accepts fun _ u => u) (hconfig : (t.state w).config = (.of v, roots)) :
    w.Looks (t.collect w).2 ∧
      (t.collect w).2.caller.map Entry.seen = w.caller.map Entry.seen ++
        (r.store.reached v (allows accepts roots) (w.store.opened t.range)).flatMap
          NodeState.delivered := by
  have hpin : (t.state w).pin = .of v := congrArg Prod.fst hconfig
  have hroots : (t.state w).hiddenRoots = roots := congrArg Prod.snd hconfig
  have hcollect := collect_opened ht hw.kept hpin
  have hopened : ∀ item ∈ w.store.opened t.range, item ∈ w.store.catalog.items :=
    fun item hitem => DocumentStore.mem_of_mem_opened hitem
  have hseen := hw.seen_yields hr (allows accepts roots) hopened
  refine ⟨hcollect.toLooks, ?_⟩
  rw [hcollect.caller, List.map_append, hroots]
  exact congrArg (w.caller.map Entry.seen ++ ·) hseen

/-- In each round calls are made, and then the traverser of a number hands over all entries of a
new iteration. Answers with the documents that the scans go through. -/
def rounds (ts : List (Traverser (List Entry))) :
    List (List WriteCall × Nat) → Action (Workspace (List Entry)) (List (List Stored))
  | [] => pure []
  | (calls, i) :: rest => do
    WriteCall.makeAll calls
    match ts[i]? with
    | none => rounds ts rest
    | some t => do
      let w ← Action.get
      let _ ← Action.attempt t.collect
      let later ← rounds ts rest
      pure (w.store.opened t.range :: later)

theorem rounds_eq {r : Repository} {history : List Version} (hr : r.Recorded history)
    {turns : List (List WriteCall × Nat)}
    (hcalls : ∀ turn ∈ turns, ∀ call ∈ turn.1, call.Admissible)
    (hturns : ∀ turn ∈ turns, turn.2 < ts.length) (hw : w.repository.Grown history v)
    (hts : Pinned ts accepts v roots w) :
    ∃ openings w', rounds ts turns w = (.ok openings, w') ∧ openings.length = turns.length ∧
      (∀ items ∈ openings, ∀ item ∈ items, item.document.IsMain ∨ item.document.IsSplitOff) ∧
      w'.caller.map Entry.seen = w.caller.map Entry.seen ++
        (openings.flatMap (r.store.reached v (allows accepts roots))).flatMap
          NodeState.delivered := by
  induction turns generalizing w with
  | nil =>
    refine ⟨[], w, rfl, rfl, fun items hitems => ?_, ?_⟩
    · cases hitems
    · rw [List.flatMap_nil, List.flatMap_nil, List.append_nil]
  | cons turn rest ih =>
    obtain ⟨calls, i⟩ := turn
    obtain ⟨log, hmake⟩ := WriteCall.makeAll_eq calls w
    let w₁ := { w with repository := (WriteCall.performAll calls w.repository).2, log }
    have hmake : WriteCall.makeAll calls w = (.ok (), w₁) := hmake
    have hw₁ : w₁.repository.Grown history v := hw.performAll (hcalls _ List.mem_cons_self)
    have hts₁ : Pinned ts accepts v roots w₁ := hts.of_configs rfl
    have hi : i < ts.length := hturns _ List.mem_cons_self
    obtain ⟨hplain, hconfig⟩ := hts₁ ts[i] (List.getElem_mem hi)
    obtain ⟨hlooks, hseen⟩ := collect_seen hr hw₁ hplain hconfig
    obtain ⟨openings, w₃, hrounds, hlength, harranged, hcaller⟩ :=
      ih (fun turn hturn => hcalls turn (List.mem_cons_of_mem _ hturn))
        (fun turn hturn => hturns turn (List.mem_cons_of_mem _ hturn))
        (hw₁.of_agrees hlooks.repository) (hts₁.of_configs hlooks.configs)
    refine ⟨w₁.store.opened ts[i].range :: openings, w₃, ?_, ?_, ?_, ?_⟩
    · rw [rounds, Action.bind_apply, hmake]
      simp only [List.getElem?_eq_getElem hi, Action.bind_apply, Action.get_apply, Action.attempt,
        hrounds]
      rfl
    · rw [List.length_cons, hlength, List.length_cons]
    · intro items hitems item hitem
      rcases List.mem_cons.1 hitems with rfl | hitems
      · exact hw₁.kept.arranged item (DocumentStore.mem_of_mem_opened hitem)
      · exact harranged items hitems item hitem
    · rw [hcaller, hseen, List.flatMap_cons, List.flatMap_append, List.append_assoc]

theorem collect_created {r : Repository} {history : List Version} (hr : r.Recorded history)
    (hw : w.repository.Grown history v) {t : Traverser (List Entry)}
    (ht : t.IsPlain accepts fun _ u => u) (roots : List String) :
    ∃ t' w', t.create (some v) roots w = (.ok t', w') ∧
      (t'.collect w').2.caller.map Entry.seen = w.caller.map Entry.seen ++
        (r.store.reached v (allows accepts roots) (w.store.opened t.range)).flatMap
          NodeState.delivered := by
  let x : TraverserState := { pin := .of v, hiddenRoots := roots }
  let t' : Traverser (List Entry) := { t with number := w.traversers.length }
  let w' : Workspace (List Entry) := { w with traversers := w.traversers ++ [x] }
  have hstate : t'.state w' = x := state_create t x w
  have ht' : t'.IsPlain accepts fun _ u => u := ⟨ht.delivery, ht.predicate, ht.progress, ht.backend⟩
  obtain ⟨_, hseen⟩ := collect_seen (t := t') (w := w') hr hw ht'
    (congrArg TraverserState.config hstate)
  exact ⟨t', w', create_eq t v roots w, hseen⟩

/-- The parts of a range are scanned in rounds at a snapshot that the writes between them cannot
reach. What they deliver is what a single scan delivers if they get to the same nodes, each as
often, and only then. -/
theorem rounds_created {history : List Version} (hr : w.repository.Recorded history)
    (hv : v.Behind w.repository.writer) (hcaller : w.caller = []) {parts : Int} (hparts : 1 ≤ parts)
    {turns : List (List WriteCall × Nat)}
    (hturns : (turns.map Prod.snd).Perm (List.range parts.toNat))
    (hcalls : ∀ turn ∈ turns, ∀ call ∈ turn.1, call.Admissible) (label : String)
    (range : TimeRange) (accepts : String → Bool) (roots : List String) :
    let t : Traverser (List Entry) := plain label range accepts fun _ u => u
    let reached := w.store.reached v (allows accepts roots)
    ∃ ts w₁ openings w₂ single w₃,
      t.createPartitioned parts (some v) roots w = (.ok ts, w₁) ∧
      rounds ts turns w₁ = (.ok openings, w₂) ∧ openings.length = ts.length ∧
      t.create (some v) roots w = (.ok single, w₃) ∧
      ((w₂.caller.map Entry.seen).Perm ((single.collect w₃).2.caller.map Entry.seen) ↔
        (openings.flatMap reached).Perm (reached (w.store.opened range))) := by
  intro t reached
  have hgrown : w.repository.Grown history v :=
    ⟨hv, [], by rwa [List.append_nil], fun x hx => by cases hx⟩
  have ht : t.IsPlain accepts fun _ u => u := ⟨rfl, rfl, rfl, rfl⟩
  -- The parts.
  obtain ⟨ranges, ts, w₁, _, hranges, hts, hmade⟩ := createPartitioned_eq ht hparts v roots w
  have hlength : ts.length = parts.toNat := by
    have hparts := congrArg List.length hmade.parts
    rwa [List.length_map, List.length_map, List.length_zipIdx, hranges] at hparts
  have hindex : ∀ turn ∈ turns, turn.2 < ts.length := by
    intro turn hturn
    have hmem := hturns.subset (List.mem_map_of_mem hturn)
    rw [hlength]
    exact List.mem_range.1 hmem
  have hgrown₁ : w₁.repository.Grown history v := by
    rw [hmade.repository]
    exact hgrown
  obtain ⟨openings, w₂, hrounds, hlength', harranged, hseen⟩ :=
    rounds_eq hr hcalls hindex hgrown₁ hmade.pinned
  rw [hmade.caller, hcaller, List.map_nil, List.nil_append] at hseen
  -- The single scan.
  obtain ⟨single, w₃, hsingle, hseen₃⟩ := collect_created hr hgrown ht roots
  rw [hcaller, List.map_nil, List.nil_append] at hseen₃
  refine ⟨ts, w₁, openings, w₂, single, w₃, hts, hrounds, ?_, hsingle, ?_⟩
  · have hcount := hturns.length_eq
    rw [List.length_map, List.length_range] at hcount
    rw [hlength', hcount, hlength]
  · rw [hseen, hseen₃]
    -- The single scan counts as one more opening.
    have hall : ∀ items ∈ openings ++ [w.store.opened range], ∀ item ∈ items,
        item.document.IsMain ∨ item.document.IsSplitOff := by
      intro items hitems item hitem
      rcases List.mem_append.1 hitems with hitems | hitems
      · exact harranged items hitems item hitem
      · obtain rfl := List.mem_singleton.1 hitems
        exact hr.kept.arranged item (DocumentStore.mem_of_mem_opened hitem)
    have happend : (openings ++ [w.store.opened range]).flatMap reached =
        openings.flatMap reached ++ reached (w.store.opened range) := by
      rw [List.flatMap_append, List.flatMap_singleton]
    have hinj : ∀ m ∈ openings.flatMap reached ++ reached (w.store.opened range),
        ∀ n ∈ openings.flatMap reached ++ reached (w.store.opened range),
        m.lastRevision = n.lastRevision → m = n := by
      rw [← happend]
      intro m hm n hn hrevision
      exact DocumentStore.reached_inj hr.records hr.nodup hall hm hn hrevision
    exact NodeState.perm_delivered_iff hinj

/-- Once writes have been made, the parts of a range are scanned at the head, each part once and in
any order, with further writes before each scan. Together the scans deliver what a single scan of
the range would have delivered before those writes exactly if they get to the same nodes, each as
often; if all bundles unfold, exactly if the nodes that are found in the parts, each when it is
scanned, are those that were found in the range. -/
theorem rounds_perm_iff {settings : CacheSettings} {store : DocumentStore}
    (hstore : DocumentStore.create settings = .ok store) (cluster : Int) {before : List WriteCall}
    (hbefore : ∀ call ∈ before, call.Admissible) {parts : Int} (hparts : 1 ≤ parts)
    {turns : List (List WriteCall × Nat)}
    (hturns : (turns.map Prod.snd).Perm (List.range parts.toNat))
    (hcalls : ∀ turn ∈ turns, ∀ call ∈ turn.1, call.Admissible) (label : String)
    (range : TimeRange) (accepts : String → Bool) (roots : List String) :
    let w : Workspace (List Entry) := (WriteCall.makeAll before (.start store cluster [])).2
    let t : Traverser (List Entry) := plain label range accepts fun _ u => u
    let found := w.store.found w.head (allows accepts roots)
    let reached := w.store.reached w.head (allows accepts roots)
    ∃ ts w₁ openings w₂ single w₃,
      t.createPartitioned parts (some w.head) roots w = (.ok ts, w₁) ∧
      rounds ts turns w₁ = (.ok openings, w₂) ∧ openings.length = ts.length ∧
      t.create (some w.head) roots w = (.ok single, w₃) ∧
      ((w₂.caller.map Entry.seen).Perm ((single.collect w₃).2.caller.map Entry.seen) ↔
        (openings.flatMap reached).Perm (reached (w.store.opened range))) ∧
      ((∀ path n, w.store.nodeAt path w.head = .ok (some n) → n.descendants.failure = none) →
        ((w₂.caller.map Entry.seen).Perm ((single.collect w₃).2.caller.map Entry.seen) ↔
          (openings.flatten.filterMap found).Perm ((w.store.opened range).filterMap found))) := by
  intro w t found reached
  obtain ⟨log, hmake⟩ := WriteCall.makeAll_eq before (.start store cluster ([] : List Entry))
  have hw : w = { Workspace.start store cluster [] with
      repository := (WriteCall.performAll before ⟨store, { cluster }⟩).2, log } :=
    congrArg Prod.snd hmake
  have hempty := Repository.recorded_create hstore cluster
  have hr := Repository.recorded_performAll hempty hbefore
  obtain ⟨_, hheaded⟩ := Repository.headed_performAll hempty.kept
    (Repository.headed_of_empty store cluster) hbefore
  have hrepository : w.repository = (WriteCall.performAll before ⟨store, { cluster }⟩).2 := by
    rw [hw]
  rw [← hrepository] at hr hheaded
  have hcaller : w.caller = [] := by
    rw [hw]
    rfl
  obtain ⟨ts, w₁, openings, w₂, single, w₃, hts, hrounds, hlength, hsingle, hiff⟩ :=
    rounds_created hr hheaded hcaller hparts hturns hcalls label range accepts roots
  refine ⟨ts, w₁, openings, w₂, single, w₃, hts, hrounds, hlength, hsingle, hiff, ?_⟩
  intro hcomplete
  have hreached : reached = List.filterMap found :=
    funext fun items => DocumentStore.reached_of_complete hcomplete items
  have hflatten : openings.flatMap reached = openings.flatten.filterMap found := by
    rw [hreached, List.filterMap_flatten, List.flatMap_def]
  have hopened : reached (w.store.opened range) = (w.store.opened range).filterMap found := by
    rw [hreached]
  rw [← hflatten, ← hopened]
  exact hiff

theorem rounds_perm_iff_of_moves :
    let before : List WriteCall :=
      [.commit "/a" [("x", .number 1)] .empty (some (.time 1)),
        .commit "/b" [] .empty (some (.time 5))]
    let turns : List (List WriteCall × Nat) :=
      [([], 0), ([.commit "/a" [] .empty (some (.time 5)), .remove "/b" (some (.time 1))], 1)]
    let range : TimeRange := { lower := 0, upper := 10 }
    let w : Workspace (List Entry) := (WriteCall.makeAll before
      (.start { cache := some { limit := some 10000 } } 1 [])).2
    let t : Traverser (List Entry) := plain "part" range (fun _ => true) fun _ u => u
    let found := w.store.found w.head (allows (fun _ => true) [])
    let reached := w.store.reached w.head (allows (fun _ => true) [])
    ∃ ts w₁ openings w₂ single w₃,
      t.createPartitioned 2 (some w.head) [] w = (.ok ts, w₁) ∧
      rounds ts turns w₁ = (.ok openings, w₂) ∧ openings.length = ts.length ∧
      t.create (some w.head) [] w = (.ok single, w₃) ∧
      ((w₂.caller.map Entry.seen).Perm ((single.collect w₃).2.caller.map Entry.seen) ↔
        (openings.flatMap reached).Perm (reached (w.store.opened range))) ∧
      ((∀ path n, w.store.nodeAt path w.head = .ok (some n) → n.descendants.failure = none) →
        ((w₂.caller.map Entry.seen).Perm ((single.collect w₃).2.caller.map Entry.seen) ↔
          (openings.flatten.filterMap found).Perm ((w.store.opened range).filterMap found))) :=
  rounds_perm_iff (show DocumentStore.create {} = .ok _ from rfl) 1 (by decide) (by decide)
    (by decide) (by decide) "part" _ (fun _ => true) []

/-- A write between two scans moves a document into the part that is still to be scanned, and its
node is delivered twice. -/
theorem rounds_not_perm_of_move :
    let w : Workspace (List Entry) := (WriteCall.makeAll
      [.commit "/a" [("x", .number 1)] .empty (some (.time 1))]
      (.start { cache := some { limit := some 10000 } } 1 [])).2
    let t : Traverser (List Entry) :=
      plain "part" { lower := 0, upper := 10 } (fun _ => true) fun _ u => u
    let turns : List (List WriteCall × Nat) :=
      [([], 0), ([.commit "/a" [("x", .number 2)] .empty (some (.time 5))], 1)]
    ∃ ts w₁ single w₂, t.createPartitioned 2 (some w.head) [] w = (.ok ts, w₁) ∧
      t.create (some w.head) [] w = (.ok single, w₂) ∧
      ¬ ((rounds ts turns w₁).2.caller.map Entry.seen).Perm
        ((single.collect w₂).2.caller.map Entry.seen) := by
  intro w t turns
  refine ⟨_, _, _, _, rfl, rfl, fun h => absurd h.length_eq ?_⟩
  decide +kernel

end Traverser

end VersionedTree
