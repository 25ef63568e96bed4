import VersionedTree.Proofs.Scans

/-! # Complete traversals

A traversal that runs to its end without others in between hands all entries that there are to be
yielded to the caller, in order, and fails if the yield does.
-/

namespace VersionedTree

/-- How a traversal ends that yields this. -/
def Yield.outcome {α : Type} (y : Yield α) : Except Failure Unit :=
  match y.failure with
  | some e => .error e
  | none => .ok ()

namespace Workspace

variable {w w' w'' : Workspace (List Entry)} {entries more : List Entry}

/-- The caller takes entries. -/
def gathered (entries : List Entry) (w : Workspace (List Entry)) : Workspace (List Entry) :=
  { w with caller := w.caller ++ entries }

/-- From one workspace to the other documents were read, and the caller took these entries. -/
structure Gathers (entries : List Entry) (w w' : Workspace (List Entry)) : Prop
    extends Looks w w' where
  caller : w'.caller = w.caller ++ entries

theorem Gathers.append (h : w.Gathers entries w') (h' : w'.Gathers more w'') :
    w.Gathers (entries ++ more) w'' := by
  refine ⟨h.toLooks.trans h'.toLooks, ?_⟩
  rw [h'.caller, h.caller, List.append_assoc]

theorem gathers_of_reads (h : w.Reads (fun _ u => u) w') : w.Gathers [] w' := by
  refine ⟨h.toLooks, ?_⟩
  obtain ⟨ids, hids⟩ := h.reported
  have hsame (ids : List String) (u : List Entry) : ids.foldl (fun u _ => u) u = u := by
    induction ids with
    | nil => rfl
    | cons id ids ih => exact ih
  rw [hids, hsame, List.append_nil]

theorem gathers_gathered (w : Workspace (List Entry)) (entries : List Entry) :
    w.Gathers entries (gathered entries w) :=
  ⟨⟨.refl w.repository, List.prefix_refl _, rfl,
    fun ht => ⟨ht.opened, ht.closable, ht.registered⟩⟩, rfl⟩

/-- The caller takes entries one by one, and something is worked out of them. -/
theorem foldlM_gathered {β : Type} {f : β → Entry → Action (Workspace (List Entry)) β}
    {step : β → Entry → β} (hf : ∀ b e w, f b e w = (.ok (step b e), gathered [e] w))
    (entries : List Entry) (b : β) (w : Workspace (List Entry)) :
    entries.foldlM f b w = (.ok (entries.foldl step b), gathered entries w) := by
  induction entries generalizing b w with
  | nil =>
    rw [gathered, List.append_nil]
    rfl
  | cons e entries ih =>
    rw [List.foldlM_cons, Action.bind_apply, hf]
    simp only [ih, gathered, List.append_assoc, List.singleton_append, List.foldl_cons]

theorem available_of_openCursor {υ : Type} {range : TimeRange} {w w' : Workspace υ}
    {opened : Nat × List Stored} (h : openCursor range w = (.ok opened, w')) :
    w.store.available = true := by
  obtain ⟨stream, w₁, hscan, -⟩ := Action.of_bind_eq_ok h
  have hscan : (DocumentStore.openScan range w.store).1 = .ok stream := congrArg Prod.fst hscan
  rw [DocumentStore.openScan_apply] at hscan
  cases hstream : w.store.scannable range with
  | error e =>
    rw [hstream] at hscan
    cases hscan
  | ok items => exact (DocumentStore.of_scannable_eq_ok hstream).1

end Workspace

namespace Traverser

variable {t : Traverser (List Entry)} {accepts : String → Bool} {w : Workspace (List Entry)}
  {scan : Scan} {v : RevisionVector} {β : Type}
  {f : β → Entry → Action (Workspace (List Entry)) β} {step : β → Entry → β}

/-- Hands all entries of a new iteration to the caller. -/
def collect (t : Traverser (List Entry)) : Action (Workspace (List Entry)) Unit :=
  t.fold (fun _ e => Action.modify (Workspace.gathered [e])) ()

theorem foldRest_gathers (ht : t.IsPlain accepts fun _ u => u) (hs : w.store.Sound)
    (ha : w.store.available = true) (hopen : w.IsOpen scan.cursor) {items : List Stored}
    (hissued : ∀ item ∈ items, w.store.Issued item)
    (hf : ∀ b e w, f b e w = (.ok (step b e), Workspace.gathered [e] w)) (produced : Nat) (b : β) :
    let y := visits w.store scan.snapshot accepts scan.hiddenRoots items
    ∃ w', t.foldRest f scan items produced b w =
      (y.outcome.map fun _ => y.items.foldl step b, w') ∧ w.Gathers y.items w' := by
  induction items generalizing w produced b with
  | nil =>
    obtain ⟨w₁, hcomplete, h₁⟩ := ends_complete (fun _ u => u) t scan produced w
    refine ⟨w₁, ?_, Workspace.gathers_of_reads h₁⟩
    rw [foldRest, Action.bind_apply, hcomplete]
    rfl
  | cons item rest ih =>
    obtain ⟨w₁, hvisit, h₁⟩ := ends_visit ht scan hs ha (hissued item List.mem_cons_self)
    have hg₁ : w.Gathers [] w₁ := Workspace.gathers_of_reads h₁
    -- Whatever came of the first document, the rest goes on alike.
    have hrest {entries : List Entry} {w₂ : Workspace (List Entry)} (h₂ : w.Gathers entries w₂)
        (produced : Nat) (b : β) :
        ∃ w', t.foldRest f scan rest produced b w₂ =
          ((visits w.store scan.snapshot accepts scan.hiddenRoots rest).outcome.map fun _ =>
            (visits w.store scan.snapshot accepts scan.hiddenRoots rest).items.foldl step b, w') ∧
          w.Gathers (entries ++
            (visits w.store scan.snapshot accepts scan.hiddenRoots rest).items) w' := by
      obtain ⟨w₃, hfold, h₃⟩ := ih (h₂.store.sound hs) (h₂.store.available.trans ha)
        (hopen.mono h₂.cursors)
        (fun x hx => h₂.store.issued (hissued x (List.mem_cons_of_mem item hx))) produced b
      rw [visits_of_agrees h₂.store] at hfold h₃
      exact ⟨w₃, hfold, h₂.append h₃⟩
    rw [visits_cons]
    generalize visitOutcome w.store scan.snapshot accepts scan.hiddenRoots item = visited
      at hvisit ⊢
    simp only [foldRest, Action.bind_apply, hvisit]
    cases visited with
    | error e =>
      refine ⟨w₁, rfl, ?_⟩
      rw [Yield.append_of_failure rfl]
      exact hg₁
    | ok visited =>
      cases visited with
      | skipped => exact hrest hg₁ produced b
      | dropped =>
        obtain ⟨w₂, hstill, h₂⟩ := Workspace.ends_requireOpen (fun _ u => u)
          (hopen.mono hg₁.cursors)
        simp only [Action.bind_apply, hstill]
        exact hrest (hg₁.append (Workspace.gathers_of_reads h₂)) produced b
      | found first more =>
        obtain ⟨entries, hentries⟩ : ∃ entries,
            (first :: more.states).map (Entry.ofState item.document.modified) = entries := ⟨_, rfl⟩
        have hg₂ : w.Gathers entries (Workspace.gathered entries w₁) :=
          hg₁.append (Workspace.gathers_gathered w₁ entries)
        simp only [Action.bind_apply, Visit.yield, hentries, Workspace.foldlM_gathered hf]
        cases hfailure : more.failure with
        | some e =>
          refine ⟨Workspace.gathered entries w₁, ?_, ?_⟩
          · rw [Yield.append_of_failure rfl]
            rfl
          · rw [Yield.append_of_failure rfl]
            exact hg₂
        | none =>
          obtain ⟨w₃, hstill, h₃⟩ := Workspace.ends_requireOpen (fun _ u => u)
            (hopen.mono hg₂.cursors)
          obtain ⟨w₄, hfold, h₄⟩ := hrest (hg₂.append (Workspace.gathers_of_reads h₃))
            (produced + entries.length) (entries.foldl step b)
          rw [List.append_nil] at h₄
          simp only [Action.bind_apply, hstill]
          refine ⟨w₄, ?_, ?_⟩
          · rw [Yield.append_of_complete rfl, hfold]
            simp only [Yield.outcome, List.foldl_append]
          · rw [Yield.append_of_complete rfl]
            exact h₄

/-- A traversal at a pinned snapshot opens a scan and goes through it. -/
theorem fold_pinned (hpin : (t.state w).pin = .of v)
    (f : β → Entry → Action (Workspace (List Entry)) β) (b : β) :
    ∃ w', w.Reads (fun _ u => u) w' ∧ t.fold f b w = (do
      let scan ← t.openScan v
      Workspace.requireOpen scan.cursor
      t.foldRest f scan scan.remaining 0 b) w' := by
  obtain ⟨w₁, hiterate, h₁⟩ := ends_iterate (fun _ u => u) t w
  obtain ⟨w₂, hask, h₂⟩ := ends_ask (fun _ u => u) ((pin_state h₁ t).trans hpin)
    (t.state w).iterations
  refine ⟨w₂, h₁.trans h₂, ?_⟩
  rw [fold, Action.bind_apply, hiterate]
  simp only [enter, Action.bind_apply, hask]
  rcases t.openScan v w₂ with ⟨_ | _, _⟩ <;> rfl

/-- A complete traversal hands over what visiting the documents delivers, in order. -/
theorem fold_gathers (step : β → Entry → β) (ht : t.IsPlain accepts fun _ u => u)
    (hs : w.store.Sound) (ha : w.store.available = true) (hpin : (t.state w).pin = .of v)
    (htimes : w.store.requireTimes t.range = .ok ())
    (hf : ∀ b e w, f b e w = (.ok (step b e), Workspace.gathered [e] w)) (b : β) :
    let y := visits w.store v accepts (t.state w).hiddenRoots (w.store.select t.range)
    ∃ w', t.fold f b w = (y.outcome.map fun _ => y.items.foldl step b, w') ∧
      w.Gathers y.items w' := by
  obtain ⟨w₁, h₁, hfold⟩ := fold_pinned hpin f b
  have htimes₁ : w₁.store.requireTimes t.range = .ok () := by
    rw [h₁.store.requireTimes, htimes]
  obtain ⟨scan, w₂, hscan, h₂, hopened, hopen⟩ :=
    openScan_eq ht (h₁.store.available.trans ha) htimes₁ v
  obtain ⟨w₃, hstill, h₃⟩ := Workspace.ends_requireOpen (fun _ u => u) hopen
  have h₂₃ : w₁.Reads (fun _ u => u) w₃ := h₂.trans h₃
  have h : w.Reads (fun _ u => u) w₃ := h₁.trans h₂₃
  simp only [Action.bind_apply, hscan, hstill] at hfold
  obtain ⟨w₄, hrest, h₄⟩ := foldRest_gathers ht (h.store.sound hs) (h.store.available.trans ha)
    (hopen.mono h₃.cursors) (hopened.issued (h₁.store.sound hs) h₂₃.toLooks) hf 0 b
  rw [visits_of_agrees h.store, hopened.snapshot, hopened.hiddenRoots, hiddenRoots_state h₁]
    at hrest h₄
  have hremaining : scan.remaining = w.store.select t.range :=
    hopened.remaining.trans (h₁.store.select t.range)
  rw [hremaining] at hfold hrest h₄
  exact ⟨w₄, hfold.trans hrest, (Workspace.gathers_of_reads h).append h₄⟩

theorem fold_refused (ht : t.IsPlain accepts fun _ u => u) (ha : w.store.available = true)
    (hpin : (t.state w).pin = .of v) {e : Failure}
    (htimes : w.store.requireTimes t.range = .error e)
    (f : β → Entry → Action (Workspace (List Entry)) β) (b : β) :
    ∃ w', t.fold f b w = (.error e, w') ∧ w.Gathers [] w' := by
  obtain ⟨w₁, h₁, hfold⟩ := fold_pinned hpin f b
  have htimes₁ : w₁.store.requireTimes t.range = .error e := by
    rw [h₁.store.requireTimes, htimes]
  obtain ⟨w₂, hscan, h₂⟩ := openScan_refused ht (h₁.store.available.trans ha) htimes₁ v
  simp only [Action.bind_apply, hscan] at hfold
  exact ⟨w₂, hfold, Workspace.gathers_of_reads (h₁.trans h₂)⟩

theorem available_of_fold (ht : t.IsPlain accepts fun _ u => u) (hpin : (t.state w).pin = .of v)
    {b b' : β} {w' : Workspace (List Entry)} (h : t.fold f b w = (.ok b', w')) :
    w.store.available = true := by
  obtain ⟨w₁, h₁, hfold⟩ := fold_pinned hpin f b
  rw [h] at hfold
  obtain ⟨scan, w₂, hscan, _⟩ := Action.of_bind_eq_ok hfold.symm
  rw [openScan, ht.backend] at hscan
  obtain ⟨_, _, hget, hscan⟩ := Action.of_bind_eq_ok hscan
  cases hget
  obtain ⟨_, _, hmodify, hscan⟩ := Action.of_bind_eq_ok hscan
  cases hmodify
  obtain ⟨_, _, hcursor, _⟩ := Action.of_bind_eq_ok hscan
  have ha := Workspace.available_of_openCursor hcursor
  exact h₁.store.available.symm.trans ha

/-- A complete traversal of main and previous documents hands over what there is to be yielded when
it begins. -/
theorem collect_gathers (ht : t.IsPlain accepts fun _ u => u) (hk : w.repository.Kept)
    (hpin : (t.state w).pin = .of v) (htimes : w.store.requireTimes t.range = .ok ()) :
    let y := w.store.yields v (allows accepts (t.state w).hiddenRoots) (w.store.select t.range)
    ∃ w', t.collect w = (y.outcome, w') ∧ w.Gathers y.items w' := by
  have harranged : ∀ item ∈ w.store.select t.range,
      item.document.IsMain ∨ item.document.IsSplitOff :=
    fun item hitem => hk.arranged item (List.mem_of_mem_filter hitem)
  have hfold := fold_gathers (fun _ _ => ()) ht hk.sound hk.available hpin htimes
    (fun _ _ _ => rfl) ()
  rw [visits_eq accepts (t.state w).hiddenRoots harranged] at hfold
  obtain ⟨w', hfold, h⟩ := hfold
  refine ⟨w', hfold.trans ?_, h⟩
  cases Yield.outcome _ <;> rfl

end Traverser

namespace DocumentStore

/-- The documents that a scan of a range goes through. It goes through none if it cannot be told of
some document whether it is in the range. -/
def opened (s : DocumentStore) (range : TimeRange) : List Stored :=
  match s.requireTimes range with
  | .ok () => s.select range
  | .error _ => []

theorem mem_of_mem_opened {s : DocumentStore} {range : TimeRange} {item : Stored}
    (h : item ∈ s.opened range) : item ∈ s.catalog.items := by
  rw [opened] at h
  split at h
  · exact List.mem_of_mem_filter h
  · cases h

end DocumentStore

/-- However a traversal ends, it hands over what there is to be yielded of the documents that it
goes through. -/
theorem Traverser.collect_opened {t : Traverser (List Entry)} {accepts : String → Bool}
    {w : Workspace (List Entry)} {v : RevisionVector} (ht : t.IsPlain accepts fun _ u => u)
    (hk : w.repository.Kept) (hpin : (t.state w).pin = .of v) :
    w.Gathers (w.store.yields v (allows accepts (t.state w).hiddenRoots)
      (w.store.opened t.range)).items (t.collect w).2 := by
  rw [DocumentStore.opened]
  cases htimes : w.store.requireTimes t.range with
  | ok =>
    obtain ⟨w', hcollect, h⟩ := collect_gathers ht hk hpin htimes
    rw [hcollect]
    exact h
  | error e =>
    obtain ⟨w', hfold, h⟩ := fold_refused ht hk.available hpin htimes
      (fun _ e => Action.modify (Workspace.gathered [e])) ()
    rw [Traverser.collect, hfold]
    exact h

end VersionedTree
