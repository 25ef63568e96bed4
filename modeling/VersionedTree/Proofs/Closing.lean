import VersionedTree.Proofs.Closers
import VersionedTree.Proofs.Gathering

/-! # Closing what was opened

A traverser closes the cursors that it registered. In a tidy workspace none of them fails, and the
workspace stays tidy. So a traversal that closes its traverser at the end ends as it would without
doing so, and others can follow it.
-/

namespace VersionedTree

theorem Cursor.Closable.outcome_close {c : Cursor} (h : c.Closable) :
    outcome c.close.1 = .ok () := by
  have hfailures : c.close.1.filterMap Release.failure = [] := by
    rw [List.filterMap_eq_nil_iff]
    intro r hr
    rw [close, h.1] at hr
    split at hr
    · cases hr
    · exact h.2 r hr
  rw [outcome, hfailures]
  rfl

namespace Workspace

section

variable {υ : Type} {w : Workspace υ}

theorem released_agrees (r : Release) (w : Workspace υ) :
    w.store.Agrees (released r w).store := by
  rw [released]
  split
  · exact DocumentStore.agrees_of_cache rfl rfl rfl fun cache h => ⟨cache, h, fun _ => .inl⟩
  · exact .refl _
  · exact .refl _

theorem closeCursor_eq (n : Nat) (w : Workspace υ) :
    ∃ store, w.store.Agrees store ∧ closeCursor n w =
      (Cursor.outcome (w.cursor n).close.1,
        { modifyCursor n (fun _ => (w.cursor n).close.2) w with repository.store := store }) := by
  have hreleases (releases : List Release) (w : Workspace υ) : ∃ store, w.store.Agrees store ∧
      releases.foldl (fun w r => released r w) w = { w with repository.store := store } := by
    induction releases generalizing w with
    | nil => exact ⟨w.store, .refl _, rfl⟩
    | cons r releases ih =>
      obtain ⟨store, hstore, hfold⟩ := ih (released r w)
      refine ⟨store, (released_agrees r w).trans hstore, ?_⟩
      rw [List.foldl_cons, hfold, released]
      split <;> rfl
  obtain ⟨store, hstore, hfold⟩ :=
    hreleases (w.cursor n).close.1 (modifyCursor n (fun _ => (w.cursor n).close.2) w)
  refine ⟨store, hstore, ?_⟩
  simp only [closeCursor, Action.bind_apply, Action.get_apply, Action.modify_apply, hfold]
  cases Cursor.outcome (w.cursor n).close.1 <;> rfl

theorem Tidy.closable_cursor {n m i : Nat} (h : w.Tidy n m) (hi : m ≤ i) :
    (w.cursor i).Closable := by
  rw [cursor, List.getD_eq_getElem?_getD]
  cases hc : w.cursors[i]? with
  | none => exact ⟨rfl, fun r hr => by cases hr⟩
  | some c => exact h.closable i c hi hc

theorem Tidy.modifyCursor {n m i : Nat} (h : w.Tidy n m) {f : Cursor → Cursor}
    (hf : ∀ c, c.Closable → (f c).Closable) : (modifyCursor i f w).Tidy n m := by
  refine ⟨?_, fun j c hj hget => ?_, h.registered⟩
  · rw [Workspace.modifyCursor, List.length_modify]
    exact h.opened
  · rw [Workspace.modifyCursor, List.getElem?_modify] at hget
    obtain ⟨c', hc', rfl⟩ := Option.map_eq_some_iff.1 hget
    have hclosable : c'.Closable := h.closable j c' hj hc'
    split
    · exact hf c' hclosable
    · exact hclosable

end

variable {w w' w'' : Workspace (List Entry)} {entries more : List Entry}

/-- From one workspace to the other documents were read, cursors opened and closed, and the caller
took these entries. -/
structure Serves (entries : List Entry) (w w' : Workspace (List Entry)) : Prop where
  repository : w.repository.Agrees w'.repository
  configs : w'.traversers.map TraverserState.config = w.traversers.map TraverserState.config
  tidy : ∀ {n m}, w.Tidy n m → w'.Tidy n m
  caller : w'.caller = w.caller ++ entries

theorem Serves.append (h : w.Serves entries w') (h' : w'.Serves more w'') :
    w.Serves (entries ++ more) w'' := by
  refine ⟨Trans.trans h.repository h'.repository, h'.configs.trans h.configs,
    fun ht => h'.tidy (h.tidy ht), ?_⟩
  rw [h'.caller, h.caller, List.append_assoc]

theorem Gathers.serves (h : w.Gathers entries w') : w.Serves entries w' :=
  ⟨h.repository, h.configs, h.tidy, h.caller⟩

theorem Looks.serves (h : w.Looks w') (hcaller : w'.caller = w.caller) : w.Serves [] w' :=
  ⟨h.repository, h.configs, h.tidy, by rw [hcaller, List.append_nil]⟩

theorem closeCursor_serves {n m i : Nat} (h : w.Tidy n m) (hi : m ≤ i) :
    ∃ w', closeCursor i w = (.ok (), w') ∧ w.Serves [] w' := by
  obtain ⟨store, hstore, hclose⟩ := closeCursor_eq i w
  have hclosable : (w.cursor i).Closable := h.closable_cursor hi
  rw [hclosable.outcome_close] at hclose
  refine ⟨_, hclose, ⟨hstore, rfl⟩, rfl, fun ht => ?_, (List.append_nil _).symm⟩
  have hclosed := ht.modifyCursor (i := i) (f := fun _ => (w.cursor i).close.2) fun _ _ => hclosable
  exact ⟨hclosed.opened, hclosed.closable, hclosed.registered⟩

end Workspace

namespace Traverser

variable {t : Traverser (List Entry)} {accepts : String → Bool} {w : Workspace (List Entry)}
  {v : RevisionVector} {n m : Nat} {β : Type}
  {f : β → Entry → Action (Workspace (List Entry)) β}

theorem registered_state {υ : Type} {t : Traverser υ} {w : Workspace υ} (h : w.Tidy n m)
    (hn : n ≤ t.number) : ∀ i ∈ (t.state w).closer.resources, m ≤ i := by
  rw [state, Workspace.traverser, List.getD_eq_getElem?_getD]
  cases hx : w.traversers[t.number]? with
  | none => exact fun i hi => by cases hi
  | some x => exact h.registered t.number x hn hx

theorem close_serves (h : w.Tidy n m) (hn : n ≤ t.number) :
    ∃ w', t.close w = (.ok (), w') ∧ w.Serves [] w' := by
  refine close_succeeds ?_ (fun i hi w₁ h₁ => ?_) fun w₁ e h₁ => ?_
  · refine ⟨.refl _, Workspace.map_modifyTraverser fun _ _ => rfl, fun ht => ?_,
      (List.append_nil _).symm⟩
    exact ht.modifyTraverser fun _ c hc => by cases hc
  · obtain ⟨w₂, hclose, h₂⟩ := Workspace.closeCursor_serves (h₁.tidy h) (registered_state h hn i hi)
    exact ⟨w₂, hclose, h₁.append h₂⟩
  · exact h₁.append ((Workspace.looks_noted e w₁).serves rfl)

/-- A complete traversal that closes the traverser at its end. -/
theorem guarded_fold_serves (step : β → Entry → β) (ht : t.IsPlain accepts fun _ u => u)
    (hs : w.store.Sound) (ha : w.store.available = true) (hpin : (t.state w).pin = .of v)
    (htimes : w.store.requireTimes t.range = .ok ()) (htidy : w.Tidy n m) (hn : n ≤ t.number)
    (hf : ∀ b e w, f b e w = (.ok (step b e), Workspace.gathered [e] w)) (b : β) :
    let y := visits w.store v accepts (t.state w).hiddenRoots (w.store.select t.range)
    ∃ w', Action.guarded (t.fold f b) t.close w =
      (y.outcome.map fun _ => y.items.foldl step b, w') ∧ w.Serves y.items w' := by
  intro y
  obtain ⟨w₁, hfold, h₁⟩ := fold_gathers step ht hs ha hpin htimes hf b
  obtain ⟨w₂, hclose, h₂⟩ := close_serves (h₁.tidy htidy) hn
  have h : w.Serves (y.items ++ []) w₂ := h₁.serves.append h₂
  rw [List.append_nil] at h
  refine ⟨w₂, ?_, h⟩
  simp only [Action.guarded, Action.bind_apply, Action.attempt, hfold, hclose]
  cases y.outcome.map _ <;> rfl

end Traverser

end VersionedTree
