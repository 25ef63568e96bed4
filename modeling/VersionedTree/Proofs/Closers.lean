import VersionedTree.Proofs.Actions
import VersionedTree.Traversal.Traverser

/-! # Everything registered is closed once

A close attempts the resources that are pending one after the other, the last registered first,
and each in the state that the one before it left. It answers with their failures in that order,
and nothing is pending after it. So over any sequence of registrations and closes a resource is
closed once for each time it was registered, at the first close after that.
-/

namespace VersionedTree

namespace Closer

variable {ρ σ τ : Type}

/-- One attempt at closing a resource, and what came of it. -/
structure Closing (ρ : Type) where
  resource : ρ
  outcome : Except Failure Unit

def Closing.failure? (c : Closing ρ) : Option Failure :=
  match c.outcome with
  | .ok () => none
  | .error e => some e

/-- What a close answers that came to these attempts: it fails if one of them did, and with all
the failures in the order of the attempts. -/
def verdict (closings : List (Closing ρ)) : Except Failure Unit :=
  match closings.filterMap Closing.failure? with
  | [] => .ok ()
  | failures => .error (.unreleased failures)

/-- From one state to the other these attempts were made and nothing else was done, but that each
failure was reported. -/
inductive Closes (release : ρ → Action σ Unit) (report : ρ → Failure → σ → σ) :
    List (Closing ρ) → σ → σ → Prop where
  | nil (s : σ) : Closes release report [] s s
  | closed {r : ρ} {s s₁ s' : σ} {closings : List (Closing ρ)} (h : release r s = (.ok (), s₁))
    (hrest : Closes release report closings s₁ s') :
    Closes release report (⟨r, .ok ()⟩ :: closings) s s'
  | failed {r : ρ} {e : Failure} {s s₁ s' : σ} {closings : List (Closing ρ)}
    (h : release r s = (.error e, s₁)) (hrest : Closes release report closings (report r e s₁) s') :
    Closes release report (⟨r, .error e⟩ :: closings) s s'

section

variable {release : ρ → Action σ Unit} {report : ρ → Failure → σ → σ}

/-- Where nothing fails as long as `P` holds, the close does not fail and `P` holds after it. -/
theorem Closes.succeeds {P : σ → Prop} {closings : List (Closing ρ)} {s s' : σ}
    (h : Closes release report closings s s') (hs : P s)
    (hrelease : ∀ c ∈ closings, ∀ s, P s → ∃ s', release c.resource s = (.ok (), s') ∧ P s') :
    verdict closings = .ok () ∧ P s' := by
  induction h with
  | nil s => exact ⟨rfl, hs⟩
  | @closed r s s₁ s' closings h hrest ih =>
    obtain ⟨hfirst, hothers⟩ := List.forall_mem_cons.1 hrelease
    obtain ⟨s₂, hclosed, hs₂⟩ := hfirst s hs
    obtain rfl : s₂ = s₁ := (Prod.mk.inj (hclosed.symm.trans h)).2
    exact ih hs₂ hothers
  | @failed r e s s₁ s' closings h hrest ih =>
    obtain ⟨s₂, hclosed, -⟩ := hrelease _ List.mem_cons_self s hs
    cases (Prod.mk.inj (hclosed.symm.trans h)).1

/-- All resources are attempted, whatever becomes of the others. -/
theorem exists_closes (release : ρ → Action σ Unit) (report : ρ → Failure → σ → σ)
    (resources : List ρ) (s : σ) :
    ∃ closings s', closings.map Closing.resource = resources ∧
      Closes release report closings s s' ∧
      releaseAll release report resources s = (.ok (closings.filterMap Closing.failure?), s') := by
  induction resources generalizing s with
  | nil => exact ⟨[], s, rfl, .nil s, rfl⟩
  | cons r rest ih =>
    rcases h : release r s with ⟨e | ⟨⟩, s₁⟩
    · -- The failure goes before those to come, and the others are attempted all the same.
      obtain ⟨closings, s', hresources, hcloses, hrest⟩ := ih (report r e s₁)
      refine ⟨⟨r, .error e⟩ :: closings, s', congrArg (r :: ·) hresources, .failed h hcloses, ?_⟩
      simp only [releaseAll, Action.bind_apply, Action.attempt, h, Action.modify_apply, hrest]
      rfl
    · obtain ⟨closings, s', hresources, hcloses, hrest⟩ := ih s₁
      refine ⟨⟨r, .ok ()⟩ :: closings, s', congrArg (r :: ·) hresources, .closed h hcloses, ?_⟩
      simp only [releaseAll, Action.bind_apply, Action.attempt, h, hrest]
      rfl

theorem exists_close (view : σ → Closer ρ) (update : Closer ρ → σ → σ)
    (release : ρ → Action σ Unit) (report : ρ → Failure → σ → σ) (s : σ) :
    ∃ closings s', closings.map Closing.resource = (view s).resources.reverse ∧
      Closes release report closings (update {} s) s' ∧
      close view update release report s = (verdict closings, s') := by
  obtain ⟨closings, s', hresources, hcloses, hall⟩ :=
    exists_closes release report (view s).resources.reverse (update {} s)
  refine ⟨closings, s', hresources, hcloses, ?_⟩
  simp only [close, Action.bind_apply, Action.get_apply, Action.modify_apply, hall, verdict]
  cases closings.filterMap Closing.failure? <;> rfl

end

/-! ## Sequences of registrations and closes -/

/-- A closer beside the state that its resources share, with every attempt made so far at closing
one of them. -/
structure Scope (ρ τ : Type) where
  closer : Closer ρ := {}
  state : τ
  closings : List (Closing ρ) := []

namespace Scope

inductive Call (ρ τ : Type) where
  | register (r : ρ)
  | close
  | use (f : τ → τ)

def Call.isClose : Call ρ τ → Bool
  | .close => true
  | .register _ | .use _ => false

def Call.registered? : Call ρ τ → Option ρ
  | .register r => some r
  | .close | .use _ => none

/-- The resources that are registered between one close and the next, with those before the first
close and those after the last one. -/
def batches (calls : List (Call ρ τ)) : List (List ρ) :=
  (calls.splitOnP Call.isClose).map (List.filterMap Call.registered?)

variable {s : Scope ρ τ} {behave : ρ → Action τ Unit} {report : ρ → Failure → τ → τ}

/-- Closes a resource as it behaves, and puts down what came of it. -/
def release (behave : ρ → Action τ Unit) (r : ρ) : Action (Scope ρ τ) Unit := fun s =>
  match behave r s.state with
  | (outcome, state) => (outcome, { s with state, closings := s.closings ++ [⟨r, outcome⟩] })

def close (behave : ρ → Action τ Unit) (report : ρ → Failure → τ → τ) :
    Action (Scope ρ τ) Unit :=
  Closer.close Scope.closer (fun closer s => { s with closer }) (release behave)
    fun r e s => { s with state := report r e s.state }

def perform (behave : ρ → Action τ Unit) (report : ρ → Failure → τ → τ) :
    Call ρ τ → Scope ρ τ → Scope ρ τ
  | .register r, s => { s with closer := s.closer.register r }
  | .close, s => (close behave report s).2
  | .use f, s => { s with state := f s.state }

def run (behave : ρ → Action τ Unit) (report : ρ → Failure → τ → τ) (calls : List (Call ρ τ))
    (s : Scope ρ τ) : Scope ρ τ :=
  calls.foldl (fun s call => perform behave report call s) s

theorem batches_close (calls : List (Call ρ τ)) :
    batches (.close :: calls) = [] :: batches calls := by
  have hclose : (Call.close : Call ρ τ).isClose = true := rfl
  rw [batches, List.splitOnP_cons_eq_if_modifyHead, if_pos hclose]
  rfl

theorem batches_of_not_isClose {call : Call ρ τ} (h : call.isClose = false)
    (calls : List (Call ρ τ)) :
    batches (call :: calls) = (batches calls).modifyHead (call.registered?.toList ++ ·) := by
  have hopen : ¬ call.isClose = true := by rw [h]; exact Bool.false_ne_true
  rw [batches, batches, List.splitOnP_cons_eq_if_modifyHead, if_neg hopen]
  rcases List.splitOnP Call.isClose calls with _ | ⟨first, more⟩
  · rfl
  · simp only [List.modifyHead_cons, List.map_cons, List.filterMap_cons]
    cases call.registered? <;> rfl

theorem closes_of_recorded {closings : List (Closing ρ)} {s s' : Scope ρ τ}
    (h : Closes (release behave) (fun r e s => { s with state := report r e s.state })
      closings s s') :
    s'.closer = s.closer ∧ s'.closings = s.closings ++ closings ∧
      Closes behave report closings s.state s'.state := by
  induction h with
  | nil s => exact ⟨rfl, (List.append_nil _).symm, .nil _⟩
  | @closed r s s₁ s' closings h hrest ih =>
    obtain ⟨houtcome, rfl⟩ := Prod.mk.inj h
    obtain ⟨hcloser, hclosings, hcloses⟩ := ih
    refine ⟨hcloser, ?_, .closed (Prod.ext houtcome rfl) hcloses⟩
    rw [hclosings, houtcome, List.append_assoc]
    rfl
  | @failed r e s s₁ s' closings h hrest ih =>
    obtain ⟨houtcome, rfl⟩ := Prod.mk.inj h
    obtain ⟨hcloser, hclosings, hcloses⟩ := ih
    refine ⟨hcloser, ?_, .failed (Prod.ext houtcome rfl) hcloses⟩
    rw [hclosings, houtcome, List.append_assoc]
    rfl

/-- What is pending is closed, the last registered first, and nothing else; then nothing is. -/
theorem exists_closings (behave : ρ → Action τ Unit) (report : ρ → Failure → τ → τ)
    (s : Scope ρ τ) :
    ∃ closings state, closings.map Closing.resource = s.closer.resources.reverse ∧
      Closes behave report closings s.state state ∧
      close behave report s = (verdict closings, ⟨{}, state, s.closings ++ closings⟩) := by
  obtain ⟨closings, ⟨closer, state, journal⟩, hresources, hrecorded, hclose⟩ :=
    exists_close Scope.closer (fun closer s => { s with closer }) (release behave)
      (fun r e s => { s with state := report r e s.state }) s
  obtain ⟨rfl, rfl, hcloses⟩ := closes_of_recorded hrecorded
  exact ⟨closings, state, hresources, hcloses, hclose⟩

/-- As long as one is registered, the resource registered last is taken off and closed. -/
inductive Drains (behave : ρ → Action τ Unit) (report : ρ → Failure → τ → τ) :
    Scope ρ τ → Scope ρ τ → Prop where
  | empty (state : τ) (closings : List (Closing ρ)) :
    Drains behave report ⟨{}, state, closings⟩ ⟨{}, state, closings⟩
  | closed {r : ρ} {rest : List ρ} {state : τ} {closings : List (Closing ρ)} {s₁ s' : Scope ρ τ}
    (h : release behave r ⟨⟨rest⟩, state, closings⟩ = (.ok (), s₁))
    (hrest : Drains behave report s₁ s') :
    Drains behave report ⟨⟨rest ++ [r]⟩, state, closings⟩ s'
  | failed {r : ρ} {rest : List ρ} {state : τ} {closings : List (Closing ρ)} {e : Failure}
    {s₁ s' : Scope ρ τ} (h : release behave r ⟨⟨rest⟩, state, closings⟩ = (.error e, s₁))
    (hrest : Drains behave report { s₁ with state := report r e s₁.state } s') :
    Drains behave report ⟨⟨rest ++ [r]⟩, state, closings⟩ s'

theorem drains_of_closes {closings : List (Closing ρ)} {state state' : τ}
    (h : Closes behave report closings state state') (journal : List (Closing ρ)) :
    Drains behave report ⟨⟨(closings.map Closing.resource).reverse⟩, state, journal⟩
      ⟨{}, state', journal ++ closings⟩ := by
  induction h generalizing journal with
  | nil state =>
    rw [List.append_nil]
    exact .empty state journal
  | @closed r state state₁ state' closings h hrest ih =>
    rw [List.map_cons, List.reverse_cons, List.append_cons journal]
    exact .closed (by rw [release, h]) (ih (journal ++ [⟨r, .ok ()⟩]))
  | @failed r e state state₁ state' closings h hrest ih =>
    rw [List.map_cons, List.reverse_cons, List.append_cons journal]
    exact .failed (by rw [release, h]) (ih (journal ++ [⟨r, .error e⟩]))

/-- As a resource that is closed registers none, it makes no difference that a close takes all of
them at its beginning. -/
theorem drains_close (behave : ρ → Action τ Unit) (report : ρ → Failure → τ → τ)
    (s : Scope ρ τ) : Drains behave report s (close behave report s).2 := by
  obtain ⟨closings, state, hresources, hcloses, hclose⟩ := exists_closings behave report s
  have hdrains := drains_of_closes hcloses s.closings
  rw [hresources, List.reverse_reverse] at hdrains
  rw [hclose]
  exact hdrains

theorem close_of_nil (behave : ρ → Action τ Unit) (report : ρ → Failure → τ → τ) (state : τ)
    (closings : List (Closing ρ)) :
    close behave report ⟨{}, state, closings⟩ = (.ok (), ⟨{}, state, closings⟩) := rfl

/-- Every batch but the last was closed, and the last is pending. -/
theorem exists_earlier (behave : ρ → Action τ Unit) (report : ρ → Failure → τ → τ)
    (calls : List (Call ρ τ)) (s : Scope ρ τ) :
    ∃ earlier, (batches calls).modifyHead (s.closer.resources ++ ·) =
        earlier ++ [(run behave report calls s).closer.resources] ∧
      (run behave report calls s).closings.map Closing.resource =
        s.closings.map Closing.resource ++ earlier.flatMap List.reverse := by
  induction calls generalizing s with
  | nil =>
    refine ⟨[], ?_, (List.append_nil _).symm⟩
    show [s.closer.resources ++ []] = [s.closer.resources]
    rw [List.append_nil]
  | cons call calls ih =>
    cases call with
    | register r =>
      obtain ⟨earlier, hbatches, hclosings⟩ := ih { s with closer := s.closer.register r }
      refine ⟨earlier, ?_, hclosings⟩
      refine Eq.trans ?_ hbatches
      rw [batches_of_not_isClose rfl, List.modifyHead_modifyHead]
      simp [register, Function.comp_def, Call.registered?]
    | use f =>
      obtain ⟨earlier, hbatches, hclosings⟩ := ih { s with state := f s.state }
      refine ⟨earlier, ?_, hclosings⟩
      refine Eq.trans ?_ hbatches
      rw [batches_of_not_isClose rfl, List.modifyHead_modifyHead]
      rfl
    | close =>
      -- The batch that it ends is closed now, and the calls go on with nothing pending.
      obtain ⟨closings, state, hresources, -, hclose⟩ := exists_closings behave report s
      have hrun : run behave report (.close :: calls) s =
          run behave report calls ⟨{}, state, s.closings ++ closings⟩ := by
        show run behave report calls (close behave report s).2 = _
        rw [hclose]
      obtain ⟨earlier, hbatches, hclosings⟩ := ih ⟨{}, state, s.closings ++ closings⟩
      have hnone : (batches calls).modifyHead (([] : List ρ) ++ ·) = batches calls := by
        cases batches calls <;> rfl
      rw [hrun]
      refine ⟨s.closer.resources :: earlier, ?_, ?_⟩
      · rw [batches_close, List.modifyHead_cons, List.append_nil, ← hnone, hbatches]
        rfl
      · rw [hclosings, List.map_append, hresources, List.flatMap_cons, List.append_assoc]

end Scope

end Closer

/-! ## Closing a traverser -/

namespace Traverser

variable {υ : Type} {t : Traverser υ} {w : Workspace υ}

def closeFailed (t : Traverser υ) (number : Nat) (e : Failure) (w : Workspace υ) : Workspace υ :=
  Workspace.noted (.closeFailed (t.cursorName w number) e.message) w

def emptied (t : Traverser υ) : Workspace υ → Workspace υ :=
  t.modifyState fun s => { s with closer := {} }

theorem exists_closings (t : Traverser υ) (w : Workspace υ) :
    ∃ closings w', closings.map Closer.Closing.resource = (t.state w).closer.resources.reverse ∧
      Closer.Closes Workspace.closeCursor t.closeFailed closings (t.emptied w) w' ∧
      t.close w = (Closer.verdict closings,
        if (Closer.verdict closings).isOk ∧ t.delivery = .nodes ∧
            (t.state w).closer.pending ≠ 0 then
          Workspace.noted (.traverserClosed t.label (t.state w).closer.pending) w'
        else w') := by
  obtain ⟨closings, w', hcursors, hcloses, hclose⟩ := Closer.exists_close
    (fun w => (t.state w).closer) (fun closer => t.modifyState fun s => { s with closer })
    Workspace.closeCursor t.closeFailed w
  refine ⟨closings, w', hcursors, hcloses, ?_⟩
  unfold closeFailed at hclose
  simp only [close, Action.bind_apply, Action.get_apply, hclose]
  rcases Closer.verdict closings with e | ⟨⟩
  · rfl
  · dsimp only
    by_cases h : t.delivery = .nodes ∧ (t.state w).closer.pending ≠ 0
    · rw [if_pos h, if_pos ⟨rfl, h⟩]
      rfl
    · rw [if_neg h, if_neg fun hall => h hall.2]
      rfl

/-- A traverser whose cursors do not fail to close as long as `P` holds does not fail either. -/
theorem close_succeeds {P : Workspace υ → Prop} (hemptied : P (t.emptied w))
    (hclose : ∀ i ∈ (t.state w).closer.resources, ∀ w, P w →
      ∃ w', Workspace.closeCursor i w = (.ok (), w') ∧ P w')
    (hnoted : ∀ w e, P w → P (Workspace.noted e w)) : ∃ w', t.close w = (.ok (), w') ∧ P w' := by
  obtain ⟨closings, w', hcursors, hcloses, heq⟩ := exists_closings t w
  obtain ⟨hverdict, hw'⟩ := hcloses.succeeds hemptied fun c hc => by
    refine hclose c.resource (List.mem_reverse.1 ?_)
    rw [← hcursors]
    exact List.mem_map_of_mem hc
  rw [hverdict] at heq
  refine ⟨_, heq, ?_⟩
  split
  · exact hnoted w' _ hw'
  · exact hw'

theorem emptied_of_nil (h : (t.state w).closer.resources = []) : t.emptied w = w := by
  have hsame : w.traversers.modify t.number (fun s => { s with closer := {} }) = w.traversers := by
    rw [state, Workspace.traverser, List.getD_eq_getElem?_getD] at h
    cases hx : w.traversers[t.number]? with
    | none => exact List.modify_eq_self (List.getElem?_eq_none_iff.1 hx)
    | some x =>
      rw [hx, Option.getD_some] at h
      have hcloser : ({} : Closer Nat) = x.closer := congrArg Closer.mk h.symm
      obtain ⟨hn, hget⟩ := List.getElem?_eq_some_iff.1 hx
      rw [List.modify_eq_set, hx, Option.getD_some, hcloser, ← hget, List.set_getElem_self]
  rw [emptied, modifyState, Workspace.modifyTraverser, hsame]

theorem close_of_nil (h : (t.state w).closer.resources = []) : t.close w = (.ok (), w) := by
  obtain ⟨closings, w', hcursors, hcloses, hclose⟩ := exists_closings t w
  rw [h] at hcursors
  obtain rfl : closings = [] := List.map_eq_nil_iff.1 hcursors
  rw [emptied_of_nil h] at hcloses
  cases hcloses
  have hpending : (t.state w).closer.pending = 0 := congrArg List.length h
  rw [hclose, hpending, if_neg fun hall => hall.2.2 rfl]
  rfl

end Traverser

end VersionedTree
