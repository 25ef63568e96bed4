import VersionedTree.Proofs.Accounts
import VersionedTree.Proofs.Records

/-! # Steps amid other operations

An iteration is taken step by step, up to the next entry or pause, and between two steps anything
may be done with the workspace. What a step does is said once, by `step_cases`.
-/

namespace VersionedTree

namespace Turntaker

variable {υ : Type}

/-- The iteration after a step, with the entry that the step delivered. -/
def after (r : Turntaker υ) : Except Failure Step → Turntaker υ
  | .ok (.entry e it) => { r with entries := r.entries ++ [e], standing := .due it }
  | step => { r with standing := .after step }

/-- A cursor fetches while its iteration pauses. -/
def resting : Except Failure Step → Action (Workspace υ) Unit
  | .ok (.paused it) => setFetching true it
  | _ => pure ()

def stepOn (r : Turntaker υ) (mayPause : Bool) (it : Iteration) :
    Action (Workspace υ) (Turntaker υ) := do
  setFetching false it
  r.settled (← Action.attempt (r.traverser.advance mayPause it))

def step (r : Turntaker υ) (mayPause : Bool) : Action (Workspace υ) (Turntaker υ) :=
  match r.standing with
  | .unbegun => do r.stepOn mayPause (.entering (← r.traverser.iterate))
  | .due it => r.stepOn mayPause it
  | .waiting ticket => r.stepOn mayPause (.entering ticket)
  | .ended _ => pure r

/-- Takes a step after each of these, whatever comes of them. -/
def stepAmid (mayPause : Bool) :
    List (Action (Workspace υ) Unit) → Turntaker υ → Action (Workspace υ) (Turntaker υ)
  | [], r => pure r
  | other :: others, r => do
    let _ ← Action.attempt other
    stepAmid mayPause others (← r.step mayPause)

variable {r : Turntaker υ} {mayPause : Bool} {w : Workspace υ} {P : Ledger → Prop}

@[simp] theorem traverser_after (r : Turntaker υ) (step : Except Failure Step) :
    (r.after step).traverser = r.traverser := by
  rcases step with e | ⟨e, it⟩ | it | ticket | _ <;> rfl

@[simp] theorem closes_after (r : Turntaker υ) (step : Except Failure Step) :
    (r.after step).closes = r.closes := by
  rcases step with e | ⟨e, it⟩ | it | ticket | _ <;> rfl

theorem entries_after (r : Turntaker υ) (step : Except Failure Step) :
    r.entries <+: (r.after step).entries := by
  rcases step with e | ⟨e, it⟩ | it | ticket | _
  · exact List.prefix_rfl
  · exact List.prefix_append _ _
  · exact List.prefix_rfl
  · exact List.prefix_rfl
  · exact List.prefix_rfl

theorem ledger_setFetching (fetching : Bool) (it : Iteration) (w : Workspace υ) :
    (setFetching fetching it w).2.ledger = w.ledger :=
  Workspace.quiet_of_upholds (fun _ => upholds_setFetching fetching it) w

theorem ledger_resting (step : Except Failure Step) (w : Workspace υ) :
    (resting step w).2.ledger = w.ledger := by
  rcases step with e | ⟨e, it⟩ | it | ticket | _
  · rfl
  · rfl
  · exact ledger_setFetching true it w
  · rfl
  · rfl

/-- Who is not to close its traverser ends with what the step came to. -/
theorem settled_apply (hcloses : r.closes = false) (step : Except Failure Step)
    (w : Workspace υ) : r.settled step w = (.ok (r.after step), (resting step w).2) := by
  have hended (failure : Option Failure) :
      r.ended failure w = (.ok { r with standing := .ended failure }, w) := by
    rw [ended, hcloses]
    rfl
  rcases step with e | ⟨e, it⟩ | it | ticket | _
  · exact hended (some e)
  · rfl
  · cases it <;> rfl
  · rfl
  · exact hended none

theorem stepOn_apply (hcloses : r.closes = false) (mayPause : Bool) (it : Iteration)
    (w : Workspace υ) :
    r.stepOn mayPause it w =
      (.ok (r.after (r.traverser.advance mayPause it (setFetching false it w).2).1),
        (resting (r.traverser.advance mayPause it (setFetching false it w).2).1
          (r.traverser.advance mayPause it (setFetching false it w).2).2).2) := by
  have hfetching : setFetching false it w = (.ok (), (setFetching false it w).2) := by
    cases it <;> rfl
  rw [stepOn, Action.bind_apply, hfetching]
  exact settled_apply hcloses _ _

theorem stepOn_eq (hcloses : r.closes = false) (mayPause : Bool) (it : Iteration)
    (w : Workspace υ) :
    ∃ w₁ w₂, w₁.ledger = w.ledger ∧ w₂.ledger = (r.traverser.advance mayPause it w₁).2.ledger ∧
      r.stepOn mayPause it w = (.ok (r.after (r.traverser.advance mayPause it w₁).1), w₂) :=
  ⟨_, _, ledger_setFetching false it w, ledger_resting _ _, stepOn_apply hcloses mayPause it w⟩

/-- A step of an iteration that has ended does nothing. Any other goes on by what `advance` comes
to; for the rest it leaves the ledger alone. -/
theorem step_cases (hcloses : r.closes = false) (mayPause : Bool) (w : Workspace υ) :
    (∃ failure, r.standing = .ended failure ∧ r.step mayPause w = (.ok r, w)) ∨
      ∃ it w₁ w₂, r.standing.Resumes it ∧ w₁.ledger = w.ledger ∧
        w₂.ledger = (r.traverser.advance mayPause it w₁).2.ledger ∧
        r.step mayPause w = (.ok (r.after (r.traverser.advance mayPause it w₁).1), w₂) := by
  rw [step]
  cases r.standing with
  | unbegun =>
    let w₀ := (r.traverser.iterate w).2
    have h₀ : w₀.ledger = w.ledger :=
      Workspace.quiet_of_upholds (fun _ => Traverser.upholds_iterate r.traverser) w
    obtain ⟨w₁, w₂, h₁, h₂, hstep⟩ :=
      stepOn_eq hcloses mayPause (.entering (r.traverser.state w).iterations) w₀
    exact .inr ⟨_, w₁, w₂, .unbegun _, h₁.trans h₀, h₂, hstep⟩
  | due it =>
    obtain ⟨w₁, w₂, h₁, h₂, hstep⟩ := stepOn_eq hcloses mayPause it w
    exact .inr ⟨it, w₁, w₂, .due it, h₁, h₂, hstep⟩
  | waiting ticket =>
    obtain ⟨w₁, w₂, h₁, h₂, hstep⟩ := stepOn_eq hcloses mayPause (.entering ticket) w
    exact .inr ⟨_, w₁, w₂, .waiting ticket, h₁, h₂, hstep⟩
  | ended failure => exact .inl ⟨failure, rfl, rfl⟩

theorem stepAmid_cons {other : Action (Workspace υ) Unit} {r r₁ : Turntaker υ}
    {w w₁ : Workspace υ} (h : r.step mayPause (other w).2 = (.ok r₁, w₁))
    (others : List (Action (Workspace υ) Unit)) :
    stepAmid mayPause (other :: others) r w = stepAmid mayPause others r₁ w₁ := by
  rw [stepAmid, Action.bind_apply, Action.attempt]
  dsimp only
  rw [Action.bind_apply, h]

theorem stepAmid_ended (mayPause : Bool) {failure : Option Failure}
    (h : r.standing = .ended failure) (others : List (Action (Workspace υ) Unit))
    (w : Workspace υ) :
    ∃ w', stepAmid mayPause others r w = (.ok r, w') := by
  induction others generalizing w with
  | nil => exact ⟨w, rfl⟩
  | cons other others ih =>
    have hstep : r.step mayPause (other w).2 = (.ok r, (other w).2) := by
      rw [step, h]
      rfl
    rw [stepAmid_cons hstep]
    exact ih _

theorem step_upholds {t : Traverser υ}
    (hadvance : ∀ it, Workspace.Upholds P (t.advance mayPause it))
    (ht : r.traverser = t) (hcloses : r.closes = false) (h : P w.ledger) :
    ∃ r' w', r.step mayPause w = (.ok r', w') ∧ (r'.traverser = t ∧ r'.closes = false) ∧
      r.entries <+: r'.entries ∧ P w'.ledger := by
  rcases step_cases hcloses mayPause w with
    ⟨failure, -, hstep⟩ | ⟨it, w₁, w₂, -, h₁, h₂, hstep⟩
  · exact ⟨r, w, hstep, ⟨ht, hcloses⟩, List.prefix_rfl, h⟩
  · have hbefore : P w₁.ledger := by rwa [h₁]
    have hnext := hadvance it w₁ hbefore
    rw [ht] at h₂ hstep
    rw [← h₂] at hnext
    exact ⟨_, w₂, hstep, by simp [ht, hcloses], entries_after r _, hnext⟩

theorem entries_step {t : Traverser υ} (ht : r.traverser = t) (hcloses : r.closes = false)
    (mayPause : Bool) (w : Workspace υ) :
    ∃ r' w', r.step mayPause w = (.ok r', w') ∧ (r'.traverser = t ∧ r'.closes = false) ∧
      r.entries <+: r'.entries := by
  have hadvance (it : Iteration) : Workspace.Upholds (fun _ => True) (t.advance mayPause it) :=
    fun _ _ => trivial
  obtain ⟨r', w', hstep, h, hentries, -⟩ := step_upholds hadvance ht hcloses (w := w) trivial
  exact ⟨r', w', hstep, h, hentries⟩

/-- What holds of an iteration that takes its steps amid others: each step keeps it, and so does
what is done between them. -/
theorem stepAmid_keeps {Q : Turntaker υ → Ledger → Prop}
    (hstep : ∀ r w, Q r w.ledger →
      ∃ r' w', r.step mayPause w = (.ok r', w') ∧ Q r' w'.ledger)
    {others : List (Action (Workspace υ) Unit)}
    (hothers : ∀ other ∈ others, ∀ r, Workspace.Upholds (Q r) other) {r : Turntaker υ}
    {w : Workspace υ} (h : Q r w.ledger) :
    ∃ r' w', stepAmid mayPause others r w = (.ok r', w') ∧ Q r' w'.ledger := by
  induction others generalizing r w with
  | nil => exact ⟨r, w, rfl, h⟩
  | cons other others ih =>
    rw [List.forall_mem_cons] at hothers
    obtain ⟨r₁, w₁, hfirst, h₁⟩ := hstep r (other w).2 (hothers.1 r w h)
    obtain ⟨r₂, w₂, hrest, h₂⟩ := ih hothers.2 h₁
    exact ⟨r₂, w₂, (stepAmid_cons hfirst others).trans hrest, h₂⟩

theorem stepAmid_append (mayPause : Bool) (before after : List (Action (Workspace υ) Unit))
    (r : Turntaker υ) :
    stepAmid mayPause (before ++ after) r =
      (stepAmid mayPause before r >>= stepAmid mayPause after) := by
  induction before generalizing r with
  | nil => rfl
  | cons other before ih => simp only [List.cons_append, stepAmid, ih, bind_assoc]

theorem entries_stepAmid {t : Traverser υ} (ht : r.traverser = t) (hcloses : r.closes = false)
    (mayPause : Bool) (others : List (Action (Workspace υ) Unit)) (w : Workspace υ) :
    ∃ r' w', stepAmid mayPause others r w = (.ok r', w') ∧
      (r'.traverser = t ∧ r'.closes = false) ∧ r.entries <+: r'.entries := by
  apply stepAmid_keeps
    (Q := fun r' _ => (r'.traverser = t ∧ r'.closes = false) ∧ r.entries <+: r'.entries)
  · rintro r₁ w₁ ⟨⟨ht₁, hcloses₁⟩, hentries⟩
    obtain ⟨r₂, w₂, hstep, h₂, hmore⟩ := entries_step ht₁ hcloses₁ mayPause w₁
    exact ⟨r₂, w₂, hstep, h₂, hentries.trans hmore⟩
  · exact fun _ _ _ _ h => h
  · exact ⟨⟨ht, hcloses⟩, List.prefix_rfl⟩

/-- Once an iteration has ended, more steps change nothing, and fewer lead to it. -/
theorem stepAmid_of_ended {full r₁ : Turntaker υ} {u w₁ : Workspace υ}
    {other : Action (Workspace υ) Unit} {failure : Option Failure} {k m : Nat}
    (hcloses : r.closes = false)
    (hfull : stepAmid mayPause (List.replicate k other) r w = (.ok full, u))
    (hended : full.standing = .ended failure)
    (h : stepAmid mayPause (List.replicate m other) r w = (.ok r₁, w₁)) :
    r₁.entries <+: full.entries ∧ (∀ failure, r₁.standing = .ended failure → r₁ = full) ∧
      (k ≤ m → r₁ = full) := by
  rcases Nat.le_total m k with hle | hle
  · obtain ⟨j, rfl⟩ := Nat.exists_eq_add_of_le hle
    obtain ⟨_, _, h₁, ⟨-, hcloses₁⟩, -⟩ :=
      entries_stepAmid rfl hcloses mayPause (List.replicate m other) w
    rw [h] at h₁
    cases h₁
    rw [← List.replicate_append_replicate, stepAmid_append, Action.bind_apply, h] at hfull
    dsimp only at hfull
    refine ⟨?_, ?_, ?_⟩
    · obtain ⟨_, _, hrest, -, hentries⟩ :=
        entries_stepAmid rfl hcloses₁ mayPause (List.replicate j other) w₁
      rw [hfull] at hrest
      cases hrest
      exact hentries
    · intro failure₁ hended₁
      obtain ⟨_, hrest⟩ := stepAmid_ended mayPause hended₁ (List.replicate j other) w₁
      rw [hfull] at hrest
      cases hrest
      rfl
    · intro hk
      obtain rfl : j = 0 := by omega
      cases hfull
      rfl
  · obtain ⟨j, rfl⟩ := Nat.exists_eq_add_of_le hle
    rw [← List.replicate_append_replicate, stepAmid_append, Action.bind_apply, hfull] at h
    obtain ⟨_, hrest⟩ := stepAmid_ended mayPause hended (List.replicate j other) u
    obtain rfl : full = r₁ := by
      have hsame := hrest.symm.trans h
      cases hsame
      rfl
    exact ⟨List.prefix_rfl, fun _ _ => rfl, fun _ => rfl⟩

end Turntaker

end VersionedTree
