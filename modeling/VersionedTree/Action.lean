import VersionedTree.Failure

/-!
# Actions

An action on a state answers or fails, and leaves a state in both cases: what was done before a
failure stays done.
-/

namespace VersionedTree

/-- A computation on a state of type `σ` that answers with an `α` or fails. -/
def Action (σ α : Type) : Type := σ → Except Failure α × σ

namespace Action

variable {σ τ α β : Type}

instance : Inhabited (Action σ α) := ⟨fun s => (.error default, s)⟩

instance : Monad (Action σ) where
  pure a := fun s => (.ok a, s)
  bind x f := fun s =>
    match x s with
    | (.ok a, s') => f a s'
    | (.error e, s') => (.error e, s')

@[simp] theorem pure_apply (a : α) (s : σ) : (pure a : Action σ α) s = (.ok a, s) := rfl

theorem bind_apply (x : Action σ α) (f : α → Action σ β) (s : σ) :
    (x >>= f) s = match x s with
      | (.ok a, s') => f a s'
      | (.error e, s') => (.error e, s') := rfl

instance : LawfulMonad (Action σ) := LawfulMonad.mk' _
  (fun x => by
    funext s
    show (match x s with
      | (.ok a, s') => (Except.ok (id a), s')
      | (.error e, s') => (.error e, s')) = x s
    rcases x s with ⟨_ | _, _⟩ <;> rfl)
  (fun _ _ => rfl)
  (fun x f g => by
    funext s
    simp only [bind_apply]
    rcases x s with ⟨_ | _, _⟩ <;> rfl)

def fail (e : Failure) : Action σ α := fun s => (.error e, s)

@[simp] theorem fail_apply (e : Failure) (s : σ) : (fail e : Action σ α) s = (.error e, s) := rfl

def get : Action σ σ := fun s => (.ok s, s)

@[simp] theorem get_apply (s : σ) : (get : Action σ σ) s = (.ok s, s) := rfl

def modify (f : σ → σ) : Action σ Unit := fun s => (.ok (), f s)

@[simp] theorem modify_apply (f : σ → σ) (s : σ) : modify f s = (.ok (), f s) := rfl

def ofExcept : Except Failure α → Action σ α
  | .ok a => pure a
  | .error e => fail e

instance : MonadLift (Except Failure) (Action σ) := ⟨ofExcept⟩

/-- Answers with the outcome of an action, which may be a failure. -/
def attempt (x : Action σ α) : Action σ (Except Failure α) := fun s =>
  match x s with
  | (r, s') => (.ok r, s')

/-- Runs `x`, then `release`, whether `x` failed or not. A failure of `release` counts for more
than one of `x`. -/
def guarded (x : Action σ α) (release : Action σ Unit) : Action σ α := do
  let outcome ← attempt x
  release
  ofExcept outcome

def zoom (view : τ → σ) (update : σ → τ → τ) (x : Action σ α) : Action τ α := fun t =>
  match x (view t) with
  | (r, s) => (r, update s t)

end Action

end VersionedTree
