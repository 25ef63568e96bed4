import VersionedTree.Action

/-!
# Scoped release

A closer registers resources and releases them together, the last one first. Every resource is
attempted whatever becomes of the others, and a repeated close finds nothing left.
-/

namespace VersionedTree

/-- Resources registered and not yet closed, oldest first. -/
structure Closer (ρ : Type) where
  resources : List ρ := []
  deriving Inhabited

namespace Closer

variable {ρ σ : Type}

def register (c : Closer ρ) (r : ρ) : Closer ρ := ⟨c.resources ++ [r]⟩

def pending (c : Closer ρ) : Nat := c.resources.length

/-- Closes resources one after the other; answers with the failures, in the order they came. -/
def releaseAll (release : ρ → Action σ Unit) (report : ρ → Failure → σ → σ) :
    List ρ → Action σ (List Failure)
  | [] => pure []
  | r :: rest => do
    match ← Action.attempt (release r) with
    | .ok () => releaseAll release report rest
    | .error e =>
      Action.modify (report r e)
      return e :: (← releaseAll release report rest)

/-- Closes all that is registered with the closer that `view` finds in the state, last registered
first. Each failure is reported; any failure makes the whole fail. What is to be closed is taken
once, at the beginning: a resource that is registered by the release of another one is left to the
next close, where a loop up to an empty registry would close it, too, and might never end. The two
are the same where releases register nothing; closing a cursor registers nothing. -/
def close (view : σ → Closer ρ) (update : Closer ρ → σ → σ) (release : ρ → Action σ Unit)
    (report : ρ → Failure → σ → σ) : Action σ Unit := do
  let s ← Action.get
  Action.modify (update {})
  let failures ← releaseAll release report (view s).resources.reverse
  if failures.isEmpty then pure () else Action.fail (.unreleased failures)

end Closer

end VersionedTree
