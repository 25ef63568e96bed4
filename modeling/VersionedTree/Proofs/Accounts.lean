import VersionedTree.Proofs.Ledgers

/-! # Balanced accounts

Whatever is done with a workspace, the store's count of open cursors is the number of cursors that
were opened and not closed, and its count of queries the number of those that were opened. An
operation puts calls together in any way; functions that are passed to a call are operations too.
-/

namespace VersionedTree

namespace Ledger

variable {l : Ledger} {n i : Nat}

/-- The store's counts are those of the cursors, and closing an open cursor is counted once. -/
structure Balanced (l : Ledger) : Prop where
  openCursors : l.openCursors = l.cursors.countP (!·.1)
  queries : l.queries = l.cursors.length
  counted : ∀ parts, (false, parts) ∈ l.cursors → parts.count .count = 1

theorem Balanced.modifyHolding (h : l.Balanced) (n : Nat) (f : Holding → Holding) :
    (l.modifyHolding n f).Balanced := ⟨h.openCursors, h.queries, h.counted⟩

theorem Balanced.enrolled (h : l.Balanced) (x : Holding) : (l.enrolled x).Balanced :=
  ⟨h.openCursors, h.queries, h.counted⟩

theorem Balanced.opened (h : l.Balanced) : l.opened.Balanced where
  openCursors := by
    rw [Ledger.opened, List.countP_append, ← h.openCursors]
    rfl
  queries := by
    rw [Ledger.opened, List.length_append, ← h.queries]
    rfl
  counted := by
    intro parts hparts
    rcases List.mem_append.1 hparts with hparts | hparts
    · exact h.counted parts hparts
    · cases List.mem_singleton.1 hparts
      rfl

theorem Balanced.closed (h : l.Balanced) (i : Nat) : (l.closed i).Balanced := by
  rw [Ledger.closed]
  split
  · rename_i parts hget
    obtain ⟨hi, hparts⟩ := List.getElem?_eq_some_iff.1 hget
    have hcount : parts.count .count = 1 := h.counted parts (List.mem_of_getElem? hget)
    refine ⟨?_, ?_, fun parts' hparts' => ?_⟩
    · rw [List.countP_set hi, hparts, hcount, h.openCursors]
      rfl
    · rw [List.length_set, h.queries]
    · rcases List.mem_or_eq_of_mem_set hparts' with hparts' | heq
      · exact h.counted parts' hparts'
      · cases heq
  · exact h
  · exact h

theorem Balanced.settled (h : l.Balanced) (n : Nat) : (l.settled n).Balanced := by
  have hall (cursors : List Nat) {l : Ledger} (h : l.Balanced) :
      (cursors.foldl Ledger.closed l).Balanced := by
    induction cursors generalizing l with
    | nil => exact h
    | cons i rest ih => exact ih (h.closed i)
  exact hall _ (h.modifyHolding n _)

/-- No entry into the ledger makes it untrue. -/
structure Stable (P : Ledger → Prop) : Prop where
  enrolled : ∀ l x, x.cursors = [] → P l → P (l.enrolled x)
  opened : ∀ l, P l → P l.opened
  repinned : ∀ l n pin, P l → P (l.repinned n pin)
  scanned : ∀ l n, P l → P (l.scanned n)
  closed : ∀ l i, P l → P (l.closed i)
  settled : ∀ l n, P l → P (l.settled n)

theorem stable_balanced : Stable Balanced where
  enrolled _ x _ h := h.enrolled x
  opened _ h := h.opened
  repinned _ n _ h := h.modifyHolding n _
  scanned _ n h := h.opened.modifyHolding n _
  closed _ i h := h.closed i
  settled _ n h := h.settled n

end Ledger

namespace Workspace

variable {υ : Type}

/-- What a client can do with a workspace, at any time and in any order. What is done next may
depend on the answers. -/
inductive Operation : {α : Type} → Action (Workspace υ) α → Prop where
  | pure {α : Type} (a : α) : Operation (Pure.pure a)
  | fail {α : Type} (e : Failure) : Operation (Action.fail e : Action (Workspace υ) α)
  | bind {α β : Type} {x : Action (Workspace υ) α} {f : α → Action (Workspace υ) β}
    (hx : Operation x) (hf : ∀ a, (∃ w w', x w = (.ok a, w')) → Operation (f a)) :
    Operation (x >>= f)
  | attempt {α : Type} {x : Action (Workspace υ) α} (hx : Operation x) :
    Operation (Action.attempt x)
  | look : Operation Action.get
  | record (f : υ → υ) : Operation (Action.modify fun w => { w with caller := f w.caller })
  | request (r : Request) : Operation r.perform
  | update (id : String) {updater : Option Document → Action (Workspace υ) Document}
    (h : ∀ current, Operation (updater current)) : Operation (Workspace.update id updater)
  | openCursor (range : TimeRange) : Operation (Workspace.openCursor range)
  | fetch (number : Nat) (stream : List Stored) {filter : String → Action (Workspace υ) Bool}
    (h : ∀ id, Operation (filter id)) : Operation (Workspace.fetch number filter stream)
  | closeCursor (number : Nat) : Operation (Workspace.closeCursor number)
  | create {t : Traverser υ} (ht : t.backend = .memory) (snapshot : Option RevisionVector)
    (hiddenRoots : List String) : Operation (t.create snapshot hiddenRoots)
  | createLazily (t : Traverser υ) (snapshot : Option RevisionVector) :
    Operation (t.createLazily snapshot)
  | hide (t : Traverser υ) (roots : List String) : Operation (t.hide roots)
  | iterate (t : Traverser υ) : Operation t.iterate
  /-- A step of an iteration, new or begun, alone or beside others. -/
  | advance {t : Traverser υ} (ht : t.backend = .memory)
    (hpredicate : ∀ path, Operation (t.predicate path))
    (hprogress : ∀ id, Operation (t.progress id)) (mayPause : Bool) (it : Iteration) :
    Operation (t.advance mayPause it)
  | fold {β : Type} {t : Traverser υ} (ht : t.backend = .memory)
    (hpredicate : ∀ path, Operation (t.predicate path))
    (hprogress : ∀ id, Operation (t.progress id))
    {f : β → Entry → Action (Workspace υ) β} (hf : ∀ b e, Operation (f b e)) (b : β) :
    Operation (t.fold f b)
  /-- A turn of an iteration that takes turns with others. -/
  | turn {r : Turntaker υ} (ht : r.traverser.backend = .memory)
    (hpredicate : ∀ path, Operation (r.traverser.predicate path))
    (hprogress : ∀ id, Operation (r.traverser.progress id)) : Operation r.turn
  | close (t : Traverser υ) : Operation t.close
  | leave (t : Traverser υ) (onTheWay : Option Failure) : Operation (t.leave onTheWay)

section

variable {P : Ledger → Prop} (hP : Ledger.Stable P)

include hP

theorem allows_stable (n : Nat) : Traverser.Allows P n where
  repinned l pin h := hP.repinned l n pin h
  scanned l h := hP.scanned l n h

theorem upholds_close_stable (t : Traverser υ) : Upholds P t.close :=
  Traverser.upholds_close fun l h => hP.settled l t.number h

/-- Every operation keeps what no entry into the ledger makes untrue. -/
theorem Operation.keeps {α : Type} {x : Action (Workspace υ) α} (hx : Operation x) :
    Upholds P x := by
  induction hx with
  | pure a => exact Action.maintains_pure a
  | fail e => exact Action.maintains_fail e
  | bind _ _ hx hf => exact Action.Maintains.bind_answer hx hf
  | attempt _ hx => exact hx
  | look => exact Action.maintains_get
  | record f => exact upholds_modify fun _ => rfl
  | request r => exact upholds_request r
  | update id _ h => exact upholds_update h id
  | openCursor range =>
    intro w hw
    show P (Workspace.openCursor range w).2.ledger
    rcases ledger_openCursor range w with ⟨e, w', hopen, h⟩ | ⟨stream, w', hopen, h⟩
    · rw [hopen]
      exact h ▸ hw
    · rw [hopen]
      exact h ▸ hP.opened _ hw
  | fetch number stream _ h => exact upholds_fetch h number stream
  | closeCursor number =>
    intro w hw
    show P (Workspace.closeCursor number w).2.ledger
    rw [ledger_closeCursor]
    exact hP.closed _ number hw
  | create ht snapshot roots => exact Traverser.upholds_create ht hP.enrolled snapshot roots
  | createLazily t snapshot => exact Traverser.upholds_enroll hP.enrolled rfl
  | hide t roots => exact Traverser.upholds_hide t roots
  | iterate t => exact Traverser.upholds_iterate t
  | advance ht _ _ mayPause it hpredicate hprogress =>
    exact Traverser.upholds_advance ⟨ht, hpredicate, hprogress⟩ (allows_stable hP _) mayPause it
  | fold ht _ _ _ b hpredicate hprogress hf =>
    exact Traverser.upholds_fold ⟨ht, hpredicate, hprogress⟩ (allows_stable hP _) hf b
  | turn ht _ _ hpredicate hprogress =>
    have hadvance := Traverser.upholds_advance ⟨ht, hpredicate, hprogress⟩ (allows_stable hP _) true
    exact Turntaker.upholds_turn hadvance (upholds_close_stable hP _)
  | close t => exact upholds_close_stable hP t
  | leave t onTheWay => exact Traverser.upholds_leave (upholds_close_stable hP t) onTheWay

end

theorem balanced_start {settings : CacheSettings} {store : DocumentStore}
    (hstore : DocumentStore.create settings = .ok store) (cluster : Int) (caller : υ) :
    (start store cluster caller).ledger.Balanced := by
  obtain ⟨hopen, hqueries⟩ := Prod.mk.inj (DocumentStore.counts_create hstore)
  exact ⟨hopen, hqueries, fun parts hparts => (List.not_mem_nil hparts).elim⟩

end Workspace

end VersionedTree
