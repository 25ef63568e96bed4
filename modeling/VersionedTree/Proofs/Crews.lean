import Mathlib.Logic.Relation
import VersionedTree.Proofs.Coherence
import VersionedTree.Proofs.Splitting

/-! # Crews

The traversers of a parallel run are each worked off by a worker, which asks for entries, calls the
consumer for them and counts. The workers of a crew go forward in any order, step by step, and
others may do anything to the workspace in between. When they are done their counts are gathered,
in any order, in a map by label. A worker counts what it calls the consumer for; but of the workers
with traversers of one label the map keeps the count of the last one only.
-/

namespace VersionedTree

/-! ## Maps of numbers -/

namespace OrderedMap

/-- What the entries with a key come to. -/
def sumUnder (l : List (String × Nat)) (key : String) : Nat :=
  ((l.filter fun e => e.1 == key).map Prod.snd).sum

/-- What has a key that comes again is 0. -/
def LastsOnly (l : List (String × Nat)) : Prop := l.Pairwise fun a b => a.1 = b.1 → a.2 = 0

variable {β : Type} {l : List (String × Nat)} {key : String} {n : Nat}

theorem lookup_cons_eq (k key : String) (value : β) (entries : List (String × β)) :
    ((key, value) :: entries).lookup k = if k = key then some value else entries.lookup k := by
  rw [List.lookup_cons]
  by_cases hk : k = key
  · rw [if_pos hk, hk, beq_self_eq_true]
  · rw [if_neg hk, beq_false_of_ne hk]

theorem lookup_putEntry (key : String) (value : β) (entries : List (String × β)) (k : String) :
    (putEntry key value entries).lookup k = if k = key then some value else entries.lookup k := by
  induction entries with
  | nil => exact lookup_cons_eq k key value []
  | cons e entries ih =>
    obtain ⟨key', value'⟩ := e
    rw [putEntry]
    split
    · rename_i heq
      rw [heq, lookup_cons_eq, lookup_cons_eq]
      by_cases hk : k = key
      · rw [if_pos hk, if_pos hk]
      · rw [if_neg hk, if_neg hk, if_neg hk]
    · rename_i hne
      rw [lookup_cons_eq, lookup_cons_eq, ih]
      by_cases hk : k = key'
      · rw [if_pos hk, if_pos hk, if_neg fun hkey => hne (hk.symm.trans hkey)]
      · rw [if_neg hk, if_neg hk]

theorem get?_put (m : OrderedMap β) (key : String) (value : β) (k : String) :
    (m.put key value).get? k = if k = key then some value else m.get? k :=
  lookup_putEntry key value m.entries k

theorem ofList_concat (l : List (String × β)) (key : String) (value : β) :
    ofList (l ++ [(key, value)]) = (ofList l).put key value := by
  rw [ofList, List.foldl_append]
  rfl

theorem get?_ofList (l : List (String × β)) (key : String) :
    (ofList l).get? key = (l.reverse.find? fun e => e.1 == key).map Prod.snd := by
  induction l using List.reverseRecOn with
  | nil => rfl
  | append_singleton l e ih =>
    rw [ofList_concat l e.1 e.2, get?_put, ih, List.reverse_append, List.reverse_singleton,
      List.singleton_append, List.find?_cons]
    by_cases hkey : key = e.1
    · subst hkey
      simp
    · rw [if_neg hkey, beq_false_of_ne (Ne.symm hkey)]

theorem total_put (m : OrderedMap Nat) (key : String) (n : Nat) :
    (m.put key n).total + (m.get? key).getD 0 = m.total + n := by
  show (putEntry key n m.entries).foldr (fun e n => e.2 + n) 0 + (m.entries.lookup key).getD 0 =
    m.entries.foldr (fun e n => e.2 + n) 0 + n
  induction m.entries with
  | nil => simp [putEntry]
  | cons e entries ih =>
    obtain ⟨key', value⟩ := e
    rw [putEntry, lookup_cons_eq, List.foldr_cons]
    split
    · rename_i heq
      rw [if_pos heq.symm, List.foldr_cons, Option.getD_some]
      omega
    · rename_i hne
      rw [if_neg fun heq => hne heq.symm, List.foldr_cons]
      omega

theorem sumUnder_concat (l : List (String × Nat)) (key : String) (n : Nat) (k : String) :
    sumUnder (l ++ [(key, n)]) k = sumUnder l k + if k = key then n else 0 := by
  rw [sumUnder, List.filter_append, List.map_append, List.sum_append, sumUnder]
  by_cases hk : k = key
  · subst hk
    simp
  · rw [if_neg hk, List.filter_cons_of_neg (by simpa using Ne.symm hk)]
    rfl

theorem sumUnder_eq_zero_iff : sumUnder l key = 0 ↔ ∀ e ∈ l, e.1 = key → e.2 = 0 := by
  rw [sumUnder, List.sum_eq_zero_iff_forall_eq_nat]
  simp only [List.mem_map, List.mem_filter, beq_iff_eq]
  exact ⟨fun h e he hkey => h e.2 ⟨e, ⟨he, hkey⟩, rfl⟩,
    fun h _ ⟨e, ⟨he, hkey⟩, hn⟩ => hn ▸ h e he hkey⟩

theorem lastsOnly_concat : LastsOnly (l ++ [(key, n)]) ↔ LastsOnly l ∧ sumUnder l key = 0 := by
  rw [LastsOnly, List.pairwise_append, sumUnder_eq_zero_iff]
  simp only [List.pairwise_singleton, List.mem_singleton, forall_eq, true_and]
  exact Iff.rfl

theorem get?_le_sumUnder (l : List (String × Nat)) (key : String) :
    ((ofList l).get? key).getD 0 ≤ sumUnder l key := by
  induction l using List.reverseRecOn with
  | nil => exact Nat.le_refl 0
  | append_singleton l e ih =>
    rw [ofList_concat l e.1 e.2, get?_put, sumUnder_concat l e.1 e.2]
    split
    · exact Nat.le_add_left _ _
    · exact ih

/-- The map of a list has under each key what the entries with it come to just if nothing is
replaced but 0. -/
theorem get?_eq_sumUnder_iff :
    (∀ key, ((ofList l).get? key).getD 0 = sumUnder l key) ↔ LastsOnly l := by
  induction l using List.reverseRecOn with
  | nil => exact iff_of_true (fun _ => rfl) .nil
  | append_singleton l e ih =>
    rw [lastsOnly_concat, ← ih, ofList_concat l e.1 e.2]
    simp only [get?_put, sumUnder_concat l e.1 e.2]
    constructor
    · intro h
      have hzero : sumUnder l e.1 = 0 := by
        have hkey := h e.1
        rw [if_pos rfl, if_pos rfl, Option.getD_some] at hkey
        omega
      refine ⟨fun key => ?_, hzero⟩
      by_cases hkey : key = e.1
      · subst hkey
        have hle := get?_le_sumUnder l e.1
        omega
      · have hrest := h key
        rwa [if_neg hkey, if_neg hkey] at hrest
    · rintro ⟨hrest, hzero⟩ key
      by_cases hkey : key = e.1
      · subst hkey
        rw [if_pos rfl, if_pos rfl, hzero, Option.getD_some, Nat.zero_add]
      · rw [if_neg hkey, if_neg hkey]
        exact hrest key

theorem total_ofList_le (l : List (String × Nat)) : (ofList l).total ≤ (l.map Prod.snd).sum := by
  induction l using List.reverseRecOn with
  | nil => exact Nat.le_refl 0
  | append_singleton l e ih =>
    have hput := total_put (ofList l) e.1 e.2
    rw [ofList_concat l e.1 e.2, List.map_append, List.sum_append, List.map_singleton,
      List.sum_singleton]
    omega

theorem total_ofList_iff : (ofList l).total = (l.map Prod.snd).sum ↔ LastsOnly l := by
  induction l using List.reverseRecOn with
  | nil => exact iff_of_true rfl .nil
  | append_singleton l e ih =>
    have hput := total_put (ofList l) e.1 e.2
    have hle := total_ofList_le l
    have hheld : LastsOnly l → ((ofList l).get? e.1).getD 0 = sumUnder l e.1 :=
      fun h => get?_eq_sumUnder_iff.2 h e.1
    rw [lastsOnly_concat, ofList_concat l e.1 e.2, List.map_append, List.sum_append,
      List.map_singleton, List.sum_singleton]
    constructor
    · intro h
      have hrest : LastsOnly l := ih.1 (by omega)
      exact ⟨hrest, by rw [← hheld hrest]; omega⟩
    · rintro ⟨hrest, hzero⟩
      rw [← hheld hrest] at hzero
      have htotal := ih.2 hrest
      omega

end OrderedMap

/-! ## Workers -/

/-- Where a worker stands. -/
inductive Stage where
  | unbegun
  /-- It asks the iteration for an entry; so many were consumed. -/
  | asking (it : Iteration) (count : Nat)
  | feeding (e : Entry) (next : Iteration) (count : Nat)
  | closing (outcome : Except Failure Nat)
  | done (outcome : Except Failure Nat)

namespace Stage

def begun : Except Failure Nat → Stage
  | .ok ticket => .asking (.entering ticket) 0
  | .error e => .closing (.error e)

def answered (count : Nat) : Except Failure (Option (Entry × Iteration)) → Stage
  | .ok (some (e, next)) => .feeding e next count
  | .ok none => .closing (.ok count)
  | .error e => .closing (.error e)

def fed (next : Iteration) (count : Nat) : Except Failure Unit → Stage
  | .ok () => .asking next (count + 1)
  | .error e => .closing (.error e)

/-- A failure of closing counts for more. -/
def closed (outcome : Except Failure Nat) : Except Failure Unit → Stage
  | .ok () => .done outcome
  | .error e => .done (.error e)

/-- What was counted up to here, unless there was a failure. -/
def count? : Stage → Option Nat
  | .unbegun => some 0
  | .asking _ count | .feeding _ _ count => some count
  | .closing outcome | .done outcome => outcome.toOption

def outcome? : Stage → Option (Except Failure Nat)
  | .done outcome => some outcome
  | .unbegun | .asking .. | .feeding .. | .closing _ => none

theorem eq_of_count?_begun {answer : Except Failure Nat} {n : Nat}
    (h : (begun answer).count? = some n) : n = 0 := by
  cases answer <;> cases h
  rfl

theorem eq_of_count?_answered {count n : Nat}
    {answer : Except Failure (Option (Entry × Iteration))}
    (h : (answered count answer).count? = some n) : n = count := by
  rcases answer with _ | _ | ⟨e, next⟩ <;> cases h <;> rfl

theorem eq_of_count?_fed {next : Iteration} {count n : Nat} {answer : Except Failure Unit}
    (h : (fed next count answer).count? = some n) : n = count + 1 := by
  cases answer <;> cases h
  rfl

theorem count?_of_closed {outcome : Except Failure Nat} {answer : Except Failure Unit} {n : Nat}
    (h : (closed outcome answer).count? = some n) : (closing outcome).count? = some n := by
  cases answer with
  | ok => exact h
  | error e => cases h

end Stage

structure Worker (υ : Type) where
  traverser : Traverser υ
  stage : Stage := .unbegun
  /-- The entries for which it called the consumer. -/
  calls : List Entry := []

namespace Worker

variable {υ : Type} {consumer : Entry → Action (Workspace υ) Unit} {r r' : Worker υ}
  {w w' : Workspace υ}

def ofTraverser (traverser : Traverser υ) : Worker υ := { traverser }

def step (consumer : Entry → Action (Workspace υ) Unit) (r : Worker υ) (w : Workspace υ) :
    Worker υ × Workspace υ :=
  match r.stage with
  | .unbegun =>
    let (answer, w) := r.traverser.iterate w
    ({ r with stage := .begun answer }, w)
  | .asking it count =>
    let (answer, w) := r.traverser.next it w
    ({ r with stage := .answered count answer }, w)
  | .feeding e next count =>
    let (answer, w) := consumer e w
    ({ r with stage := .fed next count answer, calls := r.calls ++ [e] }, w)
  | .closing outcome =>
    let (answer, w) := r.traverser.close w
    ({ r with stage := .closed outcome answer }, w)
  | .done _ => (r, w)

def isDone (r : Worker υ) : Bool := r.stage.outcome?.isSome

/-- It is done, and did not fail. -/
def succeeded (r : Worker υ) : Bool := (r.stage.outcome?.bind Except.toOption).isSome

def answer? (r : Worker υ) : Option (Traverser υ × Except Failure Nat) :=
  r.stage.outcome?.map (r.traverser, ·)

/-- Unless it failed, it has counted its calls. -/
def Accounted (r : Worker υ) : Prop := ∀ n, r.stage.count? = some n → r.calls.length = n

theorem traverser_step (r : Worker υ) (w : Workspace υ) :
    (r.step consumer w).1.traverser = r.traverser := by
  rw [step]
  split <;> rfl

theorem accounted_step (h : r.Accounted) (w : Workspace υ) : (r.step consumer w).1.Accounted := by
  obtain ⟨t, stage, calls⟩ := r
  intro n hn
  cases stage with
  | unbegun =>
    have hn : (Stage.begun (t.iterate w).1).count? = some n := hn
    exact (h 0 rfl).trans (Stage.eq_of_count?_begun hn).symm
  | asking it count => exact (h count rfl).trans (Stage.eq_of_count?_answered hn).symm
  | feeding e next count =>
    have hcalls : (calls ++ [e]).length = count + 1 := by
      rw [List.length_append, List.length_singleton, show calls.length = count from h count rfl]
    exact hcalls.trans (Stage.eq_of_count?_fed hn).symm
  | closing outcome => exact h n (Stage.count?_of_closed hn)
  | done outcome => exact h n hn

theorem answer?_of_succeeded (h : r.Accounted) (hr : r.succeeded = true) :
    r.answer? = some (r.traverser, .ok r.calls.length) := by
  obtain ⟨t, stage, calls⟩ := r
  cases stage with
  | done outcome =>
    cases outcome with
    | ok n =>
      have hcalls : calls.length = n := h n rfl
      rw [← hcalls]
      rfl
    | error e => cases hr
  | unbegun | asking | feeding | closing => cases hr

end Worker

/-! ## Crews -/

/-- Workers that share a workspace. -/
structure Crew (υ : Type) where
  workspace : Workspace υ
  workers : List (Worker υ)

namespace Crew

variable {υ : Type} {consumer : Entry → Action (Workspace υ) Unit}

def ofTraversers (ts : List (Traverser υ)) (w : Workspace υ) : Crew υ :=
  ⟨w, ts.map Worker.ofTraverser⟩

inductive Move (υ : Type) where
  /-- The worker with this number takes a step. -/
  | work (i : Nat)
  /-- Something else happens to the workspace. -/
  | beside (f : Workspace υ → Workspace υ)

def step (consumer : Entry → Action (Workspace υ) Unit) (c : Crew υ) : Move υ → Crew υ
  | .work i =>
    match c.workers[i]? with
    | none => c
    | some r =>
      let (r, workspace) := r.step consumer c.workspace
      ⟨workspace, c.workers.set i r⟩
  | .beside f => { c with workspace := f c.workspace }

def run (consumer : Entry → Action (Workspace υ) Unit) (moves : List (Move υ)) (c : Crew υ) :
    Crew υ :=
  moves.foldl (step consumer) c

/-- The outcomes of those that are done, each with the traverser. -/
def answers (workers : List (Worker υ)) : List (Traverser υ × Except Failure Nat) :=
  workers.filterMap Worker.answer?

/-- The entries that the consumer was called for by workers with traversers of a label. -/
def callsFor (workers : List (Worker υ)) (label : String) : List Entry :=
  (workers.filter fun r => r.traverser.label == label).flatMap Worker.calls

/-- Of workers with traversers of one label only the last one called the consumer. -/
def LastsOnly (workers : List (Worker υ)) : Prop :=
  workers.Pairwise fun r r' => r.traverser.label = r'.traverser.label → r.calls = []

theorem run_append (moves more : List (Move υ)) (c : Crew υ) :
    run consumer (moves ++ more) c = run consumer more (run consumer moves c) :=
  List.foldl_append

/-- What every step of a worker keeps holds of the workers whatever happens. -/
theorem forall_run {P : Worker υ → Prop} (hstep : ∀ r w, P r → P (r.step consumer w).1)
    (moves : List (Move υ)) {c : Crew υ} (h : ∀ r ∈ c.workers, P r) :
    ∀ r ∈ (run consumer moves c).workers, P r := by
  induction moves generalizing c with
  | nil => exact h
  | cons move moves ih =>
    refine ih ?_
    cases move with
    | beside f => exact h
    | work i =>
      rw [step]
      split
      · exact h
      · rename_i r hr
        intro r' hr'
        rcases List.mem_or_eq_of_mem_set hr' with hold | rfl
        · exact h r' hold
        · exact hstep r c.workspace (h r (List.mem_of_getElem? hr))

theorem traversers_run (moves : List (Move υ)) (c : Crew υ) :
    (run consumer moves c).workers.map Worker.traverser = c.workers.map Worker.traverser := by
  induction moves generalizing c with
  | nil => rfl
  | cons move moves ih =>
    refine (ih _).trans ?_
    cases move with
    | beside f => rfl
    | work i =>
      rw [step]
      split
      · rfl
      · rename_i r hr
        obtain ⟨hi, rfl⟩ := List.getElem?_eq_some_iff.1 hr
        dsimp only
        rw [List.map_set, Worker.traverser_step, ← List.getElem_map Worker.traverser,
          List.set_getElem_self]
        rwa [List.length_map]

theorem accounted_run (moves : List (Move υ)) (ts : List (Traverser υ)) (w : Workspace υ) :
    ∀ r ∈ (run consumer moves (ofTraversers ts w)).workers, r.Accounted := by
  refine forall_run (fun r w h => Worker.accounted_step h w) moves fun r hr => ?_
  obtain ⟨t, _, rfl⟩ := List.mem_map.1 hr
  intro n hn
  cases hn
  rfl

def counted (workers : List (Worker υ)) : List (String × Nat) :=
  workers.map fun r => (r.traverser.label, r.calls.length)

theorem answers_of_succeeded {workers : List (Worker υ)} (h : ∀ r ∈ workers, r.Accounted)
    (hworkers : ∀ r ∈ workers, r.succeeded = true) :
    answers workers = workers.map fun r => (r.traverser, .ok r.calls.length) := by
  rw [answers, List.filterMap_congr fun r hr => Worker.answer?_of_succeeded (h r hr) (hworkers r hr)]
  exact congrFun List.filterMap_eq_map workers

theorem sumUnder_counted (workers : List (Worker υ)) (label : String) :
    OrderedMap.sumUnder (counted workers) label = (callsFor workers label).length := by
  rw [OrderedMap.sumUnder, counted, callsFor, List.filter_map, List.map_map, List.length_flatMap]
  rfl

theorem lastsOnly_counted {workers : List (Worker υ)} :
    OrderedMap.LastsOnly (counted workers) ↔ LastsOnly workers := by
  rw [OrderedMap.LastsOnly, counted, List.pairwise_map, LastsOnly]
  simp only [List.length_eq_zero_iff]

/-- Gathered in some order, the counts of a crew that succeeded are those of the last worker for
each label, and nothing is missing just if only these called the consumer. -/
theorem gatherCounts_answers {workers order : List (Worker υ)} (horder : order.Perm workers)
    (h : ∀ r ∈ workers, r.Accounted) (hworkers : ∀ r ∈ workers, r.succeeded = true)
    (w : Workspace υ) :
    ∃ counts w', Traverser.gatherCounts (answers order) .empty w = (.ok counts, w') ∧
      (∀ label, counts.get? label =
        (order.reverse.find? fun r => r.traverser.label == label).map fun r => r.calls.length) ∧
      ((∀ label, (counts.get? label).getD 0 = (callsFor workers label).length) ↔
        LastsOnly order) ∧
      (counts.total = (workers.flatMap Worker.calls).length ↔ LastsOnly order) := by
  obtain ⟨w', hgather, -⟩ := Traverser.gatherCounts_eq
    (order.map fun r => (r.traverser, r.calls.length)) .empty w
  rw [List.map_map, List.map_map] at hgather
  refine ⟨.ofList (counted order), w', ?_, fun label => ?_, ?_, ?_⟩
  · rw [answers_of_succeeded (fun r hr => h r (horder.subset hr))
      fun r hr => hworkers r (horder.subset hr)]
    exact hgather
  · rw [OrderedMap.get?_ofList, counted, ← List.map_reverse, List.find?_map, Option.map_map]
    rfl
  · rw [← lastsOnly_counted, ← OrderedMap.get?_eq_sumUnder_iff]
    have hcalls (label : String) : (callsFor workers label).length =
        OrderedMap.sumUnder (counted order) label := by
      rw [sumUnder_counted]
      exact (((horder.filter _).flatMap_right _).length_eq).symm
    simp only [hcalls]
  · rw [← lastsOnly_counted, ← OrderedMap.total_ofList_iff,
      ← (horder.flatMap_right Worker.calls).length_eq, List.length_flatMap, counted, List.map_map]
    rfl

end Crew

/-! ## A worker alone -/

/-- A cursor that the backend opened is open. -/
def Backend.OpensCursors {υ : Type} (b : Backend υ) : Prop :=
  ∀ range w cursor items w', b.openCursor range w = (.ok (cursor, items), w') → w'.IsOpen cursor

theorem opensCursors_memory (υ : Type) : (Backend.memory : Backend υ).OpensCursors := by
  intro range w cursor items w' h
  have h : Workspace.openCursor range w = (.ok (cursor, items), w') := h
  cases hscan : w.store.scannable range with
  | error e =>
    rw [Workspace.openCursor_of_error hscan] at h
    cases h
  | ok found =>
    rw [Workspace.openCursor_of_ok hscan] at h
    cases h
    exact ⟨.ofRange range, List.getElem?_concat_length, rfl⟩

namespace Traverser

variable {υ : Type} {t : Traverser υ} {w w' : Workspace υ} {scan : Scan} {β : Type}

/-- Where its scan stands makes no difference to the rest of a traversal. -/
theorem foldRest_resumed (f : β → Entry → Action (Workspace υ) β) (scan : Scan)
    (remaining : List Stored) (pending : Expansion) (modified : Option Modified) (produced : Nat)
    (rested : Bool) (items : List Stored) (n : Nat) (b : β) :
    t.foldRest f { scan with remaining, pending, modified, produced, rested } items n b =
      t.foldRest f scan items n b := by
  induction items generalizing n b with
  | nil => rfl
  | cons item items ih =>
    simp only [foldRest, ih]
    rfl

/-- The scan was just opened. -/
structure Begins (scan : Scan) (w : Workspace υ) : Prop where
  pending : scan.pending = {}
  produced : scan.produced = 0
  rested : scan.rested = true
  isOpen : w.IsOpen scan.cursor

theorem begins_of_openScan (ht : t.backend.OpensCursors) {v : RevisionVector}
    (h : t.openScan v w = (.ok scan, w')) : Begins scan w' := by
  rw [openScan] at h
  obtain ⟨_, _, hget, h⟩ := Action.of_bind_eq_ok h
  cases hget
  obtain ⟨_, _, hmodify, h⟩ := Action.of_bind_eq_ok h
  cases hmodify
  obtain ⟨⟨cursor, items⟩, w₁, hcursor, h⟩ := Action.of_bind_eq_ok h
  have hopen := ht _ _ _ _ _ hcursor
  obtain ⟨_, _, hregister, h⟩ := Action.of_bind_eq_ok h
  cases hregister
  obtain ⟨_, _, hnote, h⟩ := Action.of_bind_eq_ok h
  cases hnote
  cases h
  exact ⟨rfl, rfl, rfl, hopen⟩

theorem begins_of_readHead (ht : t.backend.OpensCursors)
    (h : t.readHead w = (.ok scan, w')) : Begins scan w' := by
  rw [readHead] at h
  obtain ⟨_, _, _, h⟩ := Action.of_bind_eq_ok h
  obtain ⟨_, _, _, h⟩ := Action.of_bind_eq_ok h
  obtain ⟨_, _, _, h⟩ := Action.of_bind_eq_ok h
  exact begins_of_openScan ht h

end Traverser

namespace Worker

open Traverser

variable {υ : Type} {consumer : Entry → Action (Workspace υ) Unit} {t : Traverser υ}
  {w w' : Workspace υ} {scan : Scan}

/-- Calls the consumer for an entry, and counts. -/
def counting (consumer : Entry → Action (Workspace υ) Unit) (n : Nat) (e : Entry) :
    Action (Workspace υ) Nat := do
  consumer e
  pure (n + 1)

/-- Alone, a worker comes by some steps from one to another place, and the workspace with it. -/
def Comes (consumer : Entry → Action (Workspace υ) Unit) :
    Worker υ × Workspace υ → Worker υ × Workspace υ → Prop :=
  Relation.ReflTransGen fun a b => a.1.step consumer a.2 = b

/-- Whatever it has called the consumer for, the worker of a traverser comes from one stage to
another. -/
def Leads (consumer : Entry → Action (Workspace υ) Unit) (t : Traverser υ)
    (a b : Stage × Workspace υ) : Prop :=
  ∀ calls, ∃ calls', Comes consumer (⟨t, a.1, calls⟩, a.2) (⟨t, b.1, calls'⟩, b.2)

theorem Leads.refl (a : Stage × Workspace υ) : Leads consumer t a a := fun calls => ⟨calls, .refl⟩

theorem Leads.trans {a b c : Stage × Workspace υ} (h : Leads consumer t a b)
    (h' : Leads consumer t b c) : Leads consumer t a c := by
  intro calls
  obtain ⟨calls', h⟩ := h calls
  obtain ⟨calls'', h'⟩ := h' calls'
  exact ⟨calls'', Relation.ReflTransGen.trans h h'⟩

theorem leads_unbegun (w : Workspace υ) :
    Leads consumer t (.unbegun, w) (.begun (t.iterate w).1, (t.iterate w).2) :=
  fun calls => ⟨calls, .single rfl⟩

theorem leads_asking (it : Iteration) (count : Nat) (w : Workspace υ) :
    Leads consumer t (.asking it count, w)
      (.answered count ((t.advance false it w).1.map Step.entry?), (t.advance false it w).2) := by
  intro calls
  refine ⟨calls, .single ?_⟩
  rw [step]
  dsimp only
  rw [next_eq]

theorem leads_feeding (e : Entry) (next : Iteration) (count : Nat) (w : Workspace υ) :
    Leads consumer t (.feeding e next count, w)
      (.fed next count (consumer e w).1, (consumer e w).2) :=
  fun calls => ⟨calls ++ [e], .single rfl⟩

theorem leads_closing (outcome : Except Failure Nat) (w : Workspace υ) :
    Leads consumer t (.closing outcome, w) (.closed outcome (t.close w).1, (t.close w).2) :=
  fun calls => ⟨calls, .single rfl⟩

/-- The stage that it comes to by a number, unless there was a failure. -/
def onward (stage : Nat → Stage) : Except Failure Nat × Workspace υ → Stage × Workspace υ
  | (.ok n, w) => (stage n, w)
  | (.error e, w) => (.closing (.error e), w)

theorem onward_closing (x : Except Failure Nat × Workspace υ) :
    onward (fun n => .closing (.ok n)) x = (.closing x.1, x.2) := by
  rcases x with ⟨_ | _, _⟩ <;> rfl

/-- The entries of a document are consumed one after the other. -/
theorem leads_pending (states : List NodeState) (failure : Option Failure) (e : Entry)
    (scan : Scan) (count : Nat) (w : Workspace υ) :
    Leads consumer t
      (.feeding e (.scanning { scan with pending := ⟨states, failure⟩ }) count, w)
      (onward (.asking (.scanning { scan with
          pending := ⟨[], failure⟩, produced := scan.produced + states.length }))
        ((e :: states.map (Entry.ofState scan.modified)).foldlM (counting consumer) count w)) := by
  induction states generalizing scan e count w with
  | nil =>
    refine (leads_feeding e _ count w).trans ?_
    rw [List.map_nil, List.foldlM_cons, Action.bind_apply, counting, Action.bind_apply]
    rcases consumer e w with ⟨_ | ⟨⟩, w₁⟩
    · exact .refl _
    · exact .refl _
  | cons s states ih =>
    refine (leads_feeding e _ count w).trans ?_
    rw [List.map_cons, List.foldlM_cons, Action.bind_apply, counting, Action.bind_apply]
    rcases consumer e w with ⟨_ | ⟨⟩, w₁⟩
    · exact .refl _
    · refine (leads_asking _ _ w₁).trans ?_
      have hrest := ih (.ofState scan.modified s) { scan with produced := scan.produced + 1 }
        (count + 1) w₁
      rw [Nat.add_assoc, Nat.add_comm 1] at hrest
      exact hrest

theorem leads_failed {e : Failure} (scan : Scan) (count : Nat) (w : Workspace υ)
    (hpending : scan.pending = ⟨[], some e⟩) :
    Leads consumer t (.asking (.scanning scan) count, w) (.closing (.error e), w) := by
  have hadvance : t.advance false (.scanning scan) w = (.error e, w) := by
    rw [advance, advanceScan, hpending]
    rfl
  have hasking : Leads consumer t _ _ := leads_asking (.scanning scan) count w
  rw [hadvance] at hasking
  exact hasking

/-- After the last entry of a document the next document is asked for with the cursor open still. -/
theorem leads_between (scan : Scan) (count : Nat) (w : Workspace υ)
    (hpending : scan.pending = ⟨[], none⟩) (hrested : scan.rested = false) :
    let step := (do
      Workspace.requireOpen scan.cursor
      t.seek false scan scan.remaining) w
    Leads consumer t (.asking (.scanning scan) count, w)
      (.answered count (step.1.map Step.entry?), step.2) := by
  have hadvance : t.advance false (.scanning scan) = (do
      Workspace.requireOpen scan.cursor
      t.seek false scan scan.remaining) := by
    rw [advance, advanceScan, hpending]
    dsimp only
    rw [hrested]
    rfl
  have hasking : Leads consumer t _ _ := leads_asking (.scanning scan) count w
  rw [hadvance] at hasking
  exact hasking

/-- What is still to be visited is consumed as a traversal would go through it. -/
theorem leads_seek (items : List Stored) (scan : Scan) (count : Nat) (w : Workspace υ) :
    Leads consumer t
      (.answered count ((t.seek false scan items w).1.map Step.entry?),
        (t.seek false scan items w).2)
      (onward (fun n => .closing (.ok n))
        (t.foldRest (counting consumer) scan items scan.produced count w)) := by
  -- By the documents: a traversal works off all entries of one at once, the worker one by one.
  induction items generalizing scan count w with
  | nil => exact .refl _
  | cons item rest ih =>
    rw [seek, foldRest, Action.bind_apply, Action.bind_apply]
    rcases t.visit scan item w with ⟨e | visit, w₁⟩
    · exact .refl _
    · cases visit with
      | skipped => exact ih scan count w₁
      | dropped =>
        dsimp only
        rw [Action.bind_apply, Action.bind_apply]
        rcases Workspace.requireOpen scan.cursor w₁ with ⟨e | ⟨⟩, w₂⟩
        · exact .refl _
        · exact ih scan count w₂
      | found first more =>
        let scan₁ : Scan :=
          { scan with
            remaining := rest, modified := item.document.modified, produced := scan.produced + 1
            rested := false }
        have hpending : Leads consumer t _ _ := leads_pending more.states more.failure
          (.ofState item.document.modified first) scan₁ count w₁
        refine hpending.trans ?_
        dsimp only
        rw [Action.bind_apply, List.map_cons]
        rcases ((Entry.ofState item.document.modified first ::
          more.states.map (Entry.ofState item.document.modified)).foldlM (counting consumer) count)
            w₁ with ⟨e | count', w₂⟩
        · exact .refl _
        · cases hfailure : more.failure with
          | some e => exact leads_failed _ count' w₂ rfl
          | none =>
            let scan₂ : Scan :=
              { scan₁ with
                pending := ⟨[], none⟩, produced := scan₁.produced + more.states.length }
            refine (leads_between scan₂ count' w₂ rfl rfl).trans ?_
            dsimp only
            rw [Action.bind_apply, Action.bind_apply]
            rcases Workspace.requireOpen scan.cursor w₂ with ⟨e | ⟨⟩, w₃⟩
            · exact .refl _
            · have hproduced : scan₂.produced = scan.produced +
                  (.ofState item.document.modified first ::
                    more.states.map (Entry.ofState item.document.modified)).length := by
                rw [List.length_cons, List.length_map]
                show scan.produced + 1 + more.states.length = _
                omega
              have hresumed : t.foldRest (counting consumer) scan₂ rest scan₂.produced count' =
                  t.foldRest (counting consumer) scan rest scan₂.produced count' :=
                foldRest_resumed _ scan rest _ _ _ _ rest _ count'
              have hrest := ih scan₂ count' w₃
              rw [hresumed, hproduced] at hrest
              exact hrest

/-- A scan that was just opened is consumed as a traversal would go through it. -/
theorem leads_opened (h : Begins scan w) :
    Leads consumer t
      (.answered 0 ((t.advanceScan false scan w).1.map Step.entry?),
        (t.advanceScan false scan w).2)
      (onward (fun n => .closing (.ok n)) ((do
        Workspace.requireOpen scan.cursor
        t.foldRest (counting consumer) scan scan.remaining 0 0) w)) := by
  have hadvance : t.advanceScan false scan w = t.seek false scan scan.remaining w := by
    rw [advanceScan, h.pending]
    dsimp only
    rw [if_pos h.rested, Action.bind_apply, Workspace.resumeFetch_of_isOpen h.isOpen]
  rw [hadvance, Action.bind_apply, Workspace.requireOpen_of_isOpen h.isOpen]
  have hseek : Leads consumer t _ _ := leads_seek scan.remaining scan 0 w
  rw [h.produced] at hseek
  exact hseek

/-- The worker of a traverser comes to what a traversal counts. -/
theorem leads_fold (ht : t.backend.OpensCursors) (w : Workspace υ) :
    Leads consumer t (.unbegun, w)
      (.closing (t.fold (counting consumer) 0 w).1, (t.fold (counting consumer) 0 w).2) := by
  rw [← onward_closing (t.fold (counting consumer) 0 w)]
  refine (leads_unbegun w).trans ?_
  rw [fold, Action.bind_apply]
  rcases t.iterate w with ⟨e | ticket, w₁⟩
  · exact .refl _
  · refine (leads_asking _ _ w₁).trans ?_
    dsimp only
    rw [advance, enter, bind_assoc, Action.bind_apply, Action.bind_apply]
    rcases t.ask ticket w₁ with ⟨e | turn, w₂⟩
    · exact .refl _
    · cases turn with
      | wait => exact .refl _
      | pinned v =>
        dsimp only
        rw [bind_assoc, Action.bind_apply, Action.bind_apply]
        rcases hscan : t.openScan v w₂ with ⟨e | scan, w₃⟩
        · exact .refl _
        · exact leads_opened (begins_of_openScan ht hscan)
      | read =>
        dsimp only
        rw [if_neg (by simp), bind_assoc, Action.bind_apply, Action.bind_apply]
        rcases hscan : t.readHead w₂ with ⟨e | scan, w₃⟩
        · exact .refl _
        · exact leads_opened (begins_of_readHead ht hscan)

/-- Alone, a worker is done with what consuming all entries of its traverser comes to. -/
theorem leads_consume (ht : t.backend.OpensCursors) (w : Workspace υ) :
    Leads consumer t (.unbegun, w) (.done (t.consume consumer w).1, (t.consume consumer w).2) := by
  refine ((leads_fold ht w).trans (leads_closing _ _)).trans ?_
  have hconsume : t.consume consumer w =
      Action.guarded (t.fold (counting consumer) 0) t.close w := rfl
  rw [hconsume, Action.guarded, Action.bind_apply, Action.attempt]
  rcases t.fold (counting consumer) 0 w with ⟨outcome, w₁⟩
  dsimp only
  rw [Action.bind_apply]
  rcases t.close w₁ with ⟨e | ⟨⟩, w₂⟩
  · exact .refl _
  · cases outcome <;> exact .refl _

end Worker

namespace Crew

variable {υ : Type} {consumer : Entry → Action (Workspace υ) Unit}

theorem step_work (before after : List (Worker υ)) (r : Worker υ) (w : Workspace υ) :
    step consumer ⟨w, before ++ r :: after⟩ (.work before.length) =
      ⟨(r.step consumer w).2, before ++ (r.step consumer w).1 :: after⟩ := by
  have hget : (before ++ r :: after)[before.length]? = some r := by simp
  rw [step, hget]
  simp

/-- What a worker comes to alone it comes to among others if these do nothing. -/
theorem exists_run_of_comes {a b : Worker υ × Workspace υ} (h : Worker.Comes consumer a b)
    (before after : List (Worker υ)) : ∃ moves,
      run consumer moves ⟨a.2, before ++ a.1 :: after⟩ = ⟨b.2, before ++ b.1 :: after⟩ := by
  induction h with
  | refl => exact ⟨[], rfl⟩
  | tail _ hstep ih =>
    obtain ⟨moves, hmoves⟩ := ih
    refine ⟨moves ++ [.work before.length], ?_⟩
    rw [run_append, hmoves, ← hstep]
    exact step_work before after _ _

/-- Workers can work off their traversers one after the other. -/
theorem exists_run_done (consumer : Entry → Action (Workspace υ) Unit) {ts : List (Traverser υ)}
    (hts : ∀ t ∈ ts, t.backend.OpensCursors) (before : List (Worker υ)) (w : Workspace υ) :
    ∃ moves done w',
      run consumer moves ⟨w, before ++ ts.map Worker.ofTraverser⟩ = ⟨w', before ++ done⟩ ∧
      (∀ r ∈ done, r.isDone = true) ∧
      (ts.mapM fun t : Traverser υ =>
        return (t, ← Action.attempt (t.consume consumer))) w = (.ok (answers done), w') := by
  induction ts generalizing before w with
  | nil => exact ⟨[], [], w, rfl, List.forall_mem_nil _, rfl⟩
  | cons t ts ih =>
    obtain ⟨ht, hts⟩ := List.forall_mem_cons.1 hts
    -- The first goes on to its end, then it stands with those before it.
    have hleads : Worker.Leads consumer t _ _ := Worker.leads_consume ht w
    obtain ⟨calls, hcomes⟩ := hleads []
    rcases hconsume : t.consume consumer w with ⟨outcome, w₁⟩
    rw [hconsume] at hcomes
    let r : Worker υ := ⟨t, .done outcome, calls⟩
    obtain ⟨moves, hmoves⟩ := exists_run_of_comes hcomes before (ts.map Worker.ofTraverser)
    have hmoves : run consumer moves ⟨w, before ++ (t :: ts).map Worker.ofTraverser⟩ =
        ⟨w₁, before ++ r :: ts.map Worker.ofTraverser⟩ := hmoves
    obtain ⟨more, done, w', hrun, hdone, hworkers⟩ := ih hts (before ++ [r]) w₁
    refine ⟨moves ++ more, r :: done, w', ?_, List.forall_mem_cons.2 ⟨rfl, hdone⟩, ?_⟩
    · rw [run_append, hmoves, List.append_cons, hrun, List.append_assoc, List.singleton_append]
    · rw [List.mapM_cons]
      simp only [Action.bind_apply, Action.attempt, hconsume, Action.pure_apply, hworkers]
      rfl

end Crew

namespace Traverser

variable {υ : Type}

/-- A parallel run is one of a crew. However the workers of a crew go forward, and in whatever order
their counts are gathered: if all succeed, there is a count for each label, that of the last of its
traversers. The counts are those of all calls, for each label and in sum, just if only these
traversers had entries. -/
theorem parallel_counts {ts : List (Traverser υ)} (hts : ts ≠ [])
    (hopens : ∀ t ∈ ts, t.backend.OpensCursors) {maxWorkers : Option Int}
    (hmax : maxWorkers.any (· < 0) = false) (consumer : Entry → Action (Workspace υ) Unit)
    (w : Workspace υ) :
    (∃ moves,
      let crew := Crew.run consumer moves (.ofTraversers ts w)
      (∀ r ∈ crew.workers, r.isDone = true) ∧
        parallel ts consumer maxWorkers w =
          gatherCounts (Crew.answers crew.workers) .empty crew.workspace) ∧
    ∀ moves,
      let crew := Crew.run consumer moves (.ofTraversers ts w)
      crew.workers.map Worker.traverser = ts ∧
        ((∀ r ∈ crew.workers, r.succeeded = true) → ∀ order, order.Perm crew.workers →
          ∃ counts w', gatherCounts (Crew.answers order) .empty crew.workspace = (.ok counts, w') ∧
            (∀ label, counts.get? label =
              (order.reverse.find? fun r => r.traverser.label == label).map
                fun r => r.calls.length) ∧
            ((∀ label, (counts.get? label).getD 0 = (Crew.callsFor crew.workers label).length) ↔
              Crew.LastsOnly order) ∧
            (counts.total = (crew.workers.flatMap Worker.calls).length ↔ Crew.LastsOnly order)) := by
  refine ⟨?_, fun moves => ⟨?_, fun hsucceeded order horder => ?_⟩⟩
  · obtain ⟨moves, done, w', hrun, hdone, hworkers⟩ :=
      Crew.exists_run_done consumer hopens [] w
    have hrun : Crew.run consumer moves (.ofTraversers ts w) = ⟨w', done⟩ := hrun
    refine ⟨moves, ?_⟩
    rw [hrun]
    refine ⟨hdone, ?_⟩
    have hfull : ts.isEmpty = false := by simpa using hts
    rw [parallel, hfull, if_neg Bool.false_ne_true, hmax, if_neg Bool.false_ne_true,
      Action.bind_apply, hworkers]
  · rw [Crew.traversers_run, Crew.ofTraversers, List.map_map]
    exact List.map_id ts
  · exact Crew.gatherCounts_answers horder (Crew.accounted_run moves ts w) hsucceeded _

theorem parallel_counts_of_interleaved :
    let w : Workspace (List Entry) :=
      { repository := (WriteCall.performAll
          [.commit "/a" [] .empty (some (.time 1)), .commit "/b" [] .empty (some (.time 6))]
          ⟨{ cache := some { limit := some 10000 } }, { cluster := 1 }⟩).2
        traversers := List.replicate 2 { pin := .of (.ofList [⟨2, 0, 1⟩]), hiddenRoots := [] }
        caller := [] }
    let ts : List (Traverser (List Entry)) :=
      [{ number := 0, label := "x", range := { lower := 0, upper := 5 } },
        { number := 1, label := "y", range := { lower := 5, upper := 10 } }]
    let moves : List (Crew.Move (List Entry)) :=
      .beside (Workspace.noted (.queryOpened .all 0)) ::
        (List.replicate 5 [.work 1, .work 0]).flatten
    let crew := Crew.run Workspace.take moves (.ofTraversers ts w)
    crew.workers.map Worker.traverser = ts ∧
      ∃ counts w', gatherCounts (Crew.answers crew.workers.reverse) .empty crew.workspace =
          (.ok counts, w') ∧
        (∀ label, counts.get? label =
          (crew.workers.reverse.reverse.find? fun r => r.traverser.label == label).map
            fun r => r.calls.length) ∧
        ((∀ label, (counts.get? label).getD 0 = (Crew.callsFor crew.workers label).length) ↔
          Crew.LastsOnly crew.workers.reverse) ∧
        (counts.total = (crew.workers.flatMap Worker.calls).length ↔
          Crew.LastsOnly crew.workers.reverse) := by
  intro w ts moves crew
  have hopens : ∀ t ∈ ts, t.backend.OpensCursors := by
    intro t ht
    have hmemory : t.backend = .memory := by
      rcases List.mem_pair.1 ht with rfl | rfl <;> rfl
    rw [hmemory]
    exact opensCursors_memory _
  have hmax : (some 2 : Option Int).any (· < 0) = false := rfl
  have hcrew := (parallel_counts (List.cons_ne_nil _ _) hopens hmax Workspace.take w).2 moves
  exact ⟨hcrew.1, hcrew.2 (by decide +kernel) _ (List.reverse_perm _)⟩

/-- Of two traversers with one label the calls for one are missing from the counts. -/
theorem parallel_loses_calls :
    let w : Workspace (List Entry) :=
      { repository := (WriteCall.performAll
          [.commit "/a" [] .empty (some (.time 1)), .commit "/b" [] .empty (some (.time 6))]
          ⟨{ cache := some { limit := some 10000 } }, { cluster := 1 }⟩).2
        traversers := List.replicate 2 { pin := .of (.ofList [⟨2, 0, 1⟩]), hiddenRoots := [] }
        caller := [] }
    let ts : List (Traverser (List Entry)) :=
      [{ number := 0, label := "x", range := { lower := 0, upper := 5 } },
        { number := 1, label := "x", range := { lower := 5, upper := 10 } }]
    let result := parallel ts Workspace.take none w
    result.1.toOption.map OrderedMap.entries = some [("x", 1)] ∧
      result.2.caller.map Entry.path = ["/a", "/b"] := by
  decide +kernel

end Traverser

end VersionedTree
