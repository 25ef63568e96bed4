import VersionedTree.Proofs.Courses
import VersionedTree.Proofs.Releases

/-! # Schedules

Traversers that run at once take turns in some order. Whatever the order is, each comes to what it
comes to alone: the cache that they share is filled in another order, and nothing else.
-/

namespace VersionedTree

namespace Workspace

variable {σ : Type} {n : Nat} {numbers : List Nat} {w w' : Workspace (Nat → σ)}

/-- No cursor is registered with two of these traversers. -/
structure Apart (numbers : List Nat) (w : Workspace (Nat → σ)) : Prop where
  held : ∀ n ∈ numbers, ∀ i ∈ w.registered n, i < w.cursors.length
  apart : ∀ n ∈ numbers, ∀ m ∈ numbers, n ≠ m → ∀ i ∈ w.registered n, i ∉ w.registered m

theorem Apart.beside (h : Apart numbers w) (hn : n ∈ numbers) (hw : w.Beside n w') :
    Apart numbers w' := by
  have hother {m : Nat} (hm : m ≠ n) : w'.registered m = w.registered m :=
    congrArg (fun terms => terms.2.2) (hw.terms m hm)
  have hkept {m : Nat} (hm : m ∈ numbers) {i : Nat} (hi : i ∈ w.registered m) :
      i < w'.cursors.length := Nat.lt_of_lt_of_le (h.held m hm i hi) hw.opened
  refine ⟨fun m hm i hi => ?_, fun k hk m hm hkm i hi hmi => ?_⟩
  · by_cases hmn : m = n
    · subst hmn
      rcases hw.registered i hi with hold | ⟨-, hlt⟩
      · exact hkept hm hold
      · exact hlt
    · rw [hother hmn] at hi
      exact hkept hm hi
  · by_cases hkn : k = n
    · subst hkn
      rw [hother hkm.symm] at hmi
      rcases hw.registered i hi with hold | ⟨hnew, -⟩
      · exact h.apart k hk m hm hkm i hold hmi
      · exact absurd (h.held m hm i hmi) (Nat.not_lt.2 hnew)
    · rw [hother hkn] at hi
      by_cases hmn : m = n
      · subst hmn
        rcases hw.registered i hmi with hold | ⟨hnew, -⟩
        · exact h.apart k hk m hm hkm i hi hold
        · exact absurd (h.held k hk i hi) (Nat.not_lt.2 hnew)
      · rw [hother hmn] at hmi
        exact h.apart k hk m hm hkm i hi hmi

end Workspace

namespace Turntaker

open Workspace Traverser

variable {σ : Type} {s : DocumentStore} {accepts : Nat → String → Action σ Bool}
  {report : Nat → String → Action σ Unit}
  {answer : Traverser (Nat → σ) → Except Failure (List Entry)} {start : Ledger}
  {ts : List (Traverser (Nat → σ))} {takers : List (Turntaker (Nat → σ))}
  {w w' : Workspace (Nat → σ)} {r r' : Turntaker (Nat → σ)} {i : Nat}

theorem OnCourse.rests {accepts : String → Action σ Bool} {report : String → Action σ Unit}
    {answer : Except Failure (List Entry)} (h : OnCourse s accepts report answer w r) :
    r.standing.Rests := by
  cases h with
  | unbegun v hstanding => exact hstanding ▸ .unbegun
  | due scan hstanding hpending hrested => exact hstanding ▸ .due hpending hrested
  | ended failure hstanding => exact hstanding ▸ .ended failure

theorem OnCourse.due_or_ended {accepts : String → Action σ Bool} {report : String → Action σ Unit}
    {answer : Except Failure (List Entry)} (h : OnCourse s accepts report answer w r)
    (size : Nat) :
    r.isDue = true ∧ 0 < r.turnsLeft size ∨
      (∃ failure, r.standing = .ended failure) ∧ r.outcome = answer := by
  cases h with
  | unbegun v hstanding =>
    rw [isDue, turnsLeft, hstanding]
    exact .inl ⟨rfl, Nat.zero_lt_succ _⟩
  | due scan hstanding =>
    rw [isDue, turnsLeft, turnsToEnd, hstanding]
    exact .inl ⟨rfl, Nat.zero_lt_succ _⟩
  | ended failure hstanding hanswer => exact .inr ⟨⟨failure, hstanding⟩, hanswer⟩

/-- Each of the traversers has an iteration that comes to its answer by its own turns, and they
close in the end what they opened. -/
structure Together (s : DocumentStore) (accepts : Nat → String → Action σ Bool)
    (report : Nat → String → Action σ Unit)
    (answer : Traverser (Nat → σ) → Except Failure (List Entry)) (start : Ledger)
    (ts : List (Traverser (Nat → σ))) (takers : List (Turntaker (Nat → σ)))
    (w : Workspace (Nat → σ)) : Prop where
  agrees : s.Agrees w.store
  traversers : takers.map traverser = ts
  apart : w.Apart (ts.map number)
  courses : ∀ r ∈ takers, r.traverser.IsPrivate (accepts r.traverser.number)
    (report r.traverser.number) ∧ OnCourse s (accepts r.traverser.number)
      (report r.traverser.number) (answer r.traverser) w r
  carried : Carried start (ts.map number) takers w

theorem set_same {υ : Type} {takers : List (Turntaker υ)} {r : Turntaker υ}
    (h : takers[i]? = some r) : takers.set i r = takers := by
  obtain ⟨hi, rfl⟩ := List.getElem?_eq_some_iff.1 h
  exact List.set_getElem_self hi

theorem number_ne (hdistinct : (ts.map number).Nodup) (htakers : takers.map traverser = ts)
    {j : Nat} (hi : takers[i]? = some r) (hj : takers[j]? = some r') (hij : i ≠ j) :
    r'.traverser.number ≠ r.traverser.number := by
  intro hsame
  have hnumbers {k : Nat} {x : Turntaker (Nat → σ)} (hx : takers[k]? = some x) :
      (ts.map number)[k]? = some x.traverser.number := by
    rw [← htakers, List.getElem?_map, List.getElem?_map, hx]
    rfl
  have hlt : i < (ts.map number).length := (List.getElem?_eq_some_iff.1 (hnumbers hi)).1
  exact hij ((List.getElem?_inj hlt hdistinct).1 ((hnumbers hi).trans (hsame ▸ (hnumbers hj).symm)))

/-- A turn of one brings it nearer to its answer, and leaves the others on their courses. -/
theorem Together.turn (h : Together s accepts report answer start ts takers w) (hs : s.Sound)
    (hdistinct : (ts.map number).Nodup) (hi : takers[i]? = some r) (hdue : r.isDue = true) :
    ∃ r' w', r.turn w = (.ok r', w') ∧ r'.standing.Rests ∧ r'.Nearer r ∧
      Together s accepts report answer start ts (takers.set i r') w' ∧
      r'.turnsLeft s.catalog.items.length < r.turnsLeft s.catalog.items.length := by
  have hmem : r ∈ takers := List.mem_of_getElem? hi
  obtain ⟨hprivate, hcourse⟩ := h.courses r hmem
  obtain ⟨r', w', n, hturn, hturned, hless⟩ := turned_turn hprivate hs h.agrees hcourse hdue
  obtain ⟨r'', w'', hturn', hrests, hnearer, hcarried⟩ :=
    carries_carried start (ts.map number) takers w i r h.carried hi hcourse.rests hdue
  obtain ⟨hr, hw⟩ := Prod.mk.inj (hturn.symm.trans hturn')
  cases hr
  subst hw
  have hmine : ∀ x ∈ takers, x.traverser.number ∈ ts.map number := by
    intro x hx
    rw [← h.traversers]
    exact List.mem_map_of_mem (List.mem_map_of_mem hx)
  refine ⟨r', w', hturn, hrests, hnearer, ⟨h.agrees.trans hturned.beside.store, ?_,
    h.apart.beside (hmine r hmem) hturned.beside, fun x hx => ?_, hcarried⟩,
    Nat.lt_of_le_of_lt hturned.left hless⟩
  · rw [List.map_set, hturned.traverser, ← List.map_set, set_same hi]
    exact h.traversers
  · obtain ⟨j, hj⟩ := List.getElem?_of_mem hx
    by_cases hij : i = j
    · rw [← hij, List.getElem?_set_self (List.getElem?_eq_some_iff.1 hi).1] at hj
      cases hj
      rw [hturned.traverser]
      exact ⟨hprivate, hturned.course⟩
    · rw [List.getElem?_set_ne hij] at hj
      have hxmem : x ∈ takers := List.mem_of_getElem? hj
      have hne : x.traverser.number ≠ r.traverser.number :=
        number_ne hdistinct h.traversers hi hj hij
      obtain ⟨hxprivate, hxcourse⟩ := h.courses x hxmem
      refine ⟨hxprivate, hxcourse.beside hturned.beside hne fun c hc => ?_⟩
      exact ⟨h.apart.held _ (hmine x hxmem) c hc,
        h.apart.apart _ (hmine x hxmem) _ (hmine r hmem) hne c hc⟩

/-- Whoever is named takes a turn, if any is left for him to take. -/
theorem Together.turnOf (h : Together s accepts report answer start ts takers w) (hs : s.Sound)
    (hdistinct : (ts.map number).Nodup) (i : Nat) :
    ∃ takers' w', Line.turnOf takers i w = (.ok takers', w') ∧
      Together s accepts report answer start ts takers' w' ∧
      ∀ j r', takers'[j]? = some r' → ∃ r, takers[j]? = some r ∧
        r'.turnsLeft s.catalog.items.length ≤
          r.turnsLeft s.catalog.items.length - if i = j then 1 else 0 := by
  rw [Line.turnOf]
  cases hi : takers[i]? with
  | none =>
    refine ⟨takers, w, rfl, h, fun j r hj => ⟨r, hj, ?_⟩⟩
    have hij : i ≠ j := by
      intro hij
      rw [hij, hj] at hi
      cases hi
    rw [if_neg hij]
    exact Nat.le_refl _
  | some r =>
    cases hdue : r.isDue with
    | true =>
      obtain ⟨r', w', hturn, -, -, htogether, hless⟩ := h.turn hs hdistinct hi hdue
      refine ⟨takers.set i r', w', ?_, htogether, fun j x hj => ?_⟩
      · simp only [Action.bind_apply, hturn]
        rfl
      · by_cases hij : i = j
        · rw [← hij, List.getElem?_set_self (List.getElem?_eq_some_iff.1 hi).1] at hj
          cases hj
          refine ⟨r, hij ▸ hi, ?_⟩
          rw [if_pos hij]
          exact Nat.le_sub_one_of_lt hless
        · rw [List.getElem?_set_ne hij] at hj
          refine ⟨x, hj, ?_⟩
          rw [if_neg hij]
          exact Nat.le_refl _
    | false =>
      obtain ⟨-, hcourse⟩ := h.courses r (List.mem_of_getElem? hi)
      obtain ⟨failure, hended⟩ : ∃ failure, r.standing = .ended failure := by
        rcases hcourse.due_or_ended 0 with ⟨hdue', -⟩ | ⟨hended, -⟩
        · rw [hdue] at hdue'
          cases hdue'
        · exact hended
      have hturn : r.turn w = (.ok r, w) := by
        rw [Turntaker.turn, hended]
        rfl
      refine ⟨takers, w, ?_, h, fun j x hj => ⟨x, hj, ?_⟩⟩
      · simp only [Action.bind_apply, hturn, set_same hi]
        rfl
      · split
        · rename_i hij
          obtain rfl : r = x := Option.some.inj (hi.symm.trans (hij ▸ hj))
          rw [turnsLeft, turnsToEnd, hended]
          exact Nat.zero_le _
        · exact Nat.le_refl _

end Turntaker

namespace Line

open Turntaker

variable {σ : Type} {s : DocumentStore} {accepts : Nat → String → Action σ Bool}
  {report : Nat → String → Action σ Unit}
  {answer : Traverser (Nat → σ) → Except Failure (List Entry)} {start : Ledger}
  {ts : List (Traverser (Nat → σ))} {takers : List (Turntaker (Nat → σ))}
  {w w' : Workspace (Nat → σ)}

/-- Turns are taken in the order of a schedule. It names who is next by his place in the list. -/
def scheduled {υ : Type} (schedule : List Nat) (takers : List (Turntaker υ)) :
    Action (Workspace υ) (List (Turntaker υ)) :=
  schedule.foldlM turnOf takers

theorem scheduled_together (h : Together s accepts report answer start ts takers w) (hs : s.Sound)
    (hdistinct : (ts.map Traverser.number).Nodup) (schedule : List Nat) :
    ∃ takers' w', scheduled schedule takers w = (.ok takers', w') ∧
      Together s accepts report answer start ts takers' w' ∧
      ∀ j r', takers'[j]? = some r' → ∃ r, takers[j]? = some r ∧
        r'.turnsLeft s.catalog.items.length ≤
          r.turnsLeft s.catalog.items.length - schedule.count j := by
  induction schedule generalizing takers w with
  | nil => exact ⟨takers, w, rfl, h, fun j r hj => ⟨r, hj, Nat.le_refl _⟩⟩
  | cons i schedule ih =>
    obtain ⟨takers₁, w₁, hturn, h₁, hfirst⟩ := h.turnOf hs hdistinct i
    obtain ⟨takers₂, w₂, hothers, h₂, hrest⟩ := ih h₁
    refine ⟨takers₂, w₂, ?_, h₂, fun j r₂ hj => ?_⟩
    · rw [scheduled, List.foldlM_cons, Action.bind_apply, hturn]
      exact hothers
    · obtain ⟨r₁, hr₁, hleft₁⟩ := hrest j r₂ hj
      obtain ⟨r, hr, hleft⟩ := hfirst j r₁ hr₁
      refine ⟨r, hr, ?_⟩
      rw [List.count_cons]
      simp only [beq_iff_eq]
      omega

theorem carries_together (hs : s.Sound) (hdistinct : (ts.map Traverser.number).Nodup) :
    Carries (Together s accepts report answer start ts) := by
  intro takers w i r h hi _ hdue
  obtain ⟨r', w', hturn, hrests, hnearer, h', -⟩ := h.turn hs hdistinct hi hdue
  exact ⟨r', w', hturn, hrests, hnearer, h'⟩

end Line

namespace Turntaker

open Workspace Traverser

variable {σ : Type} {s : DocumentStore} {accepts : Nat → String → Action σ Bool}
  {report : Nat → String → Action σ Unit}
  {answer : Traverser (Nat → σ) → Except Failure (List Entry)} {start : Ledger}
  {ts : List (Traverser (Nat → σ))} {takers : List (Turntaker (Nat → σ))}
  {w w' : Workspace (Nat → σ)}

theorem Together.outcomes (h : Together s accepts report answer start ts takers w)
    (hended : ∀ r ∈ takers, ∃ failure, r.standing = .ended failure) :
    takers.mapM outcome = ts.mapM answer := by
  have hanswers : ∀ r ∈ takers, r.outcome = answer r.traverser := by
    intro r hr
    obtain ⟨failure, hstanding⟩ := hended r hr
    rcases (h.courses r hr).2.due_or_ended 0 with ⟨hdue, -⟩ | ⟨-, hanswer⟩
    · rw [isDue, hstanding] at hdue
      cases hdue
    · exact hanswer
  rw [← h.traversers]
  clear h hended
  induction takers with
  | nil => rfl
  | cons r takers ih =>
    obtain ⟨hr, hothers⟩ := List.forall_mem_cons.1 hanswers
    rw [List.map_cons, List.mapM_cons, List.mapM_cons, hr, ih hothers]

theorem mapM_outcome {υ : Type} (takers : List (Turntaker υ)) (w : Workspace υ) :
    (takers.mapM fun r => match r.failure? with
      | some e => Action.fail e
      | none => pure r.entries : Action (Workspace υ) (List (List Entry))) w =
        (takers.mapM outcome, w) := by
  induction takers with
  | nil => rfl
  | cons r takers ih =>
    rw [List.mapM_cons, List.mapM_cons, outcome, Action.bind_apply]
    cases r.failure? with
    | some e => rfl
    | none =>
      dsimp only [Action.pure_apply]
      rw [Action.bind_apply, ih]
      cases takers.mapM outcome <;> rfl

end Turntaker

namespace Workspace

/-- Since then all cursors that were opened have been closed. -/
structure Released {υ : Type} (w w' : Workspace υ) : Prop where
  openCursors : w'.store.openCursors = w.store.openCursors
  closed : ∀ i c, w.cursors.length ≤ i → w'.cursors[i]? = some c → c.closed = true

theorem released_of_entrusted {υ : Type} {mine : List Nat} {w w' : Workspace υ}
    (hw : w.ledger.Balanced) (h : Ledger.Entrusted w.ledger mine [] w'.ledger) :
    w.Released w' where
  openCursors := h.openCursors hw
  closed i c hi hc := by
    have hget : w'.ledger.cursors[i]? = some c.account := by
      rw [ledger, List.getElem?_map, hc]
      rfl
    have hlength : w.ledger.cursors.length = w.cursors.length := List.length_map _
    exact h.closed (hlength ▸ hi) hget

end Workspace

namespace Traverser

open Workspace

variable {σ : Type} {t : Traverser (Nat → σ)} {ts : List (Traverser (Nat → σ))}
  {w : Workspace (Nat → σ)}

theorem IsPrivate.isNeat {accepts : String → Action σ Bool} {report : String → Action σ Unit}
    (ht : t.IsPrivate accepts report) : t.IsNeat where
  backend := ht.backend
  predicate path := by
    rw [ht.predicate]
    exact Quiet.restores fun _ => rfl
  progress id := by
    rw [ht.progress]
    exact Quiet.restores fun _ => rfl

/-- Functions of the path and the id alone need no state. -/
theorem isPrivate_of_pure (hdelivery : t.delivery = .documents) (hbackend : t.backend = .memory)
    {accepts : String → Except Failure Bool} {report : String → Except Failure Unit}
    (hpredicate : t.predicate = fun path => Action.ofExcept (accepts path))
    (hprogress : t.progress = fun id => Action.ofExcept (report id)) :
    t.IsPrivate (fun path => Action.ofExcept (accepts path))
      fun id => Action.ofExcept (report id) := by
  have hpure {α : Type} (r : Except Failure α) :
      Action.ofExcept r = privately (σ := σ) t.number (Action.ofExcept r) := by
    funext w
    cases r <;> simp only [Action.ofExcept, privately, Action.zoom, Action.pure_apply,
      Action.fail_apply, Function.update_eq_self]
  refine ⟨hdelivery, hbackend, ?_, ?_⟩
  · rw [hpredicate]
    exact funext fun path => hpure (accepts path)
  · rw [hprogress]
    exact funext fun id => hpure (report id)

variable {accepts : Nat → String → Action σ Bool} {report : Nat → String → Action σ Unit}

theorem together_closing (hs : w.store.Sound) (hw : w.ledger.Balanced)
    (hts : ∀ t ∈ ts, t.IsPrivate (accepts t.number) (report t.number) ∧ t.IsFresh w ∧
      ∃ v, (t.state w).pin = .of v) :
    Turntaker.Together w.store accepts report (fun t => (t.toList w).1) w.ledger ts
      (Turntaker.closing ts) w := by
  have hnone : ∀ n ∈ ts.map number, w.registered n = [] := by
    intro n hn
    obtain ⟨t, ht, rfl⟩ := List.mem_map.1 hn
    exact (hts t ht).2.1.registered
  refine ⟨.refl _, ?_, ⟨fun n hn i hi => ?_, fun n hn m _ _ i hi => ?_⟩, fun r hr => ?_,
    Turntaker.carried_closing hw fun t ht => ⟨(hts t ht).1.isNeat, (hts t ht).2.1⟩⟩
  · rw [Turntaker.closing, List.map_map]
    exact List.map_id _
  · rw [hnone n hn] at hi
    cases hi
  · rw [hnone n hn] at hi
    cases hi
  · obtain ⟨t, ht, rfl⟩ := Turntaker.of_mem_closing hr
    obtain ⟨hprivate, hfresh, v, hpin⟩ := hts t ht
    exact ⟨hprivate, .unbegun v rfl rfl hfresh.made hpin hfresh.registered
      (toList_eq_traversal hprivate hs hpin).symm⟩

/-- Traversers of pinned snapshots run at once. In whatever order they take their turns, all have
ended when each was given a turn for every document and one more. When all have ended they have come
to what each comes to alone: to the entries of all, or else to the failure of the first in the list
that fails; and all cursors are closed. So does the run that goes around. -/
theorem concurrent_answers (hs : w.store.Sound) (hw : w.ledger.Balanced)
    (hdistinct : (ts.map number).Nodup)
    (hts : ∀ t ∈ ts, t.IsPrivate (accepts t.number) (report t.number) ∧ t.IsFresh w ∧
      ∃ v, (t.state w).pin = .of v) :
    let alone : Except Failure (List (List Entry)) := ts.mapM fun t => (t.toList w).1
    let takers : List (Turntaker (Nat → σ)) :=
      ts.map fun traverser => { traverser, closes := true }
    (∀ schedule, ∃ ended w', Line.scheduled schedule takers w = (.ok ended, w') ∧
      ((∀ i < ts.length, w.store.catalog.items.length < schedule.count i) →
        ∀ r ∈ ended, ∃ failure, r.standing = .ended failure) ∧
      ((∀ r ∈ ended, ∃ failure, r.standing = .ended failure) →
        ended.mapM Turntaker.outcome = alone ∧ w.Released w')) ∧
    ∃ l w', (Line.ofTakers takers).run w = (.ok l, w') ∧
      (∀ r ∈ l.takers, ∃ failure, r.standing = .ended failure) ∧
      concurrent ts w = (alone, w') ∧ w.Released w' := by
  intro alone takers
  have hstart : Turntaker.Together w.store accepts report (fun t => (t.toList w).1) w.ledger ts
      takers w := together_closing hs hw hts
  have hunbegun : ∀ r ∈ takers, r.standing = .unbegun := Turntaker.unbegun_closing
  refine ⟨fun schedule => ?_, ?_⟩
  · obtain ⟨ended, w', hrun, hend, hleft⟩ := Line.scheduled_together hstart hs hdistinct schedule
    refine ⟨ended, w', hrun, fun hfair r hr => ?_, fun hended => ⟨hend.outcomes hended, ?_⟩⟩
    · obtain ⟨i, hi⟩ := List.getElem?_of_mem hr
      obtain ⟨r₀, hr₀, hless⟩ := hleft i r hi
      have hturns : r₀.turnsLeft w.store.catalog.items.length =
          w.store.catalog.items.length + 1 := by
        rw [Turntaker.turnsLeft, hunbegun r₀ (List.mem_of_getElem? hr₀)]
      have hlt : i < ts.length := by
        have hlt := (List.getElem?_eq_some_iff.1 hr₀).1
        rwa [List.length_map] at hlt
      have hcount := hfair i hlt
      rcases (hend.courses r hr).2.due_or_ended w.store.catalog.items.length with
        ⟨-, hpositive⟩ | ⟨hended, -⟩
      · omega
      · exact hended
    · exact released_of_entrusted hw (hend.carried.entrusted hended)
  · obtain ⟨l, w', hrun, hend, hended⟩ :=
      Line.run_ends (Line.carries_together hs hdistinct) hunbegun hstart
    have hanswers := Turntaker.mapM_outcome l.takers w'
    rw [hend.outcomes hended] at hanswers
    refine ⟨l, w', hrun, hended, ?_, released_of_entrusted hw (hend.carried.entrusted hended)⟩
    rw [concurrent, Action.bind_apply, show Line.run _ w = _ from hrun]
    exact hanswers

/-- The third traverser fails before the second one does, and the second one's failure counts. -/
theorem concurrent_answers_of_two_failures :
    let commits : List Commit := [{ revision := ⟨1, 0, 1⟩, properties := some [] }]
    let a : Document := { Document.forPath "/a" with commits }
    let b : Document := { Document.forPath "/b" with commits }
    let v : RevisionVector := .ofList [⟨1, 0, 1⟩]
    let w : Workspace (Nat → Unit) :=
      { repository := { store := ((DocumentStore.written {} a).written b) }
        traversers := List.replicate 3 { pin := .of v }, caller := fun _ => () }
    let refuses (refused message path : String) : Except Failure Bool :=
      if path = refused then .error (.raised .runtime message) else .ok true
    let accepts : Nat → String → Except Failure Bool
      | 0 => fun _ => .ok true
      | 1 => refuses "/b" "second"
      | _ => refuses "/a" "third"
    let t (number : Nat) : Traverser (Nat → Unit) :=
      { number, label := "t", delivery := .documents
        predicate := fun path => Action.ofExcept (accepts number path) }
    let ts : List (Traverser (Nat → Unit)) := [t 0, t 1, t 2]
    (∃ takers e w', Line.scheduled [2, 1, 2, 0, 2, 1, 0, 1, 0]
        (ts.map fun traverser => { traverser, closes := true }) w = (.ok takers, w') ∧
      takers.mapM Turntaker.outcome = .error e ∧ e.message = "second" ∧ w.Released w') ∧
    ∃ e w', concurrent ts w = (.error e, w') ∧ e.message = "second" ∧ w.Released w' := by
  intro commits a b v w refuses accepts t ts
  have hsound : w.store.Sound := DocumentStore.sound_written (DocumentStore.sound_written
    (DocumentStore.sound_create (c := { enabled := false }) rfl) a) b
  have hbalanced : w.ledger.Balanced := ⟨rfl, rfl, fun parts hparts => by cases hparts⟩
  let asked (n : Nat) (path : String) : Action Unit Bool := Action.ofExcept (accepts n path)
  let told (_ : Nat) (_ : String) : Action Unit Unit := Action.ofExcept (.ok ())
  have hprivate (n : Nat) : (t n).IsPrivate (asked n) (told n) := isPrivate_of_pure rfl rfl rfl rfl
  have hts : ∀ x ∈ ts, x.IsPrivate (asked x.number) (told x.number) ∧ x.IsFresh w ∧
      ∃ v, (x.state w).pin = .of v := by
    intro x hx
    simp only [ts, List.mem_cons, List.not_mem_nil, or_false] at hx
    rcases hx with rfl | rfl | rfl <;>
      exact ⟨hprivate _, ⟨by decide, rfl, rfl, rfl, rfl⟩, v, rfl⟩
  have hdistinct : (ts.map number).Nodup := by decide
  obtain ⟨hscheduled, -, w₁, -, -, hrun, hreleased⟩ :=
    concurrent_answers hsound hbalanced hdistinct hts
  obtain ⟨takers, w₂, htakers, hfair, hanswers⟩ := hscheduled [2, 1, 2, 0, 2, 1, 0, 1, 0]
  have hsecond : (match ts.mapM fun t => (t.toList w).1 with
      | .error e => e.message
      | .ok _ => "") = "second" := by decide +kernel
  cases halone : ts.mapM fun t => (t.toList w).1 with
  | ok entries =>
    rw [halone] at hsecond
    have hempty : "" = "second" := hsecond
    exact absurd hempty (by decide)
  | error e =>
    rw [halone] at hsecond hanswers hrun
    obtain ⟨houtcomes, hreleased₂⟩ := hanswers (hfair (by decide +kernel))
    exact ⟨⟨takers, e, w₂, htakers, houtcomes, hsecond, hreleased₂⟩, e, w₁, hrun, hsecond,
      hreleased⟩

end Traverser

end VersionedTree
