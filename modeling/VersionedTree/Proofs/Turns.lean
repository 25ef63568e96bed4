import VersionedTree.Proofs.Ledgers
import VersionedTree.Proofs.Scans
import VersionedTree.Proofs.Visits

/-! # Turns

A turn of an iteration ends it, or leaves fewer documents to be visited than before. So a line of
iterations comes to its end, whatever the caller's functions do and in whatever state the store is.
-/

namespace VersionedTree

namespace Standing

/-- Between its turns an iteration has not begun, has delivered all that is pending, or is over. -/
inductive Rests : Standing → Prop where
  | unbegun : Rests .unbegun
  | due {scan : Scan} (hpending : scan.pending = {}) (hrested : scan.rested = true) :
    Rests (.due (.scanning scan))
  | ended (failure : Option Failure) : Rests (.ended failure)

end Standing

/-- Nobody reads the head for the traverser of this number, or waits for it. -/
def Ledger.Idle (l : Ledger) (n : Nat) : Prop := ∃ snapshot, (l.holding n).pin = { snapshot }

theorem Ledger.repinned_congr {l : Ledger} {n : Nat} {f g : Pin → Pin}
    (h : f (l.holding n).pin = g (l.holding n).pin) : l.repinned n f = l.repinned n g := by
  have hsame : l.traversers.modify n (fun h => { h with pin := f h.pin }) =
      l.traversers.modify n fun h => { h with pin := g h.pin } := by
    rw [holding, List.getD_eq_getElem?_getD] at h
    refine List.ext_getElem? fun i => ?_
    rw [List.getElem?_modify, List.getElem?_modify]
    by_cases hi : n = i
    · subst hi
      cases hn : l.traversers[n]? with
      | none => rfl
      | some x =>
        rw [hn, Option.getD_some] at h
        simp only [if_true, Option.map_eq_map, Option.map_some, h]
    · simp only [hi, if_false]
  rw [repinned, repinned, modifyHolding, modifyHolding, hsame]

namespace Traverser

variable {υ : Type} {t : Traverser υ} {w : Workspace υ} {scan : Scan}

/-- What a step of a scan that may pause comes to. If it does not end the scan, fewer documents are
left than there were. -/
inductive Sought (scan : Scan) (n : Nat) : Except Failure Step → Prop where
  | failed (e : Failure) : Sought scan n (.error e)
  | finished : Sought scan n (.ok .finished)
  | paused (rest : List Stored) (hrest : rest.length < n) :
    Sought scan n (.ok (.paused (.scanning { scan with remaining := rest, rested := true })))
  | entry (e : Entry) (next : Scan) (hrest : next.remaining.length < n)
    (hrested : next.rested = false) : Sought scan n (.ok (.entry e (.scanning next)))

theorem Sought.mono {n m : Nat} {step : Except Failure Step} (h : Sought scan n step)
    (hnm : n ≤ m) : Sought scan m step := by
  cases h with
  | failed e => exact .failed e
  | finished => exact .finished
  | paused rest hrest => exact .paused rest (Nat.lt_of_lt_of_le hrest hnm)
  | entry e next hrest hrested => exact .entry e next (Nat.lt_of_lt_of_le hrest hnm) hrested

theorem sought_seek (t : Traverser υ) (scan : Scan) (items : List Stored) (w : Workspace υ) :
    Sought scan items.length (t.seek true scan items w).1 := by
  induction items generalizing w with
  | nil => exact .finished
  | cons item rest ih =>
    have hlt : rest.length < (item :: rest).length := Nat.lt_succ_self _
    rw [seek, Action.bind_apply]
    rcases t.visit scan item w with ⟨e | visited, w₁⟩
    · exact .failed e
    cases visited with
    | skipped => exact (ih w₁).mono (Nat.le_of_lt hlt)
    | dropped =>
      simp only [Action.bind_apply]
      rcases Workspace.requireOpen scan.cursor w₁ with ⟨e | ⟨⟩, w₂⟩
      · exact .failed e
      · exact .paused rest hlt
    | found first more => exact .entry _ _ hlt rfl

theorem advanceScan_rested (t : Traverser υ) (mayPause : Bool) (hpending : scan.pending = {})
    (hrested : scan.rested = true) :
    t.advanceScan mayPause scan = (do
      Workspace.resumeFetch scan.cursor
      t.seek mayPause scan scan.remaining) := by
  rw [advanceScan, hpending, hrested]
  rfl

theorem sought_advanceScan (t : Traverser υ) (hpending : scan.pending = {})
    (hrested : scan.rested = true) (w : Workspace υ) :
    Sought scan scan.remaining.length (t.advanceScan true scan w).1 := by
  rw [advanceScan_rested t true hpending hrested, Action.bind_apply]
  rcases Workspace.resumeFetch scan.cursor w with ⟨e | ⟨⟩, w₁⟩
  · exact .failed e
  · exact sought_seek t scan scan.remaining w₁

theorem readHead_eq (hbackend : t.backend = .memory) (w : Workspace υ) :
    t.readHead w = t.openScan w.head
      (t.modifyState (fun s => { s with pin := s.pin.answer (.ok w.head) }) w) := by
  rw [readHead, hbackend]
  rfl

/-- An iteration of an idle traverser pins its snapshot, if it is not pinned yet, and opens its
scan. -/
theorem advance_idle (hbackend : t.backend = .memory) (hidle : w.ledger.Idle t.number)
    (mayPause : Bool) (ticket : Nat) :
    ∃ v w₁, w₁.ledger = w.ledger.repinned t.number (fun _ => .of v) ∧
      t.advance mayPause (.entering ticket) w =
        (do t.advanceScan mayPause (← t.openScan v)) w₁ := by
  obtain ⟨snapshot, hpin⟩ := hidle
  have hpin : (t.state w).pin = { snapshot } := by
    rw [← hpin, ← Workspace.holding_traverser]
    rfl
  have hask : t.ask ticket w = (.ok ((t.state w).pin.ask ticket).1,
      t.modifyState (fun s => { s with pin := ((t.state w).pin.ask ticket).2 }) w) := rfl
  rw [hpin] at hask
  cases snapshot with
  | some v =>
    refine ⟨v, _, ledger_repin (fun _ => .of v) w, ?_⟩
    rw [advance, Action.bind_apply, hask]
    rfl
  | none =>
    let asked : Pin := { called := some ticket, reading := true }
    let w₁ : Workspace υ := t.modifyState (fun s => { s with pin := asked }) w
    have hadvance : t.advance mayPause (.entering ticket) w =
        (do t.advanceScan mayPause (← t.readHead)) w₁ := by
      rw [advance, Action.bind_apply, hask, hbackend]
      cases mayPause <;> rfl
    refine ⟨w₁.head,
      t.modifyState (fun s => { s with pin := s.pin.answer (.ok w₁.head) }) w₁, ?_, ?_⟩
    · rw [ledger_repin (fun pin => pin.answer (.ok w₁.head)), ledger_repin fun _ => asked]
      simp only [Ledger.modifyHolding, Ledger.repinned, List.modify_modify_eq]
      rfl
    · rw [hadvance, Action.bind_apply, Action.bind_apply, readHead_eq hbackend]

/-- While nobody reads the head or waits for it, all that a step pins is a snapshot. -/
theorem upholds_advance_of_idle {P : Ledger → Prop} (ht : t.Heeds P)
    (hidle : ∀ l, P l → l.Idle t.number)
    (hpinned : ∀ l v, P l → P (l.repinned t.number fun _ => .of v))
    (hscanned : ∀ l, P l → P (l.scanned t.number)) (mayPause : Bool) (it : Iteration) :
    Workspace.Upholds P (t.advance mayPause it) := by
  have hopen (v : RevisionVector) :
      Workspace.Upholds P (do t.advanceScan mayPause (← t.openScan v)) :=
    (upholds_openScan ht.backend hscanned v).bind fun scan => upholds_advanceScan ht mayPause scan
  intro w hw
  cases it with
  | finished => exact hw
  | scanning scan => exact upholds_advanceScan ht mayPause scan w hw
  | reading =>
    let w₁ := t.modifyState (fun s => { s with pin := s.pin.answer (.ok w.head) }) w
    have hw₁ : P w₁.ledger := by
      obtain ⟨snapshot, hpin⟩ := hidle _ hw
      have hpins : w₁.ledger = w.ledger.repinned t.number fun _ => .of w.head := by
        rw [ledger_repin fun pin => pin.answer (.ok w.head)]
        refine Ledger.repinned_congr ?_
        rw [hpin]
        rfl
      exact hpins ▸ hpinned _ _ hw
    have hadvance : t.advance mayPause .reading w =
        (do t.advanceScan mayPause (← t.openScan w.head)) w₁ := by
      rw [advance, Action.bind_apply, Action.bind_apply, readHead_eq ht.backend]
    rw [hadvance]
    exact hopen w.head w₁ hw₁
  | entering ticket =>
    obtain ⟨v, w₁, hpins, hadvance⟩ := advance_idle ht.backend (hidle _ hw) mayPause ticket
    have hw₁ : P w₁.ledger := hpins ▸ hpinned _ v hw
    rw [hadvance]
    exact hopen v w₁ hw₁

end Traverser

namespace Turntaker

open Workspace Traverser

variable {υ : Type} {r r' : Turntaker υ} {w w' : Workspace υ} {n : Nat}

/-- A turn ended the iteration, closing the traverser if that was to be done, or it left fewer than
so many documents to be visited. -/
structure Took (r : Turntaker υ) (n : Nat) (r' : Turntaker υ) (w' : Workspace υ) : Prop where
  traverser : r'.traverser = r.traverser
  closes : r'.closes = r.closes
  standing :
    (∃ failure, r'.standing = .ended failure ∧
      (r.closes = true → ∃ w, w' = (r.traverser.close w).2)) ∨
    ∃ scan, r'.standing = .due (.scanning scan) ∧ scan.pending = {} ∧ scan.rested = true ∧
      scan.remaining.length < n

theorem took_ended (r : Turntaker υ) (n : Nat) (failure : Option Failure) (w : Workspace υ) :
    ∃ r' w', r.ended failure w = (.ok r', w') ∧ r.Took n r' w' := by
  rw [ended]
  split
  · rename_i hcloses
    rw [Action.bind_apply, Action.attempt]
    rcases hclose : r.traverser.close w with ⟨e | ⟨⟩, w₁⟩
    · refine ⟨_, w₁, rfl, rfl, rfl, .inl ⟨some e, rfl, fun _ => ⟨w, ?_⟩⟩⟩
      rw [hclose]
    · refine ⟨_, w₁, rfl, rfl, rfl, .inl ⟨failure, rfl, fun _ => ⟨w, ?_⟩⟩⟩
      rw [hclose]
  · rename_i hcloses
    exact ⟨_, w, rfl, rfl, rfl, .inl ⟨failure, rfl, fun h => absurd h hcloses⟩⟩

theorem setFetching_eq (fetching : Bool) (it : Iteration) (w : Workspace υ) :
    ∃ w', setFetching fetching it w = (.ok (), w') := by
  cases it <;> exact ⟨_, rfl⟩

theorem took_paused (r : Turntaker υ) (scan : Scan) (hpending : scan.pending = {})
    (hrested : scan.rested = true) (hn : scan.remaining.length < n) (w : Workspace υ) :
    ∃ r' w', r.settled (.ok (.paused (.scanning scan))) w = (.ok r', w') ∧ r.Took n r' w' := by
  obtain ⟨w₁, hset⟩ := setFetching_eq true (.scanning scan) w
  refine ⟨{ r with standing := .due (.scanning scan) }, w₁, ?_, rfl, rfl,
    .inr ⟨scan, rfl, hpending, hrested, hn⟩⟩
  rw [settled, Action.bind_apply, hset]
  rfl

theorem goOn_settled (r : Turntaker υ) {it : Iteration} {w₁ w₂ : Workspace υ}
    {step : Except Failure Step} (hset : setFetching false it w = (.ok (), w₁))
    (hstep : r.traverser.advance true it w₁ = (step, w₂))
    (hempty : ∀ e next, step ≠ .ok (.entry e next)) : r.goOn it w = r.settled step w₂ := by
  rw [goOn, Action.bind_apply, hset]
  simp only [Action.bind_apply, Action.attempt, hstep]

/-- When a document has something to deliver, all of it is delivered at once, and then the iteration
pauses. -/
theorem goOn_entry (r : Turntaker υ) {it : Iteration} {w₁ w₂ : Workspace υ} {e : Entry}
    {next : Scan} (hset : setFetching false it w = (.ok (), w₁))
    (hstep : r.traverser.advance true it w₁ = (.ok (.entry e (.scanning next)), w₂))
    (hrested : next.rested = false) :
    let delivered : Turntaker υ := { r with
      entries := r.entries ++ e :: next.pending.states.map (Entry.ofState next.modified) }
    r.goOn it w = match next.pending.failure with
      | some e => delivered.ended (some e) w₂
      | none => match Workspace.requireOpen next.cursor w₂ with
        | (.error e, w₃) => delivered.ended (some e) w₃
        | (.ok (), w₃) => delivered.settled (.ok (.paused (.scanning
          { next with
            pending := {}, produced := next.produced + next.pending.states.length
            rested := true }))) w₃ := by
  intro delivered
  let scan : Scan := { next with
    pending := { next.pending with states := [] }
    produced := next.produced + next.pending.states.length }
  have hend : r.goOn it w =
      (do delivered.settled (← Action.attempt (r.traverser.advanceScan true scan))) w₂ := by
    rw [goOn, Action.bind_apply, hset]
    simp only [Action.bind_apply, Action.attempt, hstep]
    rfl
  rw [hend, Action.bind_apply, Action.attempt]
  cases hfailure : next.pending.failure with
  | some e =>
    have hfailed : r.traverser.advanceScan true scan w₂ = (.error e, w₂) := by
      simp only [advanceScan, scan, hfailure]
      rfl
    rw [hfailed]
    rfl
  | none =>
    have hpending : scan.pending = {} := by simp only [scan, hfailure]
    rw [advanceScan_between hpending hrested, Action.bind_apply]
    rcases Workspace.requireOpen next.cursor w₂ with ⟨e | ⟨⟩, w₃⟩
    · rfl
    · simp only [scan, hfailure]
      rfl

theorem took_goOn (r : Turntaker υ) {scan : Scan} (hpending : scan.pending = {}) {it : Iteration}
    {w₁ w₂ : Workspace υ} {step : Except Failure Step}
    (hset : setFetching false it w = (.ok (), w₁))
    (hstep : r.traverser.advance true it w₁ = (step, w₂)) (hsought : Sought scan n step) :
    ∃ r' w', r.goOn it w = (.ok r', w') ∧ r.Took n r' w' := by
  cases hsought with
  | failed e =>
    rw [goOn_settled r hset hstep fun _ _ h => by cases h]
    exact took_ended r _ (some e) w₂
  | finished =>
    rw [goOn_settled r hset hstep fun _ _ h => by cases h]
    exact took_ended r _ none w₂
  | paused rest hrest =>
    rw [goOn_settled r hset hstep fun _ _ h => by cases h]
    exact took_paused r { scan with remaining := rest, rested := true } hpending rfl hrest w₂
  | entry e next hrest hrested =>
    let delivered : Turntaker υ := { r with
      entries := r.entries ++ e :: next.pending.states.map (Entry.ofState next.modified) }
    have hend : ∃ r' w', r.goOn it w = (.ok r', w') ∧ delivered.Took n r' w' := by
      rw [goOn_entry r hset hstep hrested]
      cases next.pending.failure with
      | some e => exact took_ended delivered _ (some e) w₂
      | none =>
        rcases Workspace.requireOpen next.cursor w₂ with ⟨e | ⟨⟩, w₃⟩
        · exact took_ended delivered _ (some e) w₃
        · let rested : Scan := { next with
            pending := {}, produced := next.produced + next.pending.states.length, rested := true }
          exact took_paused delivered rested rfl rfl hrest w₃
    obtain ⟨r', w', hgoOn, htook⟩ := hend
    exact ⟨r', w', hgoOn, htook.traverser, htook.closes, htook.standing⟩

theorem took_due (r : Turntaker υ) {scan : Scan} (hstanding : r.standing = .due (.scanning scan))
    (hpending : scan.pending = {}) (hrested : scan.rested = true) (w : Workspace υ) :
    ∃ r' w', r.turn w = (.ok r', w') ∧ r.Took scan.remaining.length r' w' := by
  obtain ⟨w₁, hset⟩ := setFetching_eq false (.scanning scan) w
  rw [turn, hstanding]
  exact took_goOn r hpending hset rfl (sought_advanceScan r.traverser hpending hrested w₁)

theorem took_unbegun (r : Turntaker υ) (hbackend : r.traverser.backend = .memory)
    (hstanding : r.standing = .unbegun) (hidle : w.ledger.Idle r.traverser.number) :
    ∃ r' w' n, r.turn w = (.ok r', w') ∧ r.Took n r' w' := by
  obtain ⟨ticket, w₁, hiterate⟩ : ∃ ticket w₁, r.traverser.iterate w = (.ok ticket, w₁) :=
    ⟨_, _, rfl⟩
  have hidle₁ : w₁.ledger.Idle r.traverser.number := by
    have hupholds : Upholds (·.Idle r.traverser.number) r.traverser.iterate := upholds_iterate _
    have hidle₁ := hupholds w hidle
    rwa [hiterate] at hidle₁
  obtain ⟨v, w₂, -, hadvance⟩ := advance_idle hbackend hidle₁ true ticket
  rw [turn, hstanding]
  simp only [Action.bind_apply, hiterate]
  rw [Action.bind_apply] at hadvance
  rcases hscan : r.traverser.openScan v w₂ with ⟨e | scan, w₃⟩
  · rw [hscan] at hadvance
    let unopened : Scan :=
      { tally := 0, cursor := 0, snapshot := v, hiddenRoots := [], remaining := [] }
    have hpending : unopened.pending = {} := rfl
    obtain ⟨r', w', hgoOn, htook⟩ := took_goOn r hpending rfl hadvance (.failed (n := 0) e)
    exact ⟨r', w', 0, hgoOn, htook⟩
  · rw [hscan] at hadvance
    obtain ⟨hpending, hrested, -⟩ := fresh_of_openScan hscan
    obtain ⟨r', w', hgoOn, htook⟩ := took_goOn r hpending rfl hadvance
      (sought_advanceScan r.traverser hpending hrested w₃)
    exact ⟨r', w', _, hgoOn, htook⟩

/-- It is nearer to its end, by what it is known to have before it. -/
def Nearer (r' r : Turntaker υ) : Prop :=
  r'.turnsToScan < r.turnsToScan ∨
    r'.turnsToScan = r.turnsToScan ∧ r'.turnsToEnd < r.turnsToEnd

theorem Took.rests (h : r.Took n r' w') : r'.standing.Rests := by
  obtain ⟨failure, hended, -⟩ | ⟨scan, hdue, hpending, hrested, -⟩ := h.standing
  · exact hended ▸ .ended failure
  · exact hdue ▸ .due hpending hrested

theorem Took.turnsToScan_eq (h : r.Took n r' w') : r'.turnsToScan = 0 := by
  obtain ⟨failure, hended, -⟩ | ⟨scan, hdue, -⟩ := h.standing
  · rw [turnsToScan, hended]
  · rw [turnsToScan, hdue]

theorem Took.turnsToEnd_le (h : r.Took n r' w') : r'.turnsToEnd ≤ n := by
  obtain ⟨failure, hended, -⟩ | ⟨scan, hdue, -, -, hn⟩ := h.standing
  · rw [turnsToEnd, hended]
    exact Nat.zero_le n
  · rw [turnsToEnd, hdue]
    exact hn

/-- Whoever is due ends or comes nearer to the end. -/
theorem took_turn (r : Turntaker υ) (hbackend : r.traverser.backend = .memory)
    (hidle : w.ledger.Idle r.traverser.number) (hrests : r.standing.Rests)
    (hdue : r.isDue = true) :
    ∃ r' w' n, r.turn w = (.ok r', w') ∧ r.Took n r' w' ∧ r'.Nearer r := by
  obtain ⟨standing, hstanding⟩ : ∃ standing, r.standing = standing := ⟨_, rfl⟩
  rw [hstanding] at hrests
  cases hrests with
  | unbegun =>
    obtain ⟨r', w', n, hturn, htook⟩ := took_unbegun r hbackend hstanding hidle
    refine ⟨r', w', n, hturn, htook, .inl ?_⟩
    rw [htook.turnsToScan_eq, turnsToScan, hstanding]
    exact Nat.zero_lt_succ _
  | @due scan hpending hrested =>
    obtain ⟨r', w', hturn, htook⟩ := took_due r hstanding hpending hrested w
    have hscan : r.turnsToScan = 0 := by rw [turnsToScan, hstanding]
    have hend : r.turnsToEnd = scan.remaining.length + 1 := by rw [turnsToEnd, hstanding]
    refine ⟨r', w', _, hturn, htook, .inr ⟨htook.turnsToScan_eq.trans hscan.symm, ?_⟩⟩
    rw [hend]
    exact Nat.lt_succ_of_le htook.turnsToEnd_le
  | ended failure =>
    rw [isDue, hstanding] at hdue
    cases hdue

end Turntaker

namespace Line

variable {υ : Type} {l : Line υ} {w : Workspace υ} {i : Nat} {r r' : Turntaker υ}

/-- Nobody waits for another, and whoever is due is in line, once. -/
structure Orderly (l : Line υ) : Prop where
  nodup : l.order.Nodup
  mem_order : ∀ i, i ∈ l.order ↔ ∃ r, l.takers[i]? = some r ∧ r.isDue = true
  rests : ∀ r ∈ l.takers, r.standing.Rests

theorem orderly_ofTakers {takers : List (Turntaker υ)}
    (h : ∀ r ∈ takers, r.standing = .unbegun) : (ofTakers takers).Orderly where
  nodup := List.nodup_range
  mem_order i := by
    have hdue {r : Turntaker υ} (hr : takers[i]? = some r) : r.isDue = true := by
      rw [Turntaker.isDue, h r (List.mem_of_getElem? hr)]
    rw [ofTakers, List.mem_range]
    refine ⟨fun hi => ?_, fun ⟨r, hr, _⟩ => (List.getElem?_eq_some_iff.1 hr).1⟩
    have hr : takers[i]? = some takers[i] := List.getElem?_eq_getElem hi
    exact ⟨takers[i], hr, hdue hr⟩
  rests r hr := h r hr ▸ .unbegun

theorem Orderly.ended (hl : l.Orderly) (horder : l.order = []) :
    ∀ r ∈ l.takers, ∃ failure, r.standing = .ended failure := by
  intro r hr
  have hdue : r.isDue = true → False := by
    intro hdue
    obtain ⟨i, hi⟩ := List.getElem?_of_mem hr
    have hmem := (hl.mem_order i).2 ⟨r, hi, hdue⟩
    rw [horder] at hmem
    cases hmem
  obtain ⟨standing, hstanding⟩ : ∃ standing, r.standing = standing := ⟨_, rfl⟩
  have hrests := hl.rests r hr
  rw [hstanding] at hrests
  rw [Turntaker.isDue, hstanding] at hdue
  cases hrests with
  | unbegun => exact (hdue rfl).elim
  | due _ _ => exact (hdue rfl).elim
  | ended failure => exact ⟨failure, hstanding⟩

theorem called_of_rests {takers : List (Turntaker υ)} (h : ∀ r ∈ takers, r.standing.Rests)
    (w : Workspace υ) : called w takers = [] := by
  refine List.filter_eq_nil_iff.2 fun i _ => ?_
  cases hi : takers[i]? with
  | none => exact Bool.false_ne_true
  | some r =>
    obtain ⟨standing, hstanding⟩ : ∃ standing, r.standing = standing := ⟨_, rfl⟩
    have hrests := h r (List.mem_of_getElem? hi)
    rw [hstanding] at hrests
    rw [Option.any_some, Turntaker.isCalled, hstanding]
    cases hrests <;> exact Bool.false_ne_true

theorem Orderly.turned (hl : l.Orderly) {rest : List Nat} (horder : l.order = i :: rest)
    (hr' : r'.standing.Rests) :
    Orderly ⟨l.takers.set i r', rest ++ if r'.isDue then [i] else []⟩ := by
  have hnodup := hl.nodup
  rw [horder, List.nodup_cons] at hnodup
  obtain ⟨r, hr, -⟩ := (hl.mem_order i).1 (horder ▸ List.mem_cons_self)
  obtain ⟨hi, -⟩ := List.getElem?_eq_some_iff.1 hr
  refine ⟨?_, fun j => ?_, fun x hx => ?_⟩
  · refine List.Nodup.append hnodup.2 ?_ fun j hrest hj => ?_
    · split
      · exact List.nodup_singleton i
      · exact List.nodup_nil
    · split at hj
      · exact hnodup.1 (List.mem_singleton.1 hj ▸ hrest)
      · cases hj
  · rw [List.mem_append]
    by_cases hj : j = i
    · subst hj
      rw [List.getElem?_set_self hi]
      cases hdue : r'.isDue with
      | true => exact ⟨fun _ => ⟨r', rfl, hdue⟩, fun _ => .inr (List.mem_singleton.2 rfl)⟩
      | false =>
        refine ⟨fun h => ?_, fun ⟨x, hx, hxdue⟩ => ?_⟩
        · exact (h.resolve_left hnodup.1 |> List.not_mem_nil).elim
        · cases hx
          exact absurd (hdue.symm.trans hxdue) Bool.false_ne_true
    · have hothers : j ∈ rest ↔ j ∈ l.order := by rw [horder, List.mem_cons, or_iff_right hj]
      rw [List.getElem?_set_ne (Ne.symm hj), hothers, ← hl.mem_order j]
      refine or_iff_left fun h => hj ?_
      split at h
      · exact List.mem_singleton.1 h
      · cases h
  · rcases List.mem_or_eq_of_mem_set hx with hx | hx
    · exact hl.rests x hx
    · exact hx ▸ hr'

theorem foldr_set (f : Turntaker υ → Nat) {takers : List (Turntaker υ)}
    (h : takers[i]? = some r) (r' : Turntaker υ) :
    (takers.set i r').foldr (fun r n => f r + n) 0 + f r =
      takers.foldr (fun r n => f r + n) 0 + f r' := by
  induction takers generalizing i with
  | nil => cases h
  | cons x rest ih =>
    cases i with
    | zero =>
      cases h
      simp only [List.set_cons_zero, List.foldr_cons]
      omega
    | succ i =>
      have hrest := ih h
      simp only [List.set_cons_succ, List.foldr_cons]
      omega

/-- What each turn preserves. A turn of one who is due comes nearer to the end. -/
def Carries (I : List (Turntaker υ) → Workspace υ → Prop) : Prop :=
  ∀ takers w i r, I takers w → takers[i]? = some r → r.standing.Rests → r.isDue = true →
    ∃ r' w', r.turn w = (.ok r', w') ∧ r'.standing.Rests ∧ r'.Nearer r ∧ I (takers.set i r') w'

variable {I : List (Turntaker υ) → Workspace υ → Prop}

theorem turn_nearer (hI : Carries I) (hl : l.Orderly) (hw : I l.takers w) {rest : List Nat}
    (horder : l.order = i :: rest) :
    ∃ l' w', l.turn w = (.ok l', w') ∧ l'.Orderly ∧ I l'.takers w' ∧
      (l'.turnsToScan < l.turnsToScan ∨
        l'.turnsToScan = l.turnsToScan ∧ l'.turnsToEnd < l.turnsToEnd) := by
  obtain ⟨r, hr, hdue⟩ := (hl.mem_order i).1 (horder ▸ List.mem_cons_self)
  obtain ⟨hi, -⟩ := List.getElem?_eq_some_iff.1 hr
  have hrests := hl.rests r (List.mem_of_getElem? hr)
  obtain ⟨r', w', hturn, hr', hnearer, hw'⟩ := hI l.takers w i r hw hr hrests hdue
  have hturned := hl.turned horder hr'
  refine ⟨_, w', ?_, hturned, hw', ?_⟩
  · have hcalled : called w' (l.takers.set i r') = [] := called_of_rests hturned.rests w'
    have htakers : turnOf l.takers i w = (.ok (l.takers.set i r'), w') := by
      rw [turnOf, hr]
      simp only [Action.bind_apply, hturn]
      rfl
    rw [turn, horder]
    simp only [Action.bind_apply, htakers, Action.get_apply, hcalled, List.filter_nil,
      List.append_nil, List.getElem?_set_self hi, Option.any_some]
    rfl
  · have hscan := foldr_set Turntaker.turnsToScan hr r'
    have hend := foldr_set Turntaker.turnsToEnd hr r'
    simp only [turnsToScan, turnsToEnd]
    rcases hnearer with hnearer | ⟨hsame, hnearer⟩
    · omega
    · omega

theorem turns_of_order_eq_nil (n : Nat) (horder : l.order = []) (w : Workspace υ) :
    turns n l w = (.ok l, w) := by
  induction n with
  | zero => rfl
  | succ n ih =>
    have hturn : l.turn w = (.ok l, w) := by
      rw [turn, horder]
      rfl
    rw [turns, Action.bind_apply, hturn]
    exact ih

theorem rounds_of_order_eq_nil (n : Nat) (horder : l.order = []) (w : Workspace υ) :
    rounds n l w = (.ok l, w) := by
  induction n with
  | zero => rfl
  | succ n ih =>
    rw [rounds, Action.bind_apply, turns_of_order_eq_nil _ horder w]
    exact ih

theorem turns_nearer (hI : Carries I) (n : Nat) (hl : l.Orderly) (hw : I l.takers w) :
    ∃ l' w', turns n l w = (.ok l', w') ∧ l'.Orderly ∧ I l'.takers w' ∧
      (l'.order = [] ∨ l'.turnsToScan < l.turnsToScan ∨
        l'.turnsToScan = l.turnsToScan ∧ l'.turnsToEnd + n ≤ l.turnsToEnd) := by
  induction n generalizing l w with
  | zero => exact ⟨l, w, rfl, hl, hw, .inr (.inr ⟨rfl, Nat.le_refl _⟩)⟩
  | succ n ih =>
    cases horder : l.order with
    | nil => exact ⟨l, w, turns_of_order_eq_nil _ horder w, hl, hw, .inl horder⟩
    | cons i rest =>
      obtain ⟨l₁, w₁, hturn, hl₁, hw₁, hfirst⟩ := turn_nearer hI hl hw horder
      obtain ⟨l₂, w₂, hturns, hl₂, hw₂, hothers⟩ := ih hl₁ hw₁
      refine ⟨l₂, w₂, ?_, hl₂, hw₂, hothers.imp_right fun hothers => ?_⟩
      · rw [turns, Action.bind_apply, hturn]
        exact hturns
      · omega

/-- After a round nobody is in line, or fewer are left that do not scan yet. -/
theorem rounds_nearer (hI : Carries I) (n : Nat) (hl : l.Orderly) (hw : I l.takers w) :
    ∃ l' w', rounds n l w = (.ok l', w') ∧ l'.Orderly ∧ I l'.takers w' ∧
      (l'.order = [] ∨ l'.turnsToScan + n ≤ l.turnsToScan) := by
  induction n generalizing l w with
  | zero => exact ⟨l, w, rfl, hl, hw, .inr (Nat.le_refl _)⟩
  | succ n ih =>
    obtain ⟨l₁, w₁, hround, hl₁, hw₁, hfirst⟩ := turns_nearer hI (l.turnsToEnd + 1) hl hw
    have hrounds : rounds (n + 1) l w = rounds n l₁ w₁ := by rw [rounds, Action.bind_apply, hround]
    rcases hfirst with hdone | hfirst
    · exact ⟨l₁, w₁, hrounds.trans (rounds_of_order_eq_nil n hdone w₁), hl₁, hw₁, .inl hdone⟩
    · obtain ⟨l₂, w₂, hothers, hl₂, hw₂, hend⟩ := ih hl₁ hw₁
      exact ⟨l₂, w₂, hrounds.trans hothers, hl₂, hw₂, hend.imp_right fun hend => by omega⟩

/-- Taking turns ends, with all iterations ended. -/
theorem run_ends (hI : Carries I) {takers : List (Turntaker υ)}
    (hunbegun : ∀ r ∈ takers, r.standing = .unbegun) (hw : I takers w) :
    ∃ l w', (ofTakers takers).run w = (.ok l, w') ∧ I l.takers w' ∧
      ∀ r ∈ l.takers, ∃ failure, r.standing = .ended failure := by
  obtain ⟨l, w', hrun, hl, hw', hend⟩ :=
    rounds_nearer hI ((ofTakers takers).turnsToScan + 1) (orderly_ofTakers hunbegun) hw
  refine ⟨l, w', hrun, hw', hl.ended ?_⟩
  exact hend.resolve_right (by omega)

end Line

end VersionedTree
