import VersionedTree.Proofs.Sweeps
import VersionedTree.Proofs.Turns

/-! # The course of an iteration

What an iteration comes to is settled when it begins. Its own turns bring it nearer to that, and
the turns of others touch nothing that it depends on.
-/

namespace VersionedTree

namespace Workspace

variable {σ : Type} {n m i : Nat} {b b' : Bool} {w w' w'' : Workspace (Nat → σ)}

/-- The cursors that a traverser has registered and not closed yet. -/
def registered (w : Workspace (Nat → σ)) (n : Nat) : List Nat := (w.traverser n).closer.resources

/-- From one workspace to the other a traverser went on by itself: what the others have is as it
was. -/
structure Beside (n : Nat) (w w' : Workspace (Nat → σ)) : Prop where
  store : w.store.Agrees w'.store
  cursors : ∀ i < w.cursors.length, i ∉ w.registered n → w'.cursors[i]? = w.cursors[i]?
  opened : w.cursors.length ≤ w'.cursors.length
  enrolled : w'.traversers.length = w.traversers.length
  terms : ∀ m ≠ n, (w'.traverser m).terms = (w.traverser m).terms
  caller : ∀ m ≠ n, w'.caller m = w.caller m
  registered : ∀ i ∈ w'.registered n,
    i ∈ w.registered n ∨ w.cursors.length ≤ i ∧ i < w'.cursors.length

theorem Beside.trans (h : w.Beside n w') (h' : w'.Beside n w'') : w.Beside n w'' where
  store := h.store.trans h'.store
  cursors i hi hmine := by
    have hmine' : i ∉ w'.registered n := by
      intro hi'
      rcases h.registered i hi' with hold | ⟨hnew, -⟩
      · exact hmine hold
      · exact absurd hi (Nat.not_lt.2 hnew)
    rw [h'.cursors i (Nat.lt_of_lt_of_le hi h.opened) hmine', h.cursors i hi hmine]
  opened := Nat.le_trans h.opened h'.opened
  enrolled := h'.enrolled.trans h.enrolled
  terms m hm := (h'.terms m hm).trans (h.terms m hm)
  caller m hm := (h'.caller m hm).trans (h.caller m hm)
  registered i hi := by
    rcases h'.registered i hi with hi | ⟨hnew, hlt⟩
    · rcases h.registered i hi with hold | ⟨hnew, hlt⟩
      · exact .inl hold
      · exact .inr ⟨hnew, Nat.lt_of_lt_of_le hlt h'.opened⟩
    · exact .inr ⟨Nat.le_trans h.opened hnew, hlt⟩

theorem Minds.registered (h : w.Minds n w') (m : Nat) : w'.registered m = w.registered m :=
  congrArg (fun terms => terms.2.2) (map_traverser h.terms m)

theorem Minds.beside (h : w.Minds n w') : w.Beside n w' where
  store := h.store
  cursors i _ _ := by rw [h.cursors]
  opened := Nat.le_of_eq (congrArg List.length h.cursors).symm
  enrolled := by simpa using congrArg List.length h.terms
  terms m _ := map_traverser h.terms m
  caller := h.caller
  registered i hi := .inl (h.registered n ▸ hi)

/-- A cursor is open, fetches or not, and fails on nothing else when it is closed. -/
def HasOpen (w : Workspace (Nat → σ)) (i : Nat) (fetching : Bool) : Prop :=
  ∃ c, w.cursors[i]? = some c ∧ c.closed = false ∧ c.fetching = fetching ∧
    ∀ r ∈ c.releases, r.failure = none

theorem HasOpen.isOpen (h : w.HasOpen i b) : w.IsOpen i := by
  obtain ⟨c, hc, hclosed, -⟩ := h
  exact ⟨c, hc, hclosed⟩

theorem HasOpen.closable (h : w.HasOpen i false) : (w.cursor i).Closable := by
  obtain ⟨c, hc, -, hfetching, hreleases⟩ := h
  rw [cursor_of_getElem? hc]
  exact ⟨hfetching, hreleases⟩

theorem HasOpen.congr (h : w.HasOpen i b) (hsame : w'.cursors[i]? = w.cursors[i]?) :
    w'.HasOpen i b := by
  rwa [HasOpen, hsame]

theorem HasOpen.lt (h : w.HasOpen i b) : i < w.cursors.length := by
  obtain ⟨c, hc, -⟩ := h
  exact (List.getElem?_eq_some_iff.1 hc).1

theorem hasOpen_setFetching (h : w.HasOpen i b) (b' : Bool) :
    (modifyCursor i (fun c => { c with fetching := b' }) w).HasOpen i b' := by
  obtain ⟨c, hc, hclosed, -, hreleases⟩ := h
  refine ⟨{ c with fetching := b' }, ?_, hclosed, rfl, hreleases⟩
  rw [modifyCursor, List.getElem?_modify_eq, hc]
  rfl

theorem beside_modifyCursor (h : i ∈ w.registered n) (f : Cursor → Cursor) :
    w.Beside n (modifyCursor i f w) where
  store := .refl _
  cursors j _ hj := by
    have hji : i ≠ j := fun hij => hj (hij ▸ h)
    rw [modifyCursor]
    simp only [List.getElem?_modify, hji, if_false, Option.map_eq_map, Option.map_id']
  opened := Nat.le_of_eq (List.length_modify ..).symm
  enrolled := rfl
  terms _ _ := rfl
  caller _ _ := rfl
  registered _ hi := .inl hi

/-! ## Closing -/

/-- From one workspace to the other these cursors were closed. -/
structure Closes (cursors : List Nat) (w w' : Workspace (Nat → σ)) : Prop where
  store : w.store.Agrees w'.store
  cursors : ∀ i ∉ cursors, w'.cursors[i]? = w.cursors[i]?
  opened : w'.cursors.length = w.cursors.length
  traversers : w'.traversers = w.traversers
  caller : w'.caller = w.caller

theorem closeCursor_of_closable (h : (w.cursor i).Closable) :
    ∃ w', closeCursor i w = (.ok (), w') ∧ Closes [i] w w' ∧
      ∀ j, (w.cursor j).Closable → (w'.cursor j).Closable := by
  obtain ⟨store, hstore, hclose⟩ := closeCursor_eq i w
  rw [h.outcome_close] at hclose
  refine ⟨_, hclose, ⟨hstore, fun j hj => ?_, List.length_modify .., rfl, rfl⟩, fun j hj => ?_⟩
  · have hji : i ≠ j := fun hij => hj (hij ▸ List.mem_singleton.2 rfl)
    simp only [modifyCursor, List.getElem?_modify, hji, if_false, Option.map_eq_map,
      Option.map_id']
  · simp only [cursor, modifyCursor, List.getD_eq_getElem?_getD, List.getElem?_modify] at hj ⊢
    cases hc : w.cursors[j]? with
    | none => exact ⟨rfl, fun r hr => by cases hr⟩
    | some c =>
      rw [hc] at hj
      by_cases hij : i = j
      · simp only [hij, if_true, Option.map_eq_map, Option.map_some, Option.getD_some]
        subst hij
        exact h
      · simpa only [hij, if_false, Option.map_eq_map, Option.map_some, Option.getD_some] using hj

theorem Closes.trans {cursors : List Nat} {w w' w'' : Workspace (Nat → σ)}
    (h : Closes cursors w w') (hi : i ∈ cursors) (h' : Closes [i] w' w'') :
    Closes cursors w w'' := by
  refine ⟨h.store.trans h'.store, fun j hj => ?_, h'.opened.trans h.opened,
    h'.traversers.trans h.traversers, h'.caller.trans h.caller⟩
  have hji : j ∉ [i] := fun hmem => hj (List.mem_singleton.1 hmem ▸ hi)
  rw [h'.cursors j hji, h.cursors j hj]

end Workspace

namespace Traverser

open Workspace

variable {σ : Type} {t : Traverser (Nat → σ)} {accepts : String → Action σ Bool}
  {report : String → Action σ Unit} {w w' : Workspace (Nat → σ)} {scan : Scan}
  {s : DocumentStore}

theorem beside_close (h : ∀ i ∈ w.registered t.number, (w.cursor i).Closable) :
    ∃ w', t.close w = (.ok (), w') ∧ w.Beside t.number w' := by
  let mine := w.registered t.number
  -- Closing one cursor leaves the others as they are, so that they do not fail either.
  let P (v : Workspace (Nat → σ)) : Prop :=
    Closes mine (t.emptied w) v ∧ ∀ i ∈ mine, (v.cursor i).Closable
  have hemptied : P (t.emptied w) := ⟨⟨.refl _, fun _ _ => rfl, rfl, rfl, rfl⟩, h⟩
  obtain ⟨w₂, hclose, h₂, -⟩ := close_succeeds hemptied
    (fun i hi v hv => by
      obtain ⟨v', hclose, hv', hclosable⟩ := closeCursor_of_closable (hv.2 i hi)
      exact ⟨v', hclose, hv.1.trans hi hv', fun j hj => hclosable j (hv.2 j hj)⟩)
    fun v e hv => ⟨⟨hv.1.store, hv.1.cursors, hv.1.opened, hv.1.traversers, hv.1.caller⟩, hv.2⟩
  have htraverser {m : Nat} (hm : m ≠ t.number) : w₂.traverser m = w.traverser m := by
    rw [show w₂.traverser m = (t.emptied w).traverser m from
      congrArg (fun traversers => traversers.getD m default) h₂.traversers]
    exact traverser_modifyTraverser_ne hm.symm _ w
  have hnone : w₂.registered t.number = [] := by
    rw [Workspace.registered, show w₂.traverser t.number = (t.emptied w).traverser t.number from
      congrArg (fun traversers => traversers.getD t.number default) h₂.traversers]
    simp only [emptied, modifyState, traverser, modifyTraverser, List.getD_eq_getElem?_getD,
      List.getElem?_modify_eq]
    cases w.traversers[t.number]? <;> rfl
  refine ⟨w₂, hclose, h₂.store, fun i _ hi => h₂.cursors i hi, Nat.le_of_eq h₂.opened.symm, ?_,
    fun m hm => ?_, fun m _ => congrFun h₂.caller m, fun i hi => ?_⟩
  · rw [h₂.traversers]
    exact List.length_modify ..
  · rw [htraverser hm]
  · rw [hnone] at hi
    cases hi

theorem Opens.beside {v : RevisionVector} {items : List Stored} (h : Opens t v items w scan w')
    (hmade : t.number < w.traversers.length) : w.Beside t.number w' := by
  obtain ⟨c, hcursors, -⟩ := h.cursors
  have hlength : w'.cursors.length = w.cursors.length + 1 := by
    rw [hcursors, List.length_append, List.length_singleton]
  refine ⟨h.store, fun i hi _ => ?_, ?_, h.enrolled, fun m hm => ?_, fun m _ => ?_, fun i hi => ?_⟩
  · rw [hcursors, List.getElem?_append_left hi]
  · rw [hlength]
    exact Nat.le_succ _
  · rw [h.others m hm]
  · rw [h.caller]
  · rw [Workspace.registered, ← state, h.registered hmade, List.mem_append,
      List.mem_singleton] at hi
    rcases hi with hi | rfl
    · exact .inl hi
    · exact .inr ⟨Nat.le_refl _, hlength ▸ Nat.lt_succ_self _⟩

theorem Opens.hasOpen {v : RevisionVector} {items : List Stored} (h : Opens t v items w scan w') :
    w'.HasOpen scan.cursor false := by
  obtain ⟨c, hcursors, hclosed, hfetching, hreleases⟩ := h.cursors
  refine ⟨c, ?_, hclosed, hfetching, hreleases⟩
  rw [hcursors, h.cursor]
  exact List.getElem?_concat_length

/-! ## A step -/

/-- Collects what a scan has still to visit, behind entries that it delivered. -/
def sweepRest (s : DocumentStore) (accepts : String → Action σ Bool)
    (report : String → Action σ Unit) (scan : Scan) (entries : List Entry) :
    Action σ (List Entry) :=
  sweep s (ownFilter accepts report scan.hiddenRoots) scan.snapshot scan.remaining entries

/-- A scan that is to come to an answer took a step, which leads to the same answer. -/
inductive Leads (s : DocumentStore) (accepts : String → Action σ Bool)
    (report : String → Action σ Unit) (scan : Scan) (entries : List Entry) (u : σ) :
    Except Failure (List Entry) → Except Failure Step → Prop where
  | failed (e : Failure) : Leads s accepts report scan entries u (.error e) (.error e)
  | finished : Leads s accepts report scan entries u (.ok entries) (.ok .finished)
  | paused {answer : Except Failure (List Entry)} (next : Scan) (hnext : scan.Continues next)
    (hless : next.remaining.length < scan.remaining.length) (hpending : next.pending = {})
    (hrested : next.rested = true)
    (hanswer : (sweepRest s accepts report next entries u).1 = answer) :
    Leads s accepts report scan entries u answer (.ok (.paused (.scanning next)))
  | entry {answer : Except Failure (List Entry)} (e : Entry) (next : Scan)
    (hnext : scan.Continues next) (hless : next.remaining.length < scan.remaining.length)
    (hrested : next.rested = false)
    (hanswer : (match next.pending.failure with
      | some e => .error e
      | none => (sweepRest s accepts report next
          (entries ++ e :: next.pending.states.map (Entry.ofState next.modified)) u).1) = answer) :
    Leads s accepts report scan entries u answer (.ok (.entry e (.scanning next)))

theorem leads_seek (ht : t.IsPrivate accepts report) (hs : s.Sound) (hagrees : s.Agrees w.store)
    (hopen : w.IsOpen scan.cursor) (hpending : scan.pending = {})
    (hissued : ∀ item ∈ scan.remaining, s.Issued item) (entries : List Entry)
    {items : List Stored} (hitems : items <:+ scan.remaining) :
    ∃ step w', t.seek true scan items w = (step, w') ∧ w.Minds t.number w' ∧
      Leads s accepts report scan entries (w'.caller t.number)
        (sweep s (ownFilter accepts report scan.hiddenRoots) scan.snapshot items entries
          (w.caller t.number)).1 step := by
  induction items generalizing w with
  | nil =>
    obtain ⟨w₁, hcomplete, h₁, -⟩ := minds_complete (n := t.number) t scan scan.produced w
    refine ⟨.ok .finished, w₁, ?_, h₁, .finished⟩
    rw [seek, Action.bind_apply, hcomplete]
    rfl
  | cons item rest ih =>
    have hrest : rest <:+ scan.remaining := (List.suffix_cons item rest).trans hitems
    have hless : rest.length < scan.remaining.length := hitems.length_le
    obtain ⟨w₁, hvisit, h₁, hcaller₁⟩ :=
      plays_visit ht hs hagrees scan (hissued item (hitems.subset List.mem_cons_self))
    have hopen₁ : w₁.IsOpen scan.cursor := hopen.mono (h₁.cursors ▸ List.prefix_refl _)
    rw [seek, sweep, Action.bind_apply, Action.bind_apply, hvisit]
    dsimp only at hcaller₁ ⊢
    rcases hglance : glance s (ownFilter accepts report scan.hiddenRoots) scan.snapshot item
      (w.caller t.number) with ⟨e | visited, u⟩
    · exact ⟨_, w₁, rfl, h₁, .failed e⟩
    rw [hglance] at hcaller₁
    subst hcaller₁
    cases visited with
    | skipped =>
      obtain ⟨step, w₂, hseek, h₂, hleads⟩ := ih (hagrees.trans h₁.store) hopen₁ hrest
      exact ⟨step, w₂, hseek, h₁.trans h₂, hleads⟩
    | dropped =>
      refine ⟨_, w₁, ?_, h₁, .paused { scan with remaining := rest, rested := true }
        ⟨rfl, rfl, rfl, hrest⟩ hless hpending rfl rfl⟩
      simp only [Action.bind_apply, requireOpen_of_isOpen hopen₁]
      rfl
    | found first more =>
      refine ⟨_, w₁, rfl, h₁, .entry _ _ ⟨rfl, rfl, rfl, hrest⟩ hless rfl ?_⟩
      dsimp only
      cases more.failure <;> rfl

end Traverser

namespace Turntaker

open Workspace Traverser

section

variable {υ : Type}

/-- What an iteration that has ended came to. -/
def outcome (r : Turntaker υ) : Except Failure (List Entry) :=
  match r.failure? with
  | some e => .error e
  | none => .ok r.entries

/-- How many turns it takes at most until the iteration has ended, if so many documents are
stored. -/
def turnsLeft (size : Nat) (r : Turntaker υ) : Nat :=
  match r.standing with
  | .unbegun => size + 1
  | .due _ | .waiting _ | .ended _ => r.turnsToEnd

end

variable {σ : Type} {s : DocumentStore} {accepts : String → Action σ Bool}
  {report : String → Action σ Unit} {answer : Except Failure (List Entry)}
  {w w' : Workspace (Nat → σ)} {r r' : Turntaker (Nat → σ)} {t : Traverser (Nat → σ)}
  {scan : Scan} {n : Nat}

/-- The iteration comes to an answer by its own turns. -/
inductive OnCourse (s : DocumentStore) (accepts : String → Action σ Bool)
    (report : String → Action σ Unit) (answer : Except Failure (List Entry))
    (w : Workspace (Nat → σ)) (r : Turntaker (Nat → σ)) : Prop where
  | unbegun (v : RevisionVector) (hstanding : r.standing = .unbegun) (hentries : r.entries = [])
    (hmade : r.traverser.number < w.traversers.length)
    (hpin : (r.traverser.state w).pin = .of v)
    (hregistered : w.registered r.traverser.number = [])
    (hanswer : (traversal s (ownFilter accepts report (r.traverser.state w).hiddenRoots) v
      r.traverser.range (w.caller r.traverser.number)).1 = answer)
  | due (scan : Scan) (hstanding : r.standing = .due (.scanning scan))
    (hpending : scan.pending = {}) (hrested : scan.rested = true)
    (hregistered : w.registered r.traverser.number = [scan.cursor])
    (hopen : w.HasOpen scan.cursor true) (hissued : ∀ item ∈ scan.remaining, s.Issued item)
    (hanswer : (sweepRest s accepts report scan r.entries (w.caller r.traverser.number)).1 =
      answer)
  | ended (failure : Option Failure) (hstanding : r.standing = .ended failure)
    (hanswer : r.outcome = answer)

/-- The turn of another leaves it on its course. -/
theorem OnCourse.beside {m : Nat} (h : OnCourse s accepts report answer w r) (hw : w.Beside m w')
    (hm : r.traverser.number ≠ m)
    (hheld : ∀ i ∈ w.registered r.traverser.number, i < w.cursors.length ∧ i ∉ w.registered m) :
    OnCourse s accepts report answer w' r := by
  have hterms := hw.terms _ hm
  have hcaller := hw.caller _ hm
  have hregistered' : w'.registered r.traverser.number = w.registered r.traverser.number :=
    congrArg (fun terms => terms.2.2) hterms
  have hroots : (r.traverser.state w').hiddenRoots = (r.traverser.state w).hiddenRoots :=
    congrArg (fun terms => terms.2.1) hterms
  cases h with
  | unbegun v hstanding hentries hmade hpin hregistered hanswer =>
    refine .unbegun v hstanding hentries (hw.enrolled ▸ hmade)
      ((congrArg Prod.fst hterms).trans hpin) (hregistered'.trans hregistered) ?_
    rw [hroots, hcaller]
    exact hanswer
  | due scan hstanding hpending hrested hregistered hopen hissued hanswer =>
    obtain ⟨hlt, hother⟩ := hheld scan.cursor (hregistered ▸ List.mem_singleton.2 rfl)
    refine .due scan hstanding hpending hrested (hregistered'.trans hregistered)
      (hopen.congr (hw.cursors _ hlt hother)) hissued ?_
    rw [hcaller]
    exact hanswer
  | ended failure hstanding hanswer => exact .ended failure hstanding hanswer

/-- A turn left the iteration on its course, with so many turns to come at most. -/
structure Turned (s : DocumentStore) (accepts : String → Action σ Bool)
    (report : String → Action σ Unit) (answer : Except Failure (List Entry)) (n : Nat)
    (t : Traverser (Nat → σ)) (w : Workspace (Nat → σ)) (r' : Turntaker (Nat → σ))
    (w' : Workspace (Nat → σ)) : Prop where
  traverser : r'.traverser = t
  beside : w.Beside t.number w'
  course : OnCourse s accepts report answer w' r'
  left : r'.turnsLeft s.catalog.items.length ≤ n

theorem turned_ended (r : Turntaker (Nat → σ)) (failure : Option Failure)
    (hanswer : outcome { r with standing := .ended failure } = answer)
    (hclosable : ∀ i ∈ w.registered r.traverser.number, (w.cursor i).Closable) :
    ∃ r' w', r.ended failure w = (.ok r', w') ∧
      Turned s accepts report answer n r.traverser w r' w' := by
  have hturned {w' : Workspace (Nat → σ)} (hw : w.Beside r.traverser.number w') :
      Turned s accepts report answer n r.traverser w { r with standing := .ended failure } w' :=
    ⟨rfl, hw, .ended failure rfl hanswer, Nat.zero_le n⟩
  rw [Turntaker.ended]
  split
  · obtain ⟨w₁, hclose, h₁⟩ := beside_close hclosable
    refine ⟨_, w₁, ?_, hturned h₁⟩
    simp only [Action.bind_apply, Action.attempt, hclose]
    rfl
  · exact ⟨_, w, rfl, hturned (Minds.refl _ w).beside⟩

theorem turned_paused (r : Turntaker (Nat → σ)) {b : Bool} {next : Scan}
    (hpending : next.pending = {}) (hrested : next.rested = true)
    (hregistered : w.registered r.traverser.number = [next.cursor])
    (hopen : w.HasOpen next.cursor b) (hissued : ∀ item ∈ next.remaining, s.Issued item)
    (hanswer : (sweepRest s accepts report next r.entries (w.caller r.traverser.number)).1 = answer)
    (hn : next.remaining.length < n) :
    ∃ r' w', r.settled (.ok (.paused (.scanning next))) w = (.ok r', w') ∧
      Turned s accepts report answer n r.traverser w r' w' := by
  have hmem : next.cursor ∈ w.registered r.traverser.number :=
    hregistered ▸ List.mem_singleton.2 rfl
  exact ⟨{ r with standing := .due (.scanning next) }, _, rfl, rfl, beside_modifyCursor hmem _,
    .due next rfl hpending hrested hregistered (hasOpen_setFetching hopen true) hissued hanswer, hn⟩

/-- A step of the scan is followed by what is left of the document, and then by a pause. -/
theorem turned_goOn (r : Turntaker (Nat → σ)) {it : Iteration} {step : Except Failure Step}
    {w₁ w₂ : Workspace (Nat → σ)} (hset : setFetching false it w = (.ok (), w₁))
    (hstep : r.traverser.advance true it w₁ = (step, w₂))
    (hleads : Leads s accepts report scan r.entries (w₂.caller r.traverser.number) answer step)
    (hregistered : w₂.registered r.traverser.number = [scan.cursor])
    (hopen : w₂.HasOpen scan.cursor false) (hissued : ∀ item ∈ scan.remaining, s.Issued item) :
    ∃ r' w', r.goOn it w = (.ok r', w') ∧
      Turned s accepts report answer scan.remaining.length r.traverser w₂ r' w' := by
  have hclosable : ∀ i ∈ w₂.registered r.traverser.number, (w₂.cursor i).Closable := by
    intro i hi
    rw [hregistered, List.mem_singleton] at hi
    exact hi ▸ hopen.closable
  cases hleads with
  | failed e =>
    rw [goOn_settled r hset hstep fun _ _ h => by cases h]
    exact turned_ended r (some e) rfl hclosable
  | finished =>
    rw [goOn_settled r hset hstep fun _ _ h => by cases h]
    exact turned_ended r none rfl hclosable
  | paused next hnext hless hpending hrested hanswer =>
    rw [goOn_settled r hset hstep fun _ _ h => by cases h]
    rw [← hnext.cursor] at hregistered hopen
    exact turned_paused r hpending hrested hregistered hopen
      (fun item hitem => hissued item (hnext.remaining.subset hitem)) hanswer hless
  | entry e next hnext hless hrested hanswer =>
    let delivered : Turntaker (Nat → σ) := { r with
      entries := r.entries ++ e :: next.pending.states.map (Entry.ofState next.modified) }
    rw [goOn_entry r hset hstep hrested]
    cases hfailure : next.pending.failure with
    | some e =>
      rw [hfailure] at hanswer
      exact turned_ended delivered (some e) hanswer hclosable
    | none =>
      rw [hfailure] at hanswer
      rw [← hnext.cursor] at hregistered hopen
      rw [requireOpen_of_isOpen hopen.isOpen]
      let rested : Scan := { next with
        pending := {}, produced := next.produced + next.pending.states.length, rested := true }
      have hpending : rested.pending = {} := rfl
      exact turned_paused delivered hpending rfl hregistered hopen
        (fun item hitem => hissued item (hnext.remaining.subset hitem)) hanswer hless

theorem Turned.after {w₁ : Workspace (Nat → σ)} (h : Turned s accepts report answer n t w₁ r' w')
    (h₁ : w.Beside t.number w₁) : Turned s accepts report answer n t w r' w' :=
  ⟨h.traverser, h₁.trans h.beside, h.course, h.left⟩

theorem Turned.mono {k : Nat} (h : Turned s accepts report answer n t w r' w') (hn : n ≤ k) :
    Turned s accepts report answer k t w r' w' :=
  ⟨h.traverser, h.beside, h.course, Nat.le_trans h.left hn⟩

/-- An iteration of a pinned traverser begins by opening its scan. -/
theorem turn_unbegun {v : RevisionVector} (hstanding : r.standing = .unbegun)
    (hpin : (r.traverser.state w).pin = .of v) :
    ∃ it w₁ w₂, r.turn w = r.goOn it w₁ ∧ setFetching false it w₁ = (.ok (), w₁) ∧
      r.traverser.advance true it w₁ =
        (do r.traverser.advanceScan true (← r.traverser.openScan v)) w₂ ∧
      w.Minds r.traverser.number w₂ ∧
      w₂.caller r.traverser.number = w.caller r.traverser.number := by
  obtain ⟨w₁, hiterate, h₁, hcaller₁⟩ := minds_iterate r.traverser w
  have hpin₁ : (r.traverser.state w₁).pin = .of v :=
    (congrArg Prod.fst (map_traverser h₁.terms r.traverser.number)).trans hpin
  obtain ⟨w₂, hask, h₂, hcaller₂⟩ := minds_ask hpin₁ (r.traverser.state w).iterations
  refine ⟨.entering (r.traverser.state w).iterations, w₁, w₂, ?_, rfl, ?_, h₁.trans h₂,
    hcaller₂.trans hcaller₁⟩
  · rw [turn, hstanding]
    simp only [Action.bind_apply, hiterate]
  · rw [advance, Action.bind_apply, hask]

/-- A scan that cannot be opened ends the iteration. -/
theorem turned_refused (hbackend : r.traverser.backend = .memory) {it : Iteration}
    {v : RevisionVector} {e : Failure} {w₁ : Workspace (Nat → σ)}
    (hset : setFetching false it w₁ = (.ok (), w₁))
    (hadvance : r.traverser.advance true it w₁ =
      (do r.traverser.advanceScan true (← r.traverser.openScan v)) w)
    (hscannable : w.store.scannable r.traverser.range = .error e)
    (hregistered : w.registered r.traverser.number = []) :
    ∃ r' w', r.goOn it w₁ = (.ok r', w') ∧
      Turned s accepts report (.error e) n r.traverser w r' w' := by
  rw [Action.bind_apply, openScan_of_error hbackend hscannable v] at hadvance
  let w₂ : Workspace (Nat → σ) := r.traverser.tallied w
  have h₂ : w.Minds r.traverser.number w₂ := minds_tallied r.traverser w
  have hclosable : ∀ i ∈ w₂.registered r.traverser.number, (w₂.cursor i).Closable := by
    intro i hi
    rw [h₂.registered, hregistered] at hi
    cases hi
  obtain ⟨r', w', hended, hturned⟩ : ∃ r' w', r.ended (some e) w₂ = (.ok r', w') ∧
      Turned s accepts report (.error e) n r.traverser w₂ r' w' :=
    turned_ended r (some e) rfl hclosable
  refine ⟨r', w', ?_, hturned.after h₂.beside⟩
  rw [goOn_settled r hset hadvance fun _ _ h => by cases h]
  exact hended

/-- A scan that is opened takes its first step at once. -/
theorem turned_opened (ht : r.traverser.IsPrivate accepts report) (hs : s.Sound)
    (hagrees : s.Agrees w.store) {it : Iteration} {v : RevisionVector} {items : List Stored}
    {w₁ : Workspace (Nat → σ)} (hset : setFetching false it w₁ = (.ok (), w₁))
    (hadvance : r.traverser.advance true it w₁ =
      (do r.traverser.advanceScan true (← r.traverser.openScan v)) w)
    (hitems : s.scannable r.traverser.range = .ok items)
    (hmade : r.traverser.number < w.traversers.length)
    (hregistered : w.registered r.traverser.number = [])
    (hanswer : (sweep s (ownFilter accepts report (r.traverser.state w).hiddenRoots) v items
      r.entries (w.caller r.traverser.number)).1 = answer) :
    ∃ r' w', r.goOn it w₁ = (.ok r', w') ∧
      Turned s accepts report answer items.length r.traverser w r' w' := by
  obtain ⟨scan, w₂, hscan, h₂⟩ :=
    opens_openScan ht.backend ((hagrees.scannable r.traverser.range).trans hitems) v
  have hissued : ∀ item ∈ scan.remaining, s.Issued item := by
    rw [h₂.remaining]
    exact DocumentStore.issued_scannable hs hitems
  obtain ⟨step, w₃, hseek, h₃, hleads⟩ := leads_seek ht hs (hagrees.trans h₂.store) h₂.isOpen
    h₂.pending hissued r.entries (List.suffix_refl scan.remaining)
  rw [h₂.caller, h₂.hiddenRoots, h₂.snapshot, h₂.remaining, hanswer] at hleads
  have hregistered₃ : w₃.registered r.traverser.number = [scan.cursor] := by
    rw [h₃.registered, Workspace.registered, ← state, h₂.registered hmade, ← h₂.cursor]
    exact congrArg (· ++ [scan.cursor]) hregistered
  rw [Action.bind_apply, hscan] at hadvance
  dsimp only at hadvance
  rw [advanceScan_rested r.traverser true h₂.pending h₂.rested, Action.bind_apply,
    resumeFetch_of_isOpen h₂.isOpen] at hadvance
  obtain ⟨r', w', hgoOn, hturned⟩ := turned_goOn r hset (hadvance.trans hseek) hleads hregistered₃
    (h₂.hasOpen.congr (by rw [h₃.cursors])) hissued
  rw [h₂.remaining] at hturned
  exact ⟨r', w', hgoOn, hturned.after ((h₂.beside hmade).trans h₃.beside)⟩

theorem turned_unbegun (ht : r.traverser.IsPrivate accepts report) (hs : s.Sound)
    (hagrees : s.Agrees w.store) {v : RevisionVector} (hstanding : r.standing = .unbegun)
    (hentries : r.entries = []) (hmade : r.traverser.number < w.traversers.length)
    (hpin : (r.traverser.state w).pin = .of v)
    (hregistered : w.registered r.traverser.number = [])
    (hanswer : (traversal s (ownFilter accepts report (r.traverser.state w).hiddenRoots) v
      r.traverser.range (w.caller r.traverser.number)).1 = answer) :
    ∃ r' w', r.turn w = (.ok r', w') ∧
      Turned s accepts report answer s.catalog.items.length r.traverser w r' w' := by
  obtain ⟨it, w₁, w₂, hturn, hset, hadvance, h₂, hcaller⟩ := turn_unbegun hstanding hpin
  have hagrees₂ : s.Agrees w₂.store := hagrees.trans h₂.store
  have hmade₂ : r.traverser.number < w₂.traversers.length := h₂.beside.enrolled ▸ hmade
  have hregistered₂ : w₂.registered r.traverser.number = [] := (h₂.registered _).trans hregistered
  have hroots : (r.traverser.state w₂).hiddenRoots = (r.traverser.state w).hiddenRoots :=
    congrArg (fun terms => terms.2.1) (map_traverser h₂.terms r.traverser.number)
  rw [traversal, Action.bind_apply, ← hroots, ← hcaller] at hanswer
  rw [hturn]
  cases hitems : s.scannable r.traverser.range with
  | error e =>
    rw [hitems] at hanswer
    subst hanswer
    obtain ⟨r', w', hgoOn, hturned⟩ := turned_refused ht.backend hset hadvance
      ((hagrees₂.scannable r.traverser.range).trans hitems) hregistered₂
    exact ⟨r', w', hgoOn, hturned.after h₂.beside⟩
  | ok items =>
    rw [hitems, ← hentries] at hanswer
    obtain ⟨r', w', hgoOn, hturned⟩ :=
      turned_opened ht hs hagrees₂ hset hadvance hitems hmade₂ hregistered₂ hanswer
    have hlength : items.length ≤ s.catalog.items.length := by
      rw [(DocumentStore.of_scannable_eq_ok hitems).2]
      exact List.length_filter_le ..
    exact ⟨r', w', hgoOn, (hturned.after h₂.beside).mono hlength⟩

theorem turned_due (ht : r.traverser.IsPrivate accepts report) (hs : s.Sound)
    (hagrees : s.Agrees w.store) (hstanding : r.standing = .due (.scanning scan))
    (hpending : scan.pending = {}) (hrested : scan.rested = true)
    (hregistered : w.registered r.traverser.number = [scan.cursor])
    (hopen : w.HasOpen scan.cursor true) (hissued : ∀ item ∈ scan.remaining, s.Issued item)
    (hanswer : (sweepRest s accepts report scan r.entries (w.caller r.traverser.number)).1 =
      answer) :
    ∃ r' w', r.turn w = (.ok r', w') ∧
      Turned s accepts report answer scan.remaining.length r.traverser w r' w' := by
  let w₁ : Workspace (Nat → σ) := modifyCursor scan.cursor (fun c => { c with fetching := false }) w
  have hset : setFetching false (.scanning scan) w = (.ok (), w₁) := rfl
  have h₁ : w.Beside r.traverser.number w₁ :=
    beside_modifyCursor (hregistered ▸ List.mem_singleton.2 rfl) _
  have hagrees₁ : s.Agrees w₁.store := hagrees
  have hopen₁ : w₁.HasOpen scan.cursor false := hasOpen_setFetching hopen false
  obtain ⟨step, w₂, hseek, h₂, hleads⟩ := leads_seek ht hs hagrees₁ hopen₁.isOpen hpending hissued
    r.entries (List.suffix_refl scan.remaining)
  have hleads : Leads s accepts report scan r.entries (w₂.caller r.traverser.number) answer step :=
    hanswer ▸ hleads
  have hadvance : r.traverser.advance true (.scanning scan) w₁ = (step, w₂) := by
    rw [advance, advanceScan_rested r.traverser true hpending hrested, Action.bind_apply,
      resumeFetch_of_isOpen hopen₁.isOpen]
    exact hseek
  obtain ⟨r', w', hgoOn, hturned⟩ := turned_goOn r hset hadvance hleads
    ((h₂.registered _).trans hregistered) (hopen₁.congr (by rw [h₂.cursors])) hissued
  refine ⟨r', w', ?_, hturned.after (h₁.trans h₂.beside)⟩
  rw [turn, hstanding]
  exact hgoOn

/-- Whoever is due goes on to the answer, and comes nearer to it. -/
theorem turned_turn (ht : r.traverser.IsPrivate accepts report) (hs : s.Sound)
    (hagrees : s.Agrees w.store) (h : OnCourse s accepts report answer w r)
    (hdue : r.isDue = true) :
    ∃ r' w' n, r.turn w = (.ok r', w') ∧ Turned s accepts report answer n r.traverser w r' w' ∧
      n < r.turnsLeft s.catalog.items.length := by
  cases h with
  | unbegun v hstanding hentries hmade hpin hregistered hanswer =>
    obtain ⟨r', w', hturn, hturned⟩ := turned_unbegun ht hs hagrees hstanding hentries hmade hpin
      hregistered hanswer
    refine ⟨r', w', _, hturn, hturned, ?_⟩
    rw [turnsLeft, hstanding]
    exact Nat.lt_succ_self _
  | due scan hstanding hpending hrested hregistered hopen hissued hanswer =>
    obtain ⟨r', w', hturn, hturned⟩ := turned_due ht hs hagrees hstanding hpending hrested
      hregistered hopen hissued hanswer
    refine ⟨r', w', _, hturn, hturned, ?_⟩
    rw [turnsLeft, turnsToEnd, hstanding]
    exact Nat.lt_succ_self _
  | ended failure hstanding hanswer =>
    rw [isDue, hstanding] at hdue
    cases hdue

end Turntaker

end VersionedTree
