import Mathlib.Logic.Function.Basic
import VersionedTree.Proofs.Records

/-! # Crowds

Any number of iterations of one traverser take their steps in any order, and others use the
workspace in between. The traverser was made without a snapshot, and the reading of the head may
pause, fail, and find another head each time. One reading of the head succeeds at most, nothing is
asked of the stores while a reading is pending, and all who scan do it at the snapshot that was
read.
-/

namespace VersionedTree

open Workspace

/-- Iterations of one traverser, each with a number of its own, and the workspace that they use. -/
structure Crowd (υ : Type) where
  workspace : Workspace υ
  standings : Nat → Standing := fun _ => .unbegun

namespace Crowd

variable {υ : Type} {t : Traverser υ}

inductive Move (t : Traverser υ) where
  /-- An iteration takes a step. -/
  | step (i : Nat)
  /-- Somebody else uses the workspace. -/
  | beside (x : Action (Workspace υ) Unit) (hx : KeepsPin t.number x)

def move (c : Crowd υ) : Move t → Crowd υ
  | .step i =>
    match t.step (c.standings i) c.workspace with
    | (.ok standing, w) => ⟨w, Function.update c.standings i standing⟩
    | (.error _, w) => { c with workspace := w }
  | .beside x _ => { c with workspace := (x c.workspace).2 }

def run (c : Crowd υ) (moves : List (Move t)) : Crowd υ := moves.foldl move c

def start (w : Workspace υ) : Crowd υ := { workspace := w }

/-- The reading of the head that the iteration asked for is pending. -/
def Reads (c : Crowd υ) (i : Nat) : Prop := c.standings i = .due .reading

/-- The move, and before a step a note of whose step it is. -/
def Move.recorded : Move t → List (Move t.recorded)
  | .step i => [.beside (Action.modify (running i)) fun _ => rfl, .step i]
  | .beside x hx => [.beside (unrecorded x) fun w => hx w.plain]

/-- What the iterations ask of the stores in a run. -/
def uses (w : Workspace υ) (moves : List (Move t)) : List (Nat × Use) :=
  ((start w.recording).run (moves.flatMap Move.recorded)).workspace.caller.2.uses

end Crowd

/-! ## Sharing a snapshot -/

namespace Pin

variable {p pin : Pin} {k : Nat} {v : RevisionVector}

/-- Who reads was called to, and nothing is pinned yet. -/
structure Sound (p : Pin) : Prop where
  called : p.reading = true → p.called ≠ none
  unpinned : p.reading = true → p.snapshot = none

theorem sound_of_idle (h : p.reading = false) : p.Sound := by
  constructor
  · intro h'
    cases h.symm.trans h'
  · intro h'
    cases h.symm.trans h'

theorem Sound.idle (hp : p.Sound) (hv : p.snapshot = some v) : p.reading = false := by
  cases hreading : p.reading with
  | false => rfl
  | true => cases hv.symm.trans (hp.unpinned hreading)

/-- An iteration that asks takes what is pinned, is the one to read, or has to wait. -/
theorem ask_cases (p : Pin) (k : Nat) :
    (∃ v, p.snapshot = some v ∧
      p.ask k = (.pinned v, if p.called = some k then p.callNext else p)) ∨
    (p.snapshot = none ∧ (p.called = none ∨ p.reading = false) ∧
      p.ask k = (.read, { p with called := some k, reading := true })) ∨
    (p.snapshot = none ∧ ∃ waiting, p.ask k = (.wait, { p with waiting })) := by
  rw [ask]
  split
  · exact .inl ⟨_, ‹_›, rfl⟩
  refine .inr ?_
  split
  · exact .inl ⟨‹_›, .inl ‹_›, rfl⟩
  · split
    · rename_i called hcalled hturn
      obtain ⟨rfl, hidle⟩ := hturn
      refine .inl ⟨‹_›, .inr (by simpa using hidle), ?_⟩
      rw [← hcalled]
    · exact .inr ⟨‹_›, _, rfl⟩

theorem Sound.ask_pinned (hp : p.Sound) (hask : p.ask k = (.pinned v, pin)) :
    p.snapshot = some v ∧ pin.snapshot = some v ∧ pin.reading = false := by
  obtain ⟨v', hsnapshot, h⟩ | ⟨-, -, h⟩ | ⟨-, _, h⟩ := p.ask_cases k
  · cases h.symm.trans hask
    refine ⟨hsnapshot, ?_⟩
    split
    · exact ⟨hsnapshot, rfl⟩
    · exact ⟨hsnapshot, hp.idle hsnapshot⟩
  · cases h.symm.trans hask
  · cases h.symm.trans hask

theorem Sound.ask_read (hp : p.Sound) (hask : p.ask k = (.read, pin)) :
    p.snapshot = none ∧ p.reading = false ∧ pin.snapshot = none ∧ pin.reading = true ∧
      pin.Sound := by
  obtain ⟨_, -, h⟩ | ⟨hsnapshot, hfree, h⟩ | ⟨-, _, h⟩ := p.ask_cases k
  · cases h.symm.trans hask
  · cases h.symm.trans hask
    have hidle : p.reading = false := by
      rcases hfree with hcalled | hidle
      · cases hreading : p.reading with
        | false => rfl
        | true => exact absurd hcalled (hp.called hreading)
      · exact hidle
    exact ⟨hsnapshot, hidle, hsnapshot, rfl, ⟨fun _ => nofun, fun _ => hsnapshot⟩⟩
  · cases h.symm.trans hask

theorem Sound.ask_wait (hp : p.Sound) (hask : p.ask k = (.wait, pin)) :
    p.snapshot = none ∧ pin.snapshot = none ∧ pin.reading = p.reading ∧ pin.Sound := by
  obtain ⟨_, -, h⟩ | ⟨-, -, h⟩ | ⟨hsnapshot, _, h⟩ := p.ask_cases k
  · cases h.symm.trans hask
  · cases h.symm.trans hask
  · cases h.symm.trans hask
    exact ⟨hsnapshot, hsnapshot, rfl, hp.called, hp.unpinned⟩

end Pin

namespace Standing

/-- The iteration has not asked the stores for anything yet. -/
def Early : Standing → Prop
  | .unbegun | .waiting _ | .due (.entering _) | .due .reading => True
  | .due (.scanning _) | .due .finished | .ended _ => False

theorem Resumes.early {s : Standing} {ticket : Nat} (h : s.Resumes (.entering ticket)) :
    s.Early := by
  cases h <;> trivial

end Standing

/-- What a step of one iteration changes for the others: `s` and `s'` are where it stands before
the step and after it, and `more` is what it asks of the stores. -/
structure Pin.Proceeds (p : Pin) (s s' : Standing) (p' : Pin) (more : List Use) : Prop where
  live : ∀ failure, s ≠ .ended failure
  sound : p'.Sound
  /-- It begins to read only while nobody reads. -/
  reads : s' = .due .reading → p.reading = false ∧ p'.reading = true
  /-- While another one reads, it asks for nothing. -/
  waits : p.reading = true → s ≠ .due .reading → p'.reading = true ∧ more = []
  read : p'.snapshot.toList = p.snapshot.toList ++ more.filterMap Use.read?
  pinned : ∀ v, p.snapshot = some v → p'.snapshot = some v
  scanning : ∀ scan, s' = .due (.scanning scan) → p'.snapshot = some scan.snapshot
  fits : ∀ use ∈ more, use.Fits p'.snapshot
  failed : ∀ e, .head (.error e) ∈ more →
    s' = .ended (some e) ∧ s.Early ∧ ∀ use ∈ more, use = .head (.error e)
  early : s'.Early → s.Early ∧ more = []

/-- A step that asks for nothing, and pins nothing. -/
theorem Pin.proceeds_unasked {p p' : Pin} {s s' : Standing} (hlive : ∀ failure, s ≠ .ended failure)
    (hp' : p'.Sound) (hsame : p'.snapshot = p.snapshot)
    (hreads : s' = .due .reading → p.reading = false ∧ p'.reading = true)
    (hkept : p.reading = true → p'.reading = true)
    (hscanning : ∀ scan, s' ≠ .due (.scanning scan)) (hearly : s'.Early → s.Early) :
    p.Proceeds s s' p' [] := by
  constructor
  case live => exact hlive
  case sound => exact hp'
  case reads => exact hreads
  case waits => exact fun hreading _ => ⟨hkept hreading, rfl⟩
  case read => rw [hsame, List.filterMap_nil, List.append_nil]
  case pinned => exact fun v hv => hsame.trans hv
  case scanning => exact fun scan hscan => absurd hscan (hscanning scan)
  case fits => exact nofun
  case failed => exact nofun
  case early => exact fun h => ⟨hearly h, rfl⟩

namespace Traverser

variable {p p₀ p' pin : Pin} {s : Standing} {v : RevisionVector} {out : Except Failure Step}
  {uses : List Use}

theorem GoesOn.not_early (h : GoesOn v out) : ¬ (Standing.after out).Early := by
  cases h <;> exact id

theorem GoesOn.scanning (h : GoesOn v out) {scan : Scan}
    (hscan : Standing.after out = .due (.scanning scan)) : scan.snapshot = v := by
  cases h with
  | failed e => cases hscan
  | finished => cases hscan
  | paused next hnext =>
    cases hscan
    exact hnext
  | entry e next hnext =>
    cases hscan
    exact hnext

theorem GoesOn.not_reading (h : GoesOn v out) : Standing.after out ≠ .due .reading := by
  intro hreads
  apply h.not_early
  rw [hreads]
  trivial

theorem Scans.proceeds (h : Scans p v out p' uses) (hp : p.Sound) (hv : p.snapshot = some v)
    (hp₀ : p₀.Sound) (hv₀ : p₀.snapshot = some v) (hlive : ∀ failure, s ≠ .ended failure) :
    p₀.Proceeds s (.after out) p' uses := by
  obtain ⟨hgoesOn, rfl, huses⟩ := h
  constructor
  case live => exact hlive
  case sound => exact hp
  case reads => exact fun hreads => absurd hreads hgoesOn.not_reading
  case waits =>
    intro hreading
    cases (hp₀.idle hv₀).symm.trans hreading
  case read =>
    have hread : uses.filterMap Use.read? = [] := by
      rw [List.filterMap_eq_nil_iff]
      intro use huse
      rcases huses use huse with rfl | ⟨path, rfl⟩ <;> rfl
    rw [hread, hv, hv₀, List.append_nil]
  case pinned =>
    intro v' hv'
    rw [hv, ← hv', hv₀]
  case scanning =>
    intro scan hscan
    rw [hv, hgoesOn.scanning hscan]
  case fits =>
    intro use huse
    rcases huses use huse with rfl | ⟨path, rfl⟩
    · exact .cursor (hv ▸ rfl)
    · exact .node path hv
  case failed =>
    intro e he
    obtain he | ⟨path, he⟩ := huses _ he <;> cases he
  case early => exact fun hearly => absurd hearly hgoesOn.not_early

/-- A reading that ends calls the next in line; before it began nobody else read. -/
theorem Answers.proceeds (h : Answers p out p' uses) (hp : p.snapshot = none)
    (hp₀ : p₀.snapshot = none) (hreader : p₀.reading = true → s = .due .reading)
    (hearly : s.Early) : p₀.Proceeds s (.after out) p' uses := by
  have hlive : ∀ failure, s ≠ .ended failure := by
    rintro failure rfl
    exact hearly
  cases h with
  | failed e =>
    constructor
    case live => exact hlive
    case sound => exact Pin.sound_of_idle rfl
    case reads => exact nofun
    case waits => exact fun hreading hs => absurd (hreader hreading) hs
    case read =>
      show p.snapshot.toList = _
      rw [hp, hp₀]
      rfl
    case pinned =>
      intro v hv
      cases hp₀.symm.trans hv
    case scanning => exact nofun
    case fits =>
      intro use huse
      rw [List.mem_singleton.1 huse]
      exact .head _
    case failed =>
      intro e' he
      cases List.mem_singleton.1 he
      exact ⟨rfl, hearly, fun use huse => List.mem_singleton.1 huse⟩
    case early => exact False.elim
  | @read v _ _ uses hscans =>
    -- once it is answered, the reader goes on as one who finds the snapshot pinned
    have hread : (p.answer (.ok v)).Proceeds (.due .finished) (.after out) p' uses :=
      hscans.proceeds (Pin.sound_of_idle rfl) rfl (Pin.sound_of_idle rfl) rfl nofun
    constructor
    case live => exact hlive
    case sound => exact hread.sound
    case reads => exact fun hreads => absurd hreads hscans.goesOn.not_reading
    case waits => exact fun hreading hs => absurd (hreader hreading) hs
    case read =>
      rw [hread.read, hp₀]
      rfl
    case pinned =>
      intro v' hv'
      cases hp₀.symm.trans hv'
    case scanning => exact hread.scanning
    case fits =>
      intro use huse
      rcases List.mem_cons.1 huse with rfl | huse
      · exact .head _
      · exact hread.fits use huse
    case failed =>
      intro e he
      rcases List.mem_cons.1 he with he | he
      · cases he
      · exact absurd (hread.failed e he).2.1 id
    case early => exact fun h => absurd h hscans.goesOn.not_early

/-- What is known of an iteration that goes on is that it reads or scans as the pin says. -/
theorem Advances.proceeds {it : Iteration} (h : Advances p it out p' uses) (hp : p.Sound)
    (hs : s.Resumes it) (hreading : s = .due .reading → p.reading = true)
    (hscanning : ∀ scan, s = .due (.scanning scan) → p.snapshot = some scan.snapshot) :
    p.Proceeds s (.after out) p' uses := by
  have hlive : ∀ failure, s ≠ .ended failure := by
    rintro failure rfl
    cases hs
  cases h with
  | finished => exact Pin.proceeds_unasked hlive hp rfl nofun id nofun False.elim
  | scans scan hscans =>
    cases hs
    exact hscans.proceeds hp (hscanning scan rfl) hp (hscanning scan rfl) hlive
  | answers hanswers =>
    cases hs
    have hnone := hp.unpinned (hreading rfl)
    exact hanswers.proceeds hnone hnone (fun _ => rfl) trivial
  | pinned hask hscans =>
    obtain ⟨hv, hpin, hidle⟩ := hp.ask_pinned hask
    exact hscans.proceeds (Pin.sound_of_idle hidle) hpin hp hv hlive
  | pauses hask =>
    obtain ⟨hnone, hidle, hpin, hreads, hsound⟩ := hp.ask_read hask
    exact Pin.proceeds_unasked hlive hsound (hpin.trans hnone.symm) (fun _ => ⟨hidle, hreads⟩)
      (fun _ => hreads) nofun fun _ => hs.early
  | reads hask hanswers =>
    obtain ⟨hnone, hidle, hpin, -, -⟩ := hp.ask_read hask
    apply hanswers.proceeds hpin hnone
    · intro h
      cases hidle.symm.trans h
    · exact hs.early
  | waits hask =>
    obtain ⟨hnone, hpin, hsame, hsound⟩ := hp.ask_wait hask
    exact Pin.proceeds_unasked hlive hsound (hpin.trans hnone.symm) nofun hsame.trans nofun
      fun _ => hs.early

end Traverser

/-- What the iterations of one traverser share, in terms of the pin, of where each of them stands
and of what they have asked the stores for. -/
structure Shares (p : Pin) (standings : Nat → Standing) (uses : List (Nat × Use)) : Prop where
  sound : p.Sound
  reading : ∀ i, standings i = .due .reading → p.reading = true
  alone : ∀ i j, standings i = .due .reading → standings j = .due .reading → i = j
  read : uses.filterMap (fun u => u.2.read?) = p.snapshot.toList
  scanning : ∀ i scan, standings i = .due (.scanning scan) → p.snapshot = some scan.snapshot
  fits : ∀ u ∈ uses, u.2.Fits p.snapshot
  failed : ∀ i e, (i, .head (.error e)) ∈ uses →
    standings i = .ended (some e) ∧ ∀ use, (i, use) ∈ uses → use = .head (.error e)
  early : ∀ i, (standings i).Early → ∀ use, (i, use) ∉ uses

namespace Shares

open Function

variable {p p' : Pin} {standings : Nat → Standing} {uses : List (Nat × Use)}

theorem start : Shares {} (fun _ => .unbegun) [] where
  sound := Pin.sound_of_idle rfl
  reading := nofun
  alone := nofun
  read := rfl
  scanning := nofun
  fits := nofun
  failed := nofun
  early _ _ _ := List.not_mem_nil

theorem mem_uses {i j : Nat} {use : Use} {more : List Use} :
    (j, use) ∈ uses ++ more.map (fun use => (i, use)) ↔ (j, use) ∈ uses ∨ j = i ∧ use ∈ more := by
  rw [List.mem_append, List.mem_map]
  refine or_congr_right ⟨?_, ?_⟩
  · rintro ⟨use, huse, ⟨⟩⟩
    exact ⟨rfl, huse⟩
  · rintro ⟨rfl, huse⟩
    exact ⟨use, huse, rfl⟩

theorem standing_update {i j : Nat} {s s' : Standing} (h : update standings i s' j = s) :
    j = i ∧ s' = s ∨ j ≠ i ∧ standings j = s := by
  by_cases hji : j = i
  · rw [hji, update_self] at h
    exact .inl ⟨hji, h⟩
  · rw [update_of_ne hji] at h
    exact .inr ⟨hji, h⟩

/-- A step of one iteration keeps what all of them share. -/
theorem proceed (h : Shares p standings uses) {i : Nat} {s' : Standing} {more : List Use}
    (hstep : p.Proceeds (standings i) s' p' more) :
    Shares p' (update standings i s') (uses ++ more.map fun use => (i, use)) := by
  constructor
  case sound => exact hstep.sound
  case reading =>
    intro j hj
    rcases standing_update hj with ⟨rfl, hs'⟩ | ⟨hji, hj⟩
    · exact (hstep.reads hs').2
    · have hother : standings i ≠ .due .reading := fun hi => hji (h.alone j i hj hi)
      exact (hstep.waits (h.reading j hj) hother).1
  case alone =>
    intro j k hj hk
    -- the one that begins to read finds nobody reading
    have hnew (hs' : s' = .due .reading) (k : Nat) : standings k ≠ .due .reading := by
      intro hk
      cases (h.reading k hk).symm.trans (hstep.reads hs').1
    rcases standing_update hj with ⟨rfl, hs'⟩ | ⟨-, hjold⟩
    · rcases standing_update hk with ⟨rfl, -⟩ | ⟨-, hkold⟩
      · rfl
      · exact absurd hkold (hnew hs' k)
    · rcases standing_update hk with ⟨rfl, hs'⟩ | ⟨-, hkold⟩
      · exact absurd hjold (hnew hs' j)
      · exact h.alone j k hjold hkold
  case read =>
    rw [hstep.read, List.filterMap_append, h.read, List.filterMap_map]
    rfl
  case scanning =>
    intro j scan hj
    rcases standing_update hj with ⟨rfl, hs'⟩ | ⟨-, hj⟩
    · exact hstep.scanning scan hs'
    · exact hstep.pinned _ (h.scanning j scan hj)
  case fits =>
    rintro ⟨j, use⟩ huse
    rcases mem_uses.1 huse with hold | ⟨-, hnew⟩
    · exact (h.fits _ hold).mono hstep.pinned
    · exact hstep.fits use hnew
  case failed =>
    intro j e he
    rcases mem_uses.1 he with hold | ⟨rfl, hnew⟩
    · obtain ⟨hended, hall⟩ := h.failed j e hold
      have hji : j ≠ i := by
        rintro rfl
        exact hstep.live _ hended
      rw [update_of_ne hji]
      refine ⟨hended, fun use huse => ?_⟩
      rcases mem_uses.1 huse with hold | ⟨hi, -⟩
      · exact hall use hold
      · exact absurd hi hji
    · obtain ⟨rfl, hearly, hall⟩ := hstep.failed e hnew
      rw [update_self]
      refine ⟨rfl, fun use huse => ?_⟩
      rcases mem_uses.1 huse with hold | ⟨-, hnew⟩
      · exact absurd hold (h.early j hearly use)
      · exact hall use hnew
  case early =>
    intro j hj use huse
    by_cases hji : j = i
    · rw [hji, update_self] at hj
      obtain ⟨hearly, rfl⟩ := hstep.early hj
      rcases mem_uses.1 huse with hold | ⟨-, hnew⟩
      · exact h.early j (hji ▸ hearly) use hold
      · cases hnew
    · rw [update_of_ne hji] at hj
      rcases mem_uses.1 huse with hold | ⟨hi, -⟩
      · exact h.early j hj use hold
      · exact hji hi

end Shares

namespace Crowd

variable {υ : Type} {t : Traverser υ} {c : Crowd (υ × Record)}

/-- The crowd without the record. -/
def plain (c : Crowd (υ × Record)) : Crowd υ := ⟨c.workspace.plain, c.standings⟩

def asked (c : Crowd (υ × Record)) : List (Nat × Use) := c.workspace.caller.2.uses

theorem run_append (c : Crowd υ) (moves more : List (Move t)) :
    c.run (moves ++ more) = (c.run moves).run more := List.foldl_append

theorem plain_move (c : Crowd (υ × Record)) (m : Move t) :
    (c.run m.recorded).plain = c.plain.move m := by
  cases m with
  | beside x hx => rfl
  | step i =>
    let w := c.workspace.running i
    have hstep := t.erases_step (c.standings i) w
    have hplain : w.plain = c.workspace.plain := rfl
    rw [hplain] at hstep
    show (move ⟨w, c.standings⟩ (.step i : Move t.recorded)).plain = _
    rw [move, move]
    simp only [plain]
    rw [hstep]
    rcases t.recorded.step (c.standings i) w with ⟨e | s, w'⟩
    · rfl
    · rfl

theorem plain_run (c : Crowd (υ × Record)) (moves : List (Move t)) :
    (c.run (moves.flatMap Move.recorded)).plain = c.plain.run moves := by
  induction moves generalizing c with
  | nil => rfl
  | cons m moves ih =>
    rw [List.flatMap_cons, run_append, ih, plain_move]
    rfl

/-- What the pin, the standings and the record of a crowd tell of one another. -/
def Sound (n : Nat) (c : Crowd (υ × Record)) : Prop :=
  ∃ p, c.workspace.pin? n = some p ∧ Shares p c.standings c.asked

/-- A step of an iteration: what it asks of the stores, and what becomes of the pin. -/
theorem run_step (ht : t.Discreet) {p : Pin} (hpin : c.workspace.pin? t.number = some p)
    (i : Nat) :
    let c' := c.run (Move.step i : Move t).recorded
    ∃ s' p' more, Traverser.Steps p (c.standings i) s' p' more ∧
      c'.workspace.pin? t.number = some p' ∧
      c'.standings = Function.update c.standings i s' ∧
      c'.asked = c.asked ++ more.map fun use => (i, use) := by
  let r : Record := { c.workspace.caller.2 with running := i }
  let w : Workspace (υ × Record) := c.workspace.running i
  have hw : w.sight t.number = (some p, r) := congrArg (·, r) hpin
  obtain ⟨p', more, ⟨s', hout, hsteps⟩, hafter⟩ := Traverser.does_step ht (c.standings i) w r hw
  have hrun : c.run (Move.step i : Move t).recorded =
      ⟨(t.recorded.step (c.standings i) w).2, Function.update c.standings i s'⟩ := by
    rcases hstep : t.recorded.step (c.standings i) w with ⟨out, w'⟩
    rw [hstep] at hout
    obtain rfl := hout
    show move ⟨w, c.standings⟩ (.step i : Move t.recorded) = _
    rw [move, hstep]
  obtain ⟨hpin', hrecord⟩ := Prod.mk.inj hafter
  rw [hrun]
  exact ⟨s', p', more, hsteps, hpin', rfl, congrArg Record.uses hrecord⟩

/-- A step leaves all as it is, since the iteration has ended, or goes on with it. -/
theorem proceeds_of_steps {p p' : Pin} {i : Nat} {s' : Standing} {more : List Use}
    (h : Shares p c.standings c.asked) (hstep : Traverser.Steps p (c.standings i) s' p' more) :
    (s' = c.standings i ∧ p' = p ∧ more = []) ∨ p.Proceeds (c.standings i) s' p' more := by
  generalize hs : c.standings i = s at hstep
  cases hstep with
  | ended failure => exact .inl ⟨rfl, rfl, rfl⟩
  | goesOn hresumes hadvance =>
    subst hs
    exact .inr (hadvance.proceeds h.sound hresumes (h.reading i) (h.scanning i))

theorem Sound.move (ht : t.Discreet) (hc : c.Sound t.number) (m : Move t) :
    (c.run m.recorded).Sound t.number := by
  obtain ⟨p, hpin, hshares⟩ := hc
  cases m with
  | step i =>
    obtain ⟨s', p', more, hstep, hpin', hstandings, hasked⟩ := run_step ht hpin i
    refine ⟨p', hpin', ?_⟩
    rw [hstandings, hasked]
    rcases proceeds_of_steps hshares hstep with ⟨rfl, rfl, rfl⟩ | hproceeds
    · rw [Function.update_eq_self, List.map_nil, List.append_nil]
      exact hshares
    · exact hshares.proceed hproceeds
  | beside x hx => exact ⟨p, (hx _).trans hpin, hshares⟩

theorem Sound.run (ht : t.Discreet) (hc : c.Sound t.number) (moves : List (Move t)) :
    (c.run (moves.flatMap Move.recorded)).Sound t.number := by
  induction moves generalizing c with
  | nil => exact hc
  | cons m moves ih =>
    rw [List.flatMap_cons, run_append]
    exact ih (hc.move ht m)

/-- A traverser that was just made without a snapshot has none pinned. -/
theorem sound_start {t t' : Traverser υ} {w w' : Workspace υ}
    (hcreate : t.createLazily none w = (.ok t', w')) : (start w'.recording).Sound t'.number := by
  cases hcreate
  refine ⟨{}, ?_, .start⟩
  simp only [start, recording, withCaller, pin?, List.getElem?_concat_length, Option.map_some]

/-- Nothing that was asked of the stores is forgotten. -/
theorem Sound.asked_prefix (ht : t.Discreet) (hc : c.Sound t.number) (m : Move t) :
    c.asked <+: (c.run m.recorded).asked := by
  obtain ⟨p, hpin, -⟩ := hc
  cases m with
  | step i =>
    obtain ⟨s', p', more, -, -, -, hasked⟩ := run_step ht hpin i
    exact ⟨_, hasked.symm⟩
  | beside x hx => exact List.prefix_refl _

/-- While a reading of the head is pending, only who reads asks the stores for something. -/
theorem Sound.run_of_reads (ht : t.Discreet) (hc : c.Sound t.number) {i : Nat} (hi : c.Reads i)
    {m : Move t} (hm : m ≠ .step i) :
    (c.run m.recorded).asked = c.asked ∧ (c.run m.recorded).Reads i := by
  obtain ⟨p, hpin, hshares⟩ := hc
  cases m with
  | beside x hx => exact ⟨rfl, hi⟩
  | step j =>
    have hij : i ≠ j := by
      rintro rfl
      exact hm rfl
    have hj : c.standings j ≠ .due .reading := fun hj => hij (hshares.alone i j hi hj)
    obtain ⟨s', p', more, hstep, -, hstandings, hasked⟩ := run_step ht hpin j
    have hmore : more = [] := by
      rcases proceeds_of_steps hshares hstep with ⟨-, -, hmore⟩ | hproceeds
      · exact hmore
      · exact (hproceeds.waits (hshares.reading i hi) hj).2
    constructor
    · rw [hasked, hmore, List.map_nil, List.append_nil]
    · rw [Reads, hstandings, Function.update_of_ne hij]
      exact hi

/-- However the iterations of a traverser take turns, with one another and with others, one reading
of the head succeeds at most, and all that scan do it at the snapshot it found. While a reading is
pending there is no other one. Who fails to read the head fails with that, and opens no cursor. The
record tells of all that was asked, from the first step on. -/
theorem iterations_share_one_snapshot {t t' : Traverser υ} {w w' : Workspace υ}
    (hcreate : t.createLazily none w = (.ok t', w')) (ht : t'.Discreet) (moves : List (Move t')) :
    let c := (start w').run moves
    ∃ pinned : Option RevisionVector,
      (uses w' moves).filterMap (fun u => u.2.read?) = pinned.toList ∧
      (∀ u ∈ uses w' moves, u.2.Fits pinned) ∧
      (∀ i scan, c.standings i = .due (.scanning scan) → pinned = some scan.snapshot) ∧
      (∀ i j, c.Reads i → c.Reads j → i = j) ∧
      (∀ i, c.Reads i → ∀ m : Move t', m ≠ .step i →
        uses w' (moves ++ [m]) = uses w' moves ∧ (c.move m).Reads i) ∧
      (∀ i e, (i, .head (.error e)) ∈ uses w' moves →
        c.standings i = .ended (some e) ∧
          ∀ use, (i, use) ∈ uses w' moves → use = .head (.error e)) ∧
      ∀ m : Move t', uses w' moves <+: uses w' (moves ++ [m]) := by
  intro c
  let c' : Crowd (υ × Record) := (start w'.recording).run (moves.flatMap Move.recorded)
  have hc' : c'.Sound t'.number := (sound_start hcreate).run ht moves
  have hplain : c'.plain = c := plain_run _ moves
  have huses (m : Move t') : uses w' (moves ++ [m]) = (c'.run m.recorded).asked := by
    rw [uses, List.flatMap_append, run_append, List.flatMap_singleton]
    rfl
  obtain ⟨p, hpin, hshares⟩ := id hc'
  rw [← hplain]
  refine ⟨p.snapshot, hshares.read, hshares.fits, hshares.scanning, hshares.alone, ?_,
    hshares.failed, ?_⟩
  · intro i hi m hm
    rw [huses, ← plain_move]
    exact hc'.run_of_reads ht hi hm
  · intro m
    rw [huses]
    exact hc'.asked_prefix ht m

/-- A head that cannot be read the first time, and that each later reading moves by a commit. -/
def fickleHead : Callback Nat RevisionVector :=
  .consult fun readings => .record (readings + 1) <|
    if readings = 0 then .done (.error .storeUnavailable)
    else .request (.commit "/late" [] .empty none) fun
      | .ok (.revision r) => .done (.ok (.ofList [r]))
      | .ok _ | .error _ => .done (.error .storeUnavailable)

theorem iterations_share_one_snapshot_of_fickle_head :
    let t : Traverser Nat :=
      { label := "crowd", delivery := .documents
        backend := { Backend.memory with head := fickleHead.perform, headPauses := true } }
    let write (path : String) : Move t :=
      .beside (Callback.request (.commit path [] .empty none) fun _ => .done (.ok ())).perform
        (keepsPin_callback _)
    let w : Workspace Nat := { traversers := [{}], caller := 0 }
    let moves : List (Move t) := [write "/a", .step 0, .step 1, .step 0, .step 2, .step 1, .step 1,
      write "/b", .step 2, .step 1, .step 1, .step 3]
    t.createLazily none { caller := 0 } = (.ok t, w) ∧ t.Discreet ∧
    ((start w).run moves).standings 0 = .ended (some .storeUnavailable) ∧
    (∀ use, (0, use) ∈ uses w moves → use = .head (.error .storeUnavailable)) ∧
    ∀ i path v, (i, .node path v) ∈ uses w moves → v = .ofList [⟨2, 0, 1⟩] := by
  intro t write w moves
  have hcreate : t.createLazily none { caller := 0 } = (.ok t, w) := rfl
  have ht : t.Discreet := by
    constructor
    · exact keepsPin_openCursor
    · exact keepsPin_callback fickleHead
    · exact keepsPin_node
    · exact fun _ _ => rfl
    · exact fun _ _ => rfl
  have hrefused : ((uses w moves).any fun
      | (0, .head (.error .storeUnavailable)) => true
      | _ => false) = true := by decide +kernel
  have hpinned : (uses w moves).filterMap (fun u => u.2.read?) = [.ofList [⟨2, 0, 1⟩]] := by
    decide +kernel
  obtain ⟨pinned, hread, hfits, -, -, -, hfailed, -⟩ :=
    iterations_share_one_snapshot hcreate ht moves
  -- the run has been evaluated, and is not to be evaluated again
  generalize uses w moves = asked at hrefused hpinned hread hfits hfailed ⊢
  obtain ⟨u, hu, hu'⟩ := List.any_eq_true.1 hrefused
  split at hu'
  · obtain ⟨hended, hall⟩ := hfailed 0 .storeUnavailable hu
    refine ⟨hcreate, ht, hended, hall, fun i path v hv => ?_⟩
    cases hfits _ hv with
    | node _ hv =>
      rw [hv] at hread
      cases hread.symm.trans hpinned
      rfl
  · cases hu'

end Crowd

end VersionedTree
