import VersionedTree.Proofs.Branches
import VersionedTree.Proofs.Interludes
import VersionedTree.Proofs.Releases

/-! # A closed scan does not look complete

A cursor that was closed stays closed, whatever else is done. An iteration whose cursor is closed
delivers what it has in hand of one document, and then fails; so a consumer does not take what it
got for the whole tree.
-/

namespace VersionedTree

namespace Ledger

variable {l : Ledger} {P Q : Ledger → Prop} {n i : Nat}

theorem Stable.and (hP : Stable P) (hQ : Stable Q) : Stable fun l => P l ∧ Q l where
  enrolled l x hx h := ⟨hP.enrolled l x hx h.1, hQ.enrolled l x hx h.2⟩
  opened l h := ⟨hP.opened l h.1, hQ.opened l h.2⟩
  repinned l n pin h := ⟨hP.repinned l n pin h.1, hQ.repinned l n pin h.2⟩
  scanned l n h := ⟨hP.scanned l n h.1, hQ.scanned l n h.2⟩
  closed l i h := ⟨hP.closed l i h.1, hQ.closed l i h.2⟩
  settled l n h := ⟨hP.settled l n h.1, hQ.settled l n h.2⟩

theorem stable_const (p : Prop) : Stable fun _ => p :=
  ⟨fun _ _ _ h => h, fun _ h => h, fun _ _ _ h => h, fun _ _ h => h, fun _ _ h => h,
    fun _ _ h => h⟩

def Knows (n : Nat) (l : Ledger) : Prop := n < l.traversers.length

theorem stable_knows (n : Nat) : Stable (Knows n) where
  enrolled l x _ h := by
    rw [Knows, length_enrolled]
    exact Nat.lt_succ_of_lt h
  opened _ h := h
  repinned l m pin h := by
    rwa [Knows, repinned, length_modifyHolding]
  scanned l m h := by
    rwa [Knows, scanned, length_modifyHolding]
  closed l j h := by
    rwa [Knows, traversers_closed]
  settled l m h := by
    rwa [Knows, traversers_settled, List.length_modify]

def IsClosed (i : Nat) (l : Ledger) : Prop := ∃ parts, l.cursors[i]? = some (true, parts)

theorem IsClosed.opened (h : l.IsClosed i) : l.opened.IsClosed i := by
  obtain ⟨parts, hget⟩ := h
  refine ⟨parts, ?_⟩
  rw [Ledger.opened, List.getElem?_append_left (List.getElem?_eq_some_iff.1 hget).1, hget]

/-- A cursor that was closed stays closed. -/
theorem stable_isClosed (i : Nat) : Stable (IsClosed i) where
  enrolled _ _ _ h := h
  opened _ h := h.opened
  repinned _ _ _ h := h
  scanned _ _ h := h.opened
  closed l j h := by
    obtain ⟨parts, hget⟩ := h
    refine ⟨parts, ?_⟩
    rw [getElem?_closed, hget, Option.map_some]
    split <;> rfl
  settled l m h := by
    obtain ⟨parts, hget⟩ := h
    refine ⟨parts, ?_⟩
    rw [getElem?_settled, hget, Option.map_some]
    split <;> rfl

theorem isClosed_closed (hi : i < l.cursors.length) : (l.closed i).IsClosed i := by
  refine ⟨l.cursors[i].2, ?_⟩
  rw [getElem?_closed, List.getElem?_eq_getElem hi, Option.map_some, if_pos rfl]

/-- The cursor is there, and it was closed or the traverser of this number is to close it. -/
def InCare (n i : Nat) (l : Ledger) : Prop :=
  ∃ c, l.cursors[i]? = some c ∧ (c.1 = true ∨ i ∈ (l.holding n).cursors)

theorem InCare.isClosed_settled (h : l.InCare n i) : (l.settled n).IsClosed i := by
  obtain ⟨c, hget, hkept⟩ := h
  refine ⟨c.2, ?_⟩
  rw [getElem?_settled, hget, Option.map_some]
  rcases hkept with hclosed | hmem
  · rw [← hclosed]
    split <;> rfl
  · rw [if_pos hmem]

/-- An entry that keeps the cursor, and takes it from the traverser only to close it. -/
theorem InCare.mono {l' : Ledger} (h : l.InCare n i)
    (hcursors : ∀ c, l.cursors[i]? = some c → ∃ c', l'.cursors[i]? = some c' ∧
      (c.1 = true → c'.1 = true) ∧
      (i ∈ (l.holding n).cursors → c'.1 = true ∨ i ∈ (l'.holding n).cursors)) :
    l'.InCare n i := by
  obtain ⟨c, hget, hkept⟩ := h
  obtain ⟨c', hget', hclosed, hheld⟩ := hcursors c hget
  exact ⟨c', hget', hkept.elim (fun h => .inl (hclosed h)) hheld⟩

theorem stable_inCare (n i : Nat) : Stable fun l => Knows n l ∧ InCare n i l where
  enrolled l x hx h := by
    refine ⟨(stable_knows n).enrolled l x hx h.1, h.2.mono fun c hget => ⟨c, hget, id, ?_⟩⟩
    rw [holding_enrolled h.1]
    exact .inr
  opened l h := by
    refine ⟨h.1, h.2.mono fun c hget => ⟨c, ?_, id, .inr⟩⟩
    rw [opened, List.getElem?_append_left (List.getElem?_eq_some_iff.1 hget).1, hget]
  repinned l m pin h := by
    refine ⟨(stable_knows n).repinned l m pin h.1, h.2.mono fun c hget => ⟨c, hget, id, ?_⟩⟩
    by_cases hm : m = n
    · rw [hm, repinned, holding_modifyHolding_same h.1]
      exact .inr
    · rw [repinned, holding_modifyHolding_ne hm]
      exact .inr
  scanned l m h := by
    refine ⟨(stable_knows n).scanned l m h.1, h.2.mono fun c hget => ⟨c, ?_, id, ?_⟩⟩
    · show (l.cursors ++ _)[i]? = some c
      rw [List.getElem?_append_left (List.getElem?_eq_some_iff.1 hget).1, hget]
    · by_cases hm : m = n
      · rw [hm, scanned, holding_modifyHolding_same (l := l.opened) h.1]
        exact fun hmem => .inr (List.mem_append_left _ hmem)
      · rw [scanned, holding_modifyHolding_ne hm]
        exact .inr
  closed l j h := by
    refine ⟨(stable_knows n).closed l j h.1, h.2.mono fun c hget => ?_⟩
    rw [getElem?_closed, hget, holding, holding, traversers_closed]
    refine ⟨_, rfl, ?_, .inr⟩
    intro hclosed
    split
    · rfl
    · exact hclosed
  settled l m h := by
    refine ⟨(stable_knows n).settled l m h.1, h.2.mono fun c hget => ?_⟩
    rw [getElem?_settled, hget, holding_settled]
    refine ⟨_, rfl, ?_, ?_⟩
    · intro hclosed
      split
      · rfl
      · exact hclosed
    · intro hmem
      by_cases hm : m = n
      · left
        simp only [hm, hmem, if_true]
      · rw [holding_modifyHolding_ne hm]
        exact .inr hmem

end Ledger

namespace NodeState

variable {s : NodeState} {e : Failure}

theorem kind_of_children (h : s.children = .error e) : e.kind = .snapshotResolution := by
  rw [children] at h
  split at h
  · cases h
    rfl
  · cases h

theorem kind_of_generations {n : Nat} (h : (generations n s).failure = some e) :
    e.kind = .snapshotResolution := by
  induction n generalizing s with
  | zero => cases h
  | succ n ih =>
    rw [generations] at h
    cases hchildren : s.children with
    | error e' =>
      rw [hchildren] at h
      cases h
      exact kind_of_children hchildren
    | ok children =>
      rw [hchildren] at h
      dsimp only at h
      rw [Expansion.failure_foldl_append rfl] at h
      obtain ⟨c, -, hc⟩ := List.exists_of_findSome?_eq_some h
      exact ih hc

end NodeState

namespace Workspace

variable {υ α : Type} {w : Workspace υ} {i : Nat}

theorem closed_cursor (h : w.ledger.IsClosed i) : (w.cursor i).closed = true := by
  obtain ⟨parts, hget⟩ := h
  have hmap : w.ledger.cursors[i]? = w.cursors[i]?.map Cursor.account := List.getElem?_map ..
  rw [hmap, Option.map_eq_some_iff] at hget
  obtain ⟨c, hc, haccount⟩ := hget
  rw [cursor_of_getElem? hc]
  exact congrArg Prod.fst haccount

theorem requireOpen_of_isClosed (h : w.ledger.IsClosed i) :
    requireOpen i w = (.error (.cursorClosed (w.cursor i).description), w) := by
  rw [requireOpen, Action.bind_apply, Action.get_apply]
  dsimp only
  rw [Cursor.requireOpen, if_pos (closed_cursor h)]
  rfl

theorem resumeFetch_of_isClosed (h : w.ledger.IsClosed i) :
    resumeFetch i w = (.error (.cursorClosed (w.cursor i).query), w) := by
  rw [resumeFetch, Action.bind_apply, Action.get_apply]
  dsimp only
  rw [Cursor.requireUninterrupted, if_pos (closed_cursor h)]
  rfl

theorem fetch_of_isClosed (h : w.ledger.IsClosed i) (filter : String → Action (Workspace υ) Bool)
    (stream : List Stored) :
    fetch i filter stream w =
      (.ok (.error (.cursorClosed (w.cursor i).description), stream), w) := by
  rw [fetch, Action.bind_apply, Action.attempt, requireOpen_of_isClosed h]
  rfl

end Workspace

namespace Traverser

open Workspace

variable {υ : Type} {t : Traverser υ} {scan : Scan} {w w' : Workspace υ} {mayPause : Bool}
  {entries : List Entry}

/-- What a step of a scan goes on with: the next state of the document in hand, or, once that is
delivered, the states of another node. -/
inductive Discloses (scan : Scan) : Step → Prop where
  | finished : Discloses scan .finished
  | paused (next : Scan) (hcursor : next.cursor = scan.cursor) (hempty : scan.pending = {})
    (hpending : next.pending = {}) : Discloses scan (.paused (.scanning next))
  | pending (s : NodeState) (rest : List NodeState) (next : Scan)
    (hcursor : next.cursor = scan.cursor) (hmodified : next.modified = scan.modified)
    (hstates : scan.pending.states = s :: rest)
    (hpending : next.pending = ⟨rest, scan.pending.failure⟩) :
    Discloses scan (.entry (.ofState scan.modified s) (.scanning next))
  | found (n : NodeState) (modified : Option Modified) (next : Scan)
    (hcursor : next.cursor = scan.cursor) (hmodified : next.modified = modified)
    (hpending : next.pending = n.descendants) :
    Discloses scan (.entry (.ofState modified n) (.scanning next))

theorem discloses_seek (hempty : scan.pending = {}) {items : List Stored} {step : Step}
    (h : t.seek mayPause scan items w = (.ok step, w')) : Discloses scan step := by
  induction items generalizing w with
  | nil =>
    obtain ⟨_, _, -, h⟩ := Action.of_bind_eq_ok h
    cases h
    exact .finished
  | cons item rest ih =>
    obtain ⟨visited, w₁, hvisit, h⟩ := Action.of_bind_eq_ok h
    cases visited with
    | skipped => exact ih h
    | dropped =>
      obtain ⟨_, _, -, h⟩ := Action.of_bind_eq_ok h
      cases mayPause with
      | true =>
        cases h
        exact .paused _ rfl hempty hempty
      | false => exact ih h
    | found first more =>
      obtain ⟨hmore, -⟩ := found_of_visit hvisit
      cases h
      exact .found first item.document.modified _ rfl rfl hmore

theorem discloses_advanceScan {step : Step}
    (h : t.advanceScan mayPause scan w = (.ok step, w')) : Discloses scan step := by
  rcases hpending : scan.pending with ⟨_ | ⟨s, rest⟩, failure⟩
  · cases failure with
    | some e =>
      rw [advanceScan, hpending] at h
      cases h
    | none =>
      rw [advanceScan, hpending] at h
      dsimp only at h
      split at h
      · obtain ⟨_, _, -, h⟩ := Action.of_bind_eq_ok h
        exact discloses_seek hpending h
      · obtain ⟨_, _, -, h⟩ := Action.of_bind_eq_ok h
        cases mayPause with
        | true =>
          cases h
          exact .paused _ rfl hpending rfl
        | false => exact discloses_seek hpending h
  · rw [advanceScan, hpending] at h
    cases h
    have hstates : scan.pending.states = s :: rest := by rw [hpending]
    have hfailure : scan.pending.failure = failure := by rw [hpending]
    exact .pending s rest _ rfl rfl hstates (by rw [hfailure])

/-- How a scan ends that is closed in the midst of a document: as the document's states do not all
unfold, or as its cursor is closed. -/
def EndsWith (failure : Option Failure) (e : Failure) : Prop :=
  match failure with
  | some e' => e = e'
  | none => e.kind = .cursorClosed

theorem EndsWith.cases {s : NodeState} {e : Failure} (h : EndsWith s.descendants.failure e) :
    s.descendants.failure = some e ∧ e.kind = .snapshotResolution ∨
      s.descendants.failure = none ∧ e.kind = .cursorClosed := by
  cases hfailure : s.descendants.failure with
  | some e' =>
    rw [hfailure] at h
    cases h
    exact .inl ⟨rfl, NodeState.kind_of_generations hfailure⟩
  | none =>
    rw [hfailure] at h
    exact .inr ⟨rfl, h⟩

theorem advanceScan_of_isClosed (t : Traverser υ) (mayPause : Bool)
    (h : w.ledger.IsClosed scan.cursor) (hstates : scan.pending.states = []) :
    ∃ e, t.advanceScan mayPause scan w = (.error e, w) ∧ EndsWith scan.pending.failure e := by
  rcases hpending : scan.pending with ⟨states, failure⟩
  rw [hpending] at hstates
  cases hstates
  rw [advanceScan, hpending]
  cases failure with
  | some e => exact ⟨e, rfl, rfl⟩
  | none =>
    dsimp only
    split
    · rw [Action.bind_apply, resumeFetch_of_isClosed h]
      exact ⟨_, rfl, rfl⟩
    · rw [Action.bind_apply, requireOpen_of_isClosed h]
      exact ⟨_, rfl, rfl⟩

/-- The entries end amid a document, whose states the scan has pending, or there are none. -/
def Amid (entries : List Entry) (scan : Scan) : Prop :=
  (entries = [] ∧ scan.pending = {}) ∨
    ∃ (n : NodeState) (modified : Option Modified) (earlier done : List Entry),
      entries = earlier ++ done ∧ done ≠ [] ∧
      done ++ scan.pending.states.map (.ofState scan.modified) =
        (n :: n.descendants.states).map (.ofState modified) ∧
      scan.pending.failure = n.descendants.failure

theorem Amid.found (entries : List Entry) {n : NodeState} {modified : Option Modified}
    {next : Scan} (hmodified : next.modified = modified) (hpending : next.pending = n.descendants) :
    Amid (entries ++ [.ofState modified n]) next := by
  refine .inr ⟨n, modified, entries, [.ofState modified n], rfl, by simp, ?_, ?_⟩
  · rw [hpending, hmodified]
    rfl
  · rw [hpending]

theorem Amid.pending (h : Amid entries scan) {s : NodeState} {rest : List NodeState} {next : Scan}
    (hmodified : next.modified = scan.modified) (hstates : scan.pending.states = s :: rest)
    (hpending : next.pending = ⟨rest, scan.pending.failure⟩) :
    Amid (entries ++ [.ofState scan.modified s]) next := by
  rcases h with ⟨-, hempty⟩ | ⟨n, modified, earlier, done, hentries, hdone, hall, hfailure⟩
  · rw [hempty] at hstates
    cases hstates
  · refine .inr ⟨n, modified, earlier, done ++ [.ofState scan.modified s], ?_, by simp, ?_, ?_⟩
    · rw [hentries, List.append_assoc]
    · rw [← hall, hpending, hmodified, hstates, List.append_assoc]
      rfl
    · rw [hpending, hfailure]

theorem Amid.paused (h : Amid entries scan) {next : Scan} (hempty : scan.pending = {})
    (hpending : next.pending = {}) : Amid entries next := by
  rcases h with ⟨hentries, -⟩ | ⟨n, modified, earlier, done, hentries, hdone, hall, hfailure⟩
  · exact .inl ⟨hentries, hpending⟩
  · rw [hempty] at hall hfailure
    refine .inr ⟨n, modified, earlier, done, hentries, hdone, ?_, ?_⟩
    · rw [← hall, hpending]
      rfl
    · rw [← hfailure, hpending]

end Traverser

namespace Turntaker

open Workspace Traverser Ledger

variable {υ : Type} {t : Traverser υ} {r : Turntaker υ} {n : Nat} {mayPause : Bool}

/-- Where an iteration of the traverser of this number stands. One that scans is amid a document
if it has delivered something, and its traverser closes its cursor if nobody did. -/
def Stands (n : Nat) (r : Turntaker υ) (l : Ledger) : Prop :=
  match r.standing with
  | .due (.scanning scan) => (l.Knows n ∧ l.InCare n scan.cursor) ∧ Amid r.entries scan
  | .ended _ => l.Knows n
  | .unbegun | .waiting _ | .due (.entering _) | .due .reading | .due .finished =>
    l.Knows n ∧ r.entries = []

theorem stable_stands (n : Nat) (r : Turntaker υ) : Stable (Stands n r) := by
  have hfresh : Stable fun l => l.Knows n ∧ r.entries = [] := (stable_knows n).and (stable_const _)
  unfold Stands
  rcases r.standing with _ | (ticket | _ | scan | _) | ticket | failure
  · exact hfresh
  · exact hfresh
  · exact hfresh
  · exact (stable_inCare n scan.cursor).and (stable_const _)
  · exact hfresh
  · exact hfresh
  · exact stable_knows n

/-- An iteration that has delivered something and has not ended scans. -/
theorem Stands.scanning {l : Ledger} (h : Stands n r l) (hentries : r.entries ≠ [])
    (hgoing : ∀ failure, r.standing ≠ .ended failure) :
    ∃ scan, r.standing = .due (.scanning scan) ∧ (l.Knows n ∧ l.InCare n scan.cursor) ∧
      Amid r.entries scan := by
  unfold Stands at h
  split at h
  case h_1 scan hdue => exact ⟨scan, hdue, h⟩
  case h_2 failure hended => exact absurd hended (hgoing failure)
  all_goals exact absurd h.2 hentries

theorem stands_ended (failure : Option Failure) {l : Ledger} (h : l.Knows n) :
    Stands n { r with standing := .ended failure } l := h

/-- The cursor of a scan is the one that was opened for it. -/
theorem of_openScan_eq_ok (ht : t.backend = .memory) {v : RevisionVector} {scan : Scan}
    {w w' : Workspace υ} (h : t.openScan v w = (.ok scan, w')) :
    scan.cursor = w.ledger.cursors.length ∧ w'.ledger = w.ledger.scanned t.number := by
  have hcursor : scan.cursor = w.cursors.length := by
    cases hitems : w.store.scannable t.range with
    | error e =>
      rw [openScan_of_error ht hitems] at h
      cases h
    | ok items =>
      rw [openScan_of_ok ht hitems] at h
      cases h
      rfl
  constructor
  · rw [hcursor, ledger, List.length_map]
  · rcases ledger_openScan ht v w with ⟨e, w₁, herror, -⟩ | ⟨scan₁, w₁, hok, hledger⟩
    · rw [herror] at h
      cases h
    · rw [hok] at h
      cases h
      exact hledger

theorem inCare_scanned {l : Ledger} (h : l.Knows n) :
    (l.scanned n).InCare n l.cursors.length := by
  refine ⟨(false, [.stream, .count]), ?_, .inr ?_⟩
  · exact List.getElem?_concat_length
  · rw [scanned, holding_modifyHolding_same (l := l.opened) h]
    exact List.mem_append_right _ (List.mem_singleton.2 rfl)

theorem meets_openScan (ht : t.backend = .memory) (v : RevisionVector) :
    Action.Meets (fun w => w.ledger.Knows t.number) (t.openScan v)
      (fun scan w => (w.ledger.Knows t.number ∧ w.ledger.InCare t.number scan.cursor) ∧
        Amid [] scan)
      (fun w => w.ledger.Knows t.number) := by
  intro w hw
  have hkept := upholds_openScan ht (fun l => (stable_knows t.number).scanned l t.number) v w hw
  rcases hscan : t.openScan v w with ⟨e | scan, w'⟩
  · rwa [hscan] at hkept
  · rw [hscan] at hkept
    obtain ⟨hpending, -⟩ := fresh_of_openScan hscan
    obtain ⟨hcursor, hledger⟩ := of_openScan_eq_ok ht hscan
    refine ⟨⟨hkept, ?_⟩, .inl ⟨rfl, hpending⟩⟩
    rw [hcursor, hledger]
    exact inCare_scanned hw

section

variable (ht : t.backend = .memory) (hpredicate : ∀ path, Workspace.Operation (t.predicate path))
  (hprogress : ∀ id, Workspace.Operation (t.progress id))

include ht hpredicate hprogress

theorem heeds_stable {P : Ledger → Prop} (hP : Stable P) : t.Heeds P :=
  ⟨ht, fun path => (hpredicate path).keeps hP, fun id => (hprogress id).keeps hP⟩

/-- A step of a scan leaves its iteration amid a document again. -/
theorem meets_scan {r : Turntaker υ} (mayPause : Bool) (scan : Scan) :
    Action.Meets
      (fun w => (w.ledger.Knows t.number ∧ w.ledger.InCare t.number scan.cursor) ∧
        Amid r.entries scan)
      (t.advanceScan mayPause scan) (fun step w => Stands t.number (r.after (.ok step)) w.ledger)
      (fun w => w.ledger.Knows t.number) := by
  rintro w ⟨hcare, hamid⟩
  have hheeds := heeds_stable ht hpredicate hprogress (stable_inCare t.number scan.cursor)
  have hcare := upholds_advanceScan hheeds mayPause scan w hcare
  rcases hstep : t.advanceScan mayPause scan w with ⟨e | step, w'⟩
  · rw [hstep] at hcare
    exact hcare.1
  · rw [hstep] at hcare
    cases discloses_advanceScan hstep with
    | finished => exact hcare.1
    | paused next hcursor hempty hpending =>
      refine ⟨?_, hamid.paused hempty hpending⟩
      rw [hcursor]
      exact hcare
    | pending s rest next hcursor hmodified hstates hpending =>
      refine ⟨?_, hamid.pending hmodified hstates hpending⟩
      rw [hcursor]
      exact hcare
    | found node modified next hcursor hmodified hpending =>
      refine ⟨?_, .found _ hmodified hpending⟩
      rw [hcursor]
      exact hcare

/-- The first step of a scan, once the scan is open. -/
theorem meets_opened {r : Turntaker υ} (hnone : r.entries = []) (mayPause : Bool)
    (v : RevisionVector) :
    Action.Meets (fun w => w.ledger.Knows t.number)
      (do t.advanceScan mayPause (← t.openScan v))
      (fun step w => Stands t.number (r.after (.ok step)) w.ledger)
      (fun w => w.ledger.Knows t.number) := by
  apply (meets_openScan ht v).bind
  intro scan
  rw [← hnone]
  exact meets_scan ht hpredicate hprogress mayPause scan

theorem meets_reading {r : Turntaker υ} (hnone : r.entries = []) (mayPause : Bool) :
    Action.Meets (fun w => w.ledger.Knows t.number) (t.advance mayPause .reading)
      (fun step w => Stands t.number (r.after (.ok step)) w.ledger)
      (fun w => w.ledger.Knows t.number) := by
  intro w hw
  have hpinned := upholds_repin (allows_stable (stable_knows t.number) t.number)
    (fun pin => pin.answer (.ok w.head)) w hw
  have hread : t.advance mayPause .reading w = (do t.advanceScan mayPause (← t.openScan w.head))
      (t.modifyState (fun s => { s with pin := s.pin.answer (.ok w.head) }) w) := by
    rw [advance, Action.bind_apply, Action.bind_apply, readHead_eq ht]
  rw [hread]
  exact meets_opened ht hpredicate hprogress hnone mayPause w.head _ hpinned

theorem meets_entering {r : Turntaker υ} (hnone : r.entries = []) (mayPause : Bool)
    (ticket : Nat) :
    Action.Meets (fun w => w.ledger.Knows t.number) (t.advance mayPause (.entering ticket))
      (fun step w => Stands t.number (r.after (.ok step)) w.ledger)
      (fun w => w.ledger.Knows t.number) := by
  have hask := upholds_ask (allows_stable (stable_knows t.number) t.number) ticket
  apply (hask.meets fun _ h => h).bind
  intro turn
  cases turn with
  | pinned v => exact meets_opened ht hpredicate hprogress hnone mayPause v
  | read =>
    dsimp only
    split
    · exact Action.meets_pure fun w h => ⟨h, hnone⟩
    · exact meets_reading ht hpredicate hprogress hnone mayPause
  | wait => exact Action.meets_pure fun w h => ⟨h, hnone⟩

theorem meets_advance {r : Turntaker υ} {it : Iteration} (hit : r.standing.Resumes it)
    (mayPause : Bool) :
    Action.Meets (fun w => Stands t.number r w.ledger) (t.advance mayPause it)
      (fun step w => Stands t.number (r.after (.ok step)) w.ledger)
      (fun w => w.ledger.Knows t.number) := by
  intro w h
  rw [Stands] at h
  generalize r.standing = standing at h hit
  cases hit with
  | unbegun ticket => exact meets_entering ht hpredicate hprogress h.2 mayPause ticket w h.1
  | waiting ticket => exact meets_entering ht hpredicate hprogress h.2 mayPause ticket w h.1
  | due it =>
    cases it with
    | entering ticket => exact meets_entering ht hpredicate hprogress h.2 mayPause ticket w h.1
    | reading => exact meets_reading ht hpredicate hprogress h.2 mayPause w h.1
    | scanning scan => exact meets_scan ht hpredicate hprogress mayPause scan w h
    | finished => exact h.1

theorem step_stands {r : Turntaker υ} (htraverser : r.traverser = t) (hcloses : r.closes = false)
    (mayPause : Bool) {w : Workspace υ} (h : Stands t.number r w.ledger) :
    ∃ r' w', r.step mayPause w = (.ok r', w') ∧ (r'.traverser = t ∧ r'.closes = false) ∧
      Stands t.number r' w'.ledger := by
  rcases step_cases hcloses mayPause w with
    ⟨failure, -, hstep⟩ | ⟨it, w₁, w₂, hit, h₁, h₂, hstep⟩
  · exact ⟨r, w, hstep, ⟨htraverser, hcloses⟩, h⟩
  · refine ⟨_, w₂, hstep, by simp [htraverser, hcloses], ?_⟩
    have hbefore : Stands t.number r w₁.ledger := by rwa [h₁]
    have hnext := meets_advance ht hpredicate hprogress hit mayPause w₁ hbefore
    rw [htraverser] at h₂ ⊢
    rw [h₂]
    rcases hadvance : t.advance mayPause it w₁ with ⟨e | step, w₃⟩
    · rw [hadvance] at hnext
      exact stands_ended (some e) hnext
    · rw [hadvance] at hnext
      exact hnext

end

/-! ## After the closing -/

/-- A step of a scan that was closed: the next state in hand, or the end. -/
theorem step_of_isClosed {r : Turntaker υ} {scan : Scan} {w : Workspace υ}
    (hcloses : r.closes = false) (hdue : r.standing = .due (.scanning scan))
    (hclosed : w.ledger.IsClosed scan.cursor) (mayPause : Bool) :
    ∃ w', w'.ledger = w.ledger ∧
      match scan.pending.states with
      | s :: rest => r.step mayPause w =
          (.ok { r with
            entries := r.entries ++ [.ofState scan.modified s]
            standing := .due <| .scanning
              { scan with
                pending := ⟨rest, scan.pending.failure⟩, produced := scan.produced + 1 } }, w')
      | [] => ∃ e, EndsWith scan.pending.failure e ∧
          r.step mayPause w = (.ok { r with standing := .ended (some e) }, w') := by
  rcases step_cases hcloses mayPause w with
    ⟨failure, hended, -⟩ | ⟨it, w₁, w₂, hit, h₁, h₂, hstep⟩
  · rw [hdue] at hended
    cases hended
  · rw [hdue] at hit
    cases hit
    have hclosed₁ : w₁.ledger.IsClosed scan.cursor := by rwa [h₁]
    rw [advance] at h₂ hstep
    cases hstates : scan.pending.states with
    | nil =>
      obtain ⟨e, hfail, he⟩ := advanceScan_of_isClosed r.traverser mayPause hclosed₁ hstates
      rw [hfail] at h₂ hstep
      exact ⟨w₂, h₂.trans h₁, e, he, hstep⟩
    | cons s rest =>
      have hentry : r.traverser.advanceScan mayPause scan w₁ =
          (.ok (.entry (.ofState scan.modified s) (.scanning
            { scan with
              pending := ⟨rest, scan.pending.failure⟩, produced := scan.produced + 1 })), w₁) := by
        rw [advanceScan, hstates]
        rfl
      rw [hentry] at h₂ hstep
      exact ⟨w₂, h₂.trans h₁, hstep⟩

/-- A closed scan delivers the states in hand, one in each step, and then fails. -/
theorem stepAmid_of_isClosed (mayPause : Bool) {others : List (Action (Workspace υ) Unit)}
    (hothers : ∀ other ∈ others, Workspace.Operation other) {r : Turntaker υ} {scan : Scan}
    {w : Workspace υ} (hcloses : r.closes = false) (hdue : r.standing = .due (.scanning scan))
    (hclosed : w.ledger.IsClosed scan.cursor) :
    ∃ r' w', stepAmid mayPause others r w = (.ok r', w') ∧
      r'.entries = r.entries ++
        (scan.pending.states.map (.ofState scan.modified)).take others.length ∧
      (others.length ≤ scan.pending.states.length → ∀ failure, r'.standing ≠ .ended failure) ∧
      (scan.pending.states.length < others.length →
        ∃ e, r'.standing = .ended (some e) ∧ EndsWith scan.pending.failure e) := by
  induction others generalizing r scan w with
  | nil =>
    refine ⟨r, w, rfl, by simp, ?_, fun h => absurd h (Nat.not_lt_zero _)⟩
    intro _ failure hended
    rw [hdue] at hended
    cases hended
  | cons other others ih =>
    rw [List.forall_mem_cons] at hothers
    obtain ⟨hother, hothers⟩ := hothers
    have hclosed' : (other w).2.ledger.IsClosed scan.cursor :=
      hother.keeps (stable_isClosed scan.cursor) w hclosed
    obtain ⟨w₁, hledger, hstep⟩ := step_of_isClosed hcloses hdue hclosed' mayPause
    have hclosed₁ : w₁.ledger.IsClosed scan.cursor := by rwa [hledger]
    cases hstates : scan.pending.states with
    | nil =>
      rw [hstates] at hstep
      obtain ⟨e, he, hstep⟩ := hstep
      obtain ⟨w', hrest⟩ := stepAmid_ended mayPause (r := { r with standing := .ended (some e) })
        rfl others w₁
      refine ⟨_, w', (stepAmid_cons hstep others).trans hrest, by simp, ?_, ?_⟩
      · intro hlength
        cases hlength
      · intro _
        exact ⟨e, rfl, he⟩
    | cons s rest =>
      rw [hstates] at hstep
      obtain ⟨r', w', hrest, hentries, hgoing, hended⟩ := ih hothers
        (r := { r with
          entries := r.entries ++ [.ofState scan.modified s]
          standing := .due <| .scanning
            { scan with
              pending := ⟨rest, scan.pending.failure⟩, produced := scan.produced + 1 } })
        hcloses rfl hclosed₁
      refine ⟨r', w', (stepAmid_cons hstep others).trans hrest, ?_, ?_, ?_⟩
      · rw [hentries, List.append_assoc]
        rfl
      · intro hlength
        exact hgoing (Nat.le_of_succ_le_succ hlength)
      · intro hlength
        exact hended (Nat.lt_of_succ_lt_succ hlength)

/-- Amid anything else that is done, an iteration whose traverser is closed after its first entry
and before its end delivers the states that it still has of one document, and then fails: with the
failure of that document to unfold, or as its cursor is closed. A cursor that was closed is not
read any more, and its stream stays as it is. -/
theorem closed_scan_fails {t : Traverser υ} (ht : t.backend = .memory)
    (hpredicate : ∀ path, Workspace.Operation (t.predicate path))
    (hprogress : ∀ id, Workspace.Operation (t.progress id)) {w : Workspace υ}
    (hn : t.number < w.traversers.length) (mayPause : Bool)
    {before after : List (Action (Workspace υ) Unit)} {x : Action (Workspace υ) Unit}
    (hbefore : ∀ other ∈ before, Workspace.Operation other) (hx : Workspace.Operation x)
    (hafter : ∀ other ∈ after, Workspace.Operation other) :
    (∃ r w₁, stepAmid mayPause before { traverser := t } w = (.ok r, w₁) ∧
      (r.entries ≠ [] → (∀ failure, r.standing ≠ .ended failure) →
        ∃ (n : NodeState) (modified : Option Modified) (earlier done rest : List Entry)
          (r' : Turntaker υ) (w' : Workspace υ),
          r.entries = earlier ++ done ∧ done ≠ [] ∧
          done ++ rest = (n :: n.descendants.states).map (.ofState modified) ∧
          stepAmid mayPause after r (t.close (x w₁).2).2 = (.ok r', w') ∧
          r'.entries = r.entries ++ rest.take after.length ∧
          (after.length ≤ rest.length → ∀ failure, r'.standing ≠ .ended failure) ∧
          (rest.length < after.length → ∃ e, r'.standing = .ended (some e) ∧
            (n.descendants.failure = some e ∧ e.kind = .snapshotResolution ∨
              n.descendants.failure = none ∧ e.kind = .cursorClosed)))) ∧
    (∀ i < w.cursors.length, ∀ filter stream,
      let w' := (x (closeCursor i w).2).2
      requireOpen i w' = (.error (.cursorClosed (w'.cursor i).description), w') ∧
      fetch i filter stream w' =
        (.ok (.error (.cursorClosed (w'.cursor i).description), stream), w')) ∧
    ∀ (c : Cursor) {α : Type} (items : List α),
      c.close.2.requireOpen = .error (.cursorClosed c.description) ∧
      c.close.2.next items = .error (.cursorClosed c.description) ∧
      c.close.2.close = ([], c.close.2) := by
  refine ⟨?_, ?_, ?_⟩
  · have hstart : Stands t.number { traverser := t } w.ledger := by
      refine ⟨?_, rfl⟩
      rwa [Knows, ledger, List.length_map]
    obtain ⟨r, w₁, hrun, ⟨htraverser, hcloses⟩, hstands⟩ := stepAmid_keeps
      (Q := fun r l => (r.traverser = t ∧ r.closes = false) ∧ Stands t.number r l)
      (fun r w h => step_stands ht hpredicate hprogress h.1.1 h.1.2 mayPause h.2)
      (fun other hother r =>
        (hbefore other hother).keeps ((stable_const _).and (stable_stands _ r)))
      ⟨⟨rfl, rfl⟩, hstart⟩
    refine ⟨r, w₁, hrun, ?_⟩
    intro hentries hgoing
    obtain ⟨scan, hdue, ⟨hknown, hcare⟩, hamid⟩ := hstands.scanning hentries hgoing
    have hcare' := hx.keeps (stable_inCare t.number scan.cursor) w₁ ⟨hknown, hcare⟩
    have hclosed : (t.close (x w₁).2).2.ledger.IsClosed scan.cursor := by
      rw [ledger_close]
      exact hcare'.2.isClosed_settled
    rcases hamid with ⟨hnone, -⟩ | ⟨n, modified, earlier, done, hsplit, hdone, hall, hfailure⟩
    · exact absurd hnone hentries
    · obtain ⟨r', w', hrest, hentries', hgoing', hended⟩ :=
        stepAmid_of_isClosed mayPause hafter hcloses hdue hclosed
      refine ⟨n, modified, earlier, done, _, r', w', hsplit, hdone, hall, hrest, hentries', ?_, ?_⟩
      · rwa [List.length_map]
      · rw [List.length_map]
        intro hlength
        obtain ⟨e, hstanding, he⟩ := hended hlength
        rw [hfailure] at he
        exact ⟨e, hstanding, he.cases⟩
  · intro i hi filter stream w'
    have hclosed : w'.ledger.IsClosed i := by
      apply hx.keeps (stable_isClosed i)
      rw [ledger_closeCursor]
      apply isClosed_closed
      rwa [ledger, List.length_map]
    exact ⟨requireOpen_of_isClosed hclosed, fetch_of_isClosed hclosed filter stream⟩
  · intro c α items
    exact ⟨rfl, rfl, rfl⟩

/-- The traverser is closed between a node and the one that is bundled with it. -/
theorem closed_scan_fails_amid_bundle :
    let t : Traverser Unit := { label := "all" }
    let w₀ : Workspace Unit := (WriteCall.makeAll
      [.commit "/a" [] (.ofList [("b", [])]) none] (.start {} 1 ())).2
    let w := (t.create (some w₀.head) [] w₀).2
    0 < w.traversers.length ∧
      ∃ r w₁ r' w', stepAmid false [pure ()] { traverser := t } w = (.ok r, w₁) ∧
        r.entries.length = 1 ∧
        stepAmid false [pure (), pure (), pure ()] r (t.close w₁).2 = (.ok r', w') ∧
        r'.standing ≠ .ended none := by
  intro t w₀ w
  have hn : 0 < w.traversers.length := by decide +kernel
  have hpure {α : Type} (a : α) : Workspace.Operation (υ := Unit) (pure a) := .pure a
  have hothers (k : Nat) : ∀ other ∈ List.replicate k (pure () : Action (Workspace Unit) Unit),
      Workspace.Operation other := by
    intro other hother
    rw [List.eq_of_mem_replicate hother]
    exact hpure ()
  obtain ⟨⟨r, w₁, hrun, hclosed⟩, -⟩ := closed_scan_fails (t := t) rfl (fun _ => hpure true)
    (fun _ => hpure ()) hn false (hothers 1) (hpure ()) (hothers 3)
  have hone : ((stepAmid false [pure ()] { traverser := t } w).1.map fun r =>
      (r.entries.length, r.turnsToEnd)).toOption = some (1, 1) := by decide +kernel
  have hrun : stepAmid false [pure ()] { traverser := t } w = (.ok r, w₁) := hrun
  rw [hrun] at hone
  obtain ⟨hlength, hturns⟩ := Prod.mk.inj (Option.some.inj hone)
  have hentries : r.entries ≠ [] := List.ne_nil_of_length_pos (hlength ▸ Nat.one_pos)
  have hgoing (failure : Option Failure) : r.standing ≠ .ended failure := by
    intro hended
    rw [turnsToEnd, hended] at hturns
    cases hturns
  obtain ⟨n, modified, earlier, done, rest, r', w', -, -, -, hafter, -, hdue, hended⟩ :=
    hclosed hentries hgoing
  refine ⟨hn, r, w₁, r', w', hrun, hlength, hafter, ?_⟩
  by_cases hall : [(), (), ()].length ≤ rest.length
  · exact hdue hall none
  · obtain ⟨e, hstanding, -⟩ := hended (Nat.lt_of_not_le hall)
    rw [hstanding]
    simp

end Turntaker

end VersionedTree
