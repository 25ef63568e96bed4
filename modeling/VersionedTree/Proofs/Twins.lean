import VersionedTree.Proofs.Scans
import VersionedTree.Proofs.Histories
import VersionedTree.Proofs.Visits

/-! # The two deliveries

A survey takes the documents of a scan one after the other: it looks at a document, and tells what
the node unfolds to that is found there. It does not know how that is delivered. An iteration that
delivers node by node and one that delivers document by document both come to what the survey tells.
They differ where a bundle does not unfold: the one has then delivered what unfolded before, the
other nothing of that document. A run to the end of an iteration is said by a relation, in which
each step is taken as `advance` takes it.
-/

namespace VersionedTree

/-- What comes of an iteration. -/
structure Outcome (υ : Type) where
  /-- The entries of the documents that unfold. -/
  entries : List Entry := []
  /-- The document that does not unfold, if the iteration ends with one, and its node. -/
  broken : Option (Document × NodeState) := none
  result : Except Failure Unit
  workspace : Workspace υ

namespace Outcome

variable {υ α : Type}

/-- Nothing comes of what follows on an action that fails. -/
def bind (x : Action (Workspace υ) α) (next : α → Workspace υ → Outcome υ) (w : Workspace υ) :
    Outcome υ :=
  match x w with
  | (.error e, w) => { result := .error e, workspace := w }
  | (.ok a, w) => next a w

/-- The outcome with entries that were delivered before. -/
def after (entries : List Entry) (o : Outcome υ) : Outcome υ :=
  { o with entries := entries ++ o.entries }

/-- The entries of the document that does not unfold, up to the failure. -/
def withheld (o : Outcome υ) : List Entry :=
  match o.broken with
  | some (d, n) => (DocumentStore.unfolded d.modified n).items
  | none => []

/-- What comes of a document at whose path a node was found, and then of the rest, which is not
begun if the document does not unfold. -/
def ofNode (d : Document) (n : NodeState) (rest : Workspace υ → Outcome υ) (w : Workspace υ) :
    Outcome υ :=
  match n.descendants.failure with
  | some e => { broken := some (d, n), result := .error e, workspace := w }
  | none => (rest w).after (DocumentStore.unfolded d.modified n).items

/-- What is delivered by the end. -/
def delivered (o : Outcome υ) : Delivery → List Entry
  | .nodes => o.entries ++ o.withheld
  | .documents => o.entries

theorem delivered_nothing (result : Except Failure Unit) (w : Workspace υ) (delivery : Delivery) :
    ({ result, workspace := w } : Outcome υ).delivered delivery = [] := by
  cases delivery <;> rfl

theorem delivered_after (entries : List Entry) (o : Outcome υ) (delivery : Delivery) :
    (o.after entries).delivered delivery = entries ++ o.delivered delivery := by
  cases delivery with
  | nodes => exact List.append_assoc entries o.entries o.withheld
  | documents => rfl

end Outcome

namespace Traverser

/-- Takes the documents of a stream one after the other, up to its end, to a failure or to a
document that does not unfold. Between two documents the cursor has to be open still. -/
def survey {υ : Type} (t : Traverser υ) (scan : Scan) : List Stored → Nat → Workspace υ → Outcome υ
  | [], produced => .bind (t.complete scan produced) fun _ w => { result := .ok (), workspace := w }
  | item :: rest, produced => .bind (t.look scan item) fun sight =>
    match sight with
    | .skipped => t.survey scan rest produced
    | .dropped => .bind (Workspace.requireOpen scan.cursor) fun _ => t.survey scan rest produced
    | .node n => .ofNode item.document n <| .bind (Workspace.requireOpen scan.cursor) fun _ =>
      t.survey scan rest (produced + 1 + n.descendants.states.length)

/-- What comes of a new iteration at a snapshot. -/
def outcome {υ : Type} (t : Traverser υ) (v : RevisionVector) : Workspace υ → Outcome υ :=
  .bind t.iterate fun ticket =>
    .bind (t.ask ticket) fun _ =>
      .bind (t.openScan v) fun scan =>
        .bind (Workspace.resumeFetch scan.cursor) fun _ =>
          t.survey scan scan.remaining scan.produced

variable {υ α : Type} {t : Traverser υ} {mayPause : Bool} {w w' w'' : Workspace υ}
  {scan : Scan} {entries entries' : List Entry} {result result' : Except Failure Unit}

/-- What is to come after a step, up to the end of the iteration: the entries, how the iteration
ends, and the workspace that it leaves. An iteration that paused goes on at once. -/
inductive Exhausts (t : Traverser υ) (mayPause : Bool) :
    Except Failure Step × Workspace υ → List Entry → Except Failure Unit → Workspace υ → Prop where
  | entry (e : Entry) {it : Iteration} {w w' : Workspace υ} {entries : List Entry}
      {result : Except Failure Unit}
      (next : Exhausts t mayPause (t.advance mayPause it w) entries result w') :
      Exhausts t mayPause (.ok (.entry e it), w) (e :: entries) result w'
  | paused {it : Iteration} {w w' : Workspace υ} {entries : List Entry}
      {result : Except Failure Unit}
      (next : Exhausts t mayPause (t.advance mayPause it w) entries result w') :
      Exhausts t mayPause (.ok (.paused it), w) entries result w'
  | finished (w : Workspace υ) : Exhausts t mayPause (.ok .finished, w) [] (.ok ()) w
  | failed (e : Failure) (w : Workspace υ) : Exhausts t mayPause (.error e, w) [] (.error e) w

/-- An iteration has one run. -/
theorem Exhausts.unique {step : Except Failure Step × Workspace υ}
    (h : t.Exhausts mayPause step entries result w')
    (h' : t.Exhausts mayPause step entries' result' w'') :
    entries' = entries ∧ result' = result ∧ w'' = w' := by
  induction h generalizing entries' with
  | entry e _ ih =>
    cases h' with
    | entry _ next =>
      obtain ⟨rfl, rfl, rfl⟩ := ih next
      exact ⟨rfl, rfl, rfl⟩
  | paused _ ih =>
    cases h' with
    | paused next => exact ih next
  | finished w =>
    cases h'
    exact ⟨rfl, rfl, rfl⟩
  | failed e w =>
    cases h'
    exact ⟨rfl, rfl, rfl⟩

/-- Begins an iteration, up to its first step. -/
def beginning (t : Traverser υ) (mayPause : Bool) : Action (Workspace υ) Step := do
  t.advance mayPause (.entering (← t.iterate))

/-- From a step on, the iteration comes to the outcome. -/
def Reaches (t : Traverser υ) (mayPause : Bool) (step : Except Failure Step × Workspace υ)
    (o : Outcome υ) : Prop :=
  t.Exhausts mayPause step (o.delivered t.delivery) o.result o.workspace

theorem reaches_bind {x : Action (Workspace υ) α} {f : α → Action (Workspace υ) Step}
    {next : α → Workspace υ → Outcome υ}
    (h : ∀ a w', x w = (.ok a, w') → t.Reaches mayPause (f a w') (next a w')) :
    t.Reaches mayPause ((x >>= f) w) (.bind x next w) := by
  rw [Action.bind_apply, Outcome.bind]
  rcases hx : x w with ⟨e | a, w'⟩
  · rw [Reaches, Outcome.delivered_nothing]
    exact .failed e w'
  · exact h a w' hx

theorem exhausts_pending {states : List NodeState} (scan : Scan)
    (h : t.Exhausts mayPause (t.advanceScan mayPause
      { scan with pending := {}, produced := scan.produced + states.length } w) entries result w') :
    t.Exhausts mayPause (t.advanceScan mayPause { scan with pending := ⟨states, none⟩ } w)
      (states.map (Entry.ofState scan.modified) ++ entries) result w' := by
  induction states generalizing scan with
  | nil => exact h
  | cons n states ih =>
    refine .entry _
      (ih { scan with pending := ⟨n :: states, none⟩, produced := scan.produced + 1 } ?_)
    rw [List.length_cons, Nat.add_comm states.length, ← Nat.add_assoc] at h
    exact h

theorem exhausts_pending_failed (mayPause : Bool) (states : List NodeState) (e : Failure)
    (scan : Scan) (w : Workspace υ) :
    t.Exhausts mayPause (t.advanceScan mayPause { scan with pending := ⟨states, some e⟩ } w)
      (states.map (Entry.ofState scan.modified)) (.error e) w := by
  induction states generalizing scan with
  | nil => exact .failed e w
  | cons n states ih =>
    exact .entry _
      (ih { scan with pending := ⟨n :: states, some e⟩, produced := scan.produced + 1 })

theorem resumeFetch_of_requireOpen {n : Nat} (h : Workspace.requireOpen n w = (.ok (), w')) :
    w' = w ∧ Workspace.resumeFetch n w = (.ok (), w) := by
  obtain ⟨w₁, w₂, hget, h⟩ := Action.of_bind_eq_ok h
  cases hget
  obtain ⟨hopen, rfl⟩ := Action.of_ofExcept_eq_ok h
  have hclosed : ¬ (w'.cursor n).closed = true := by
    intro hclosed
    rw [Cursor.requireOpen, if_pos hclosed] at hopen
    cases hopen
  refine ⟨rfl, ?_⟩
  simp only [Workspace.resumeFetch, Action.bind_apply, Action.get_apply,
    Cursor.requireUninterrupted, if_neg hclosed]
  rfl

/-- Between two documents it makes no difference whether the iteration pauses. -/
theorem exhausts_between {items : List Stored} (scan : Scan) (hpending : scan.pending = {})
    (hopen : Workspace.requireOpen scan.cursor w = (.ok (), w))
    (h : ∀ remaining rested, t.Exhausts mayPause
      (t.seek mayPause { scan with remaining, rested } items w) entries result w') :
    t.Exhausts mayPause
      ((if mayPause then pure (.paused (.scanning { scan with remaining := items, rested := true }))
        else t.seek mayPause scan items : Action (Workspace υ) Step) w) entries result w' := by
  cases mayPause with
  | false => exact h scan.remaining scan.rested
  | true =>
    -- The pause is over at once, so the cursor is found as it was left.
    have hresume := (resumeFetch_of_requireOpen hopen).2
    have hseek := h items true
    have hadvance : t.advance true (.scanning { scan with remaining := items, rested := true }) w =
        t.seek true { scan with remaining := items, rested := true } items w := by
      simp only [advance, advanceScan, hpending, if_true, Action.bind_apply, hresume]
    rw [← hadvance] at hseek
    exact .paused hseek

theorem reaches_between {items : List Stored} (scan : Scan) (hpending : scan.pending = {})
    {next : Workspace υ → Outcome υ}
    (h : ∀ w remaining rested, t.Reaches mayPause
      (t.seek mayPause { scan with remaining, rested } items w) (next w)) (w : Workspace υ) :
    t.Reaches mayPause
      ((do
        Workspace.requireOpen scan.cursor
        if mayPause then pure (.paused (.scanning { scan with remaining := items, rested := true }))
        else t.seek mayPause scan items : Action (Workspace υ) Step) w)
      (.bind (Workspace.requireOpen scan.cursor) (fun _ => next) w) := by
  refine reaches_bind fun _ w' hopen => ?_
  obtain ⟨rfl, -⟩ := resumeFetch_of_requireOpen hopen
  exact exhausts_between scan hpending hopen (h w')

theorem unfold_nodes (ht : t.delivery = .nodes) (n : NodeState) :
    t.unfold n = .ok n.descendants := by
  rw [unfold, ht]

theorem unfold_of_complete {n : NodeState} (h : n.descendants.failure = none) :
    t.unfold n = .ok n.descendants := by
  rw [unfold, h]
  cases t.delivery with
  | nodes => rfl
  | documents => rfl

/-- A visit that finds a node is followed by the entries of the document, and by the rest if it
unfolds. -/
theorem reaches_node (n : NodeState) (scan : Scan) {d : Document} (hd : scan.modified = d.modified)
    {f : Visit → Action (Workspace υ) Step}
    (hf : ∀ more, f (.found n more) =
      pure (.entry (.ofState scan.modified n) (.scanning { scan with pending := more })))
    {next : Workspace υ → Outcome υ}
    (hnext : ∀ w, t.Reaches mayPause (t.advanceScan mayPause
      { scan with pending := {}, produced := scan.produced + n.descendants.states.length } w)
        (next w)) (w : Workspace υ) :
    t.Reaches mayPause ((Action.ofExcept (t.unfoldSight (.node n)) >>= f) w)
      (.ofNode d n next w) := by
  have hfound (hunfold : t.unfold n = .ok n.descendants) :
      (Action.ofExcept (t.unfoldSight (.node n)) >>= f) w =
        (.ok (.entry (.ofState scan.modified n) (.scanning { scan with pending := n.descendants })),
          w) := by
    rw [unfoldSight, hunfold]
    exact congrFun (hf n.descendants) w
  rw [Outcome.ofNode]
  cases hfailure : n.descendants.failure with
  | none =>
    have hbelow : n.descendants = ⟨n.descendants.states, none⟩ := by rw [← hfailure]
    rw [hfound (unfold_of_complete hfailure), Reaches, Outcome.delivered_after, hbelow, ← hd]
    exact .entry _ (exhausts_pending scan (hnext w))
  | some e =>
    have hbelow : n.descendants = ⟨n.descendants.states, some e⟩ := by rw [← hfailure]
    cases hdelivery : t.delivery with
    | nodes =>
      rw [hfound (unfold_nodes hdelivery n), Reaches, hdelivery, hbelow]
      simp only [Outcome.delivered, Outcome.withheld, ← hd]
      exact .entry _ (exhausts_pending_failed mayPause n.descendants.states e scan w)
    | documents =>
      -- The visit itself fails, before the first entry of the document.
      rw [unfoldSight, unfold_documents hdelivery, hfailure, Reaches, hdelivery]
      exact .failed e w

/-- The visits that follow come to what the survey tells. -/
theorem reaches_seek (t : Traverser υ) (mayPause : Bool) (scan : Scan) (items : List Stored)
    (produced : Nat) (remaining : List Stored) (modified : Option Modified) (rested : Bool)
    (w : Workspace υ) :
    t.Reaches mayPause
      (t.seek mayPause { scan with remaining, pending := {}, modified, produced, rested } items w)
      (t.survey scan items produced w) := by
  -- Each visit leaves other marks on the scan; a survey reads none of them.
  induction items generalizing produced remaining modified rested w with
  | nil =>
    refine reaches_bind fun _ w' _ => ?_
    rw [Reaches, Outcome.delivered_nothing]
    exact .finished w'
  | cons item rest ih =>
    have hlook : t.look { scan with remaining, pending := {}, modified, produced, rested } item =
        t.look scan item := rfl
    rw [seek, visit_eq, hlook, bind_assoc, survey]
    refine reaches_bind fun sight w₁ _ => ?_
    cases sight with
    | skipped => exact ih produced remaining modified rested w₁
    | dropped =>
      exact reaches_between { scan with remaining, pending := {}, modified, produced, rested } rfl
        (fun w remaining rested => ih produced remaining modified rested w) w₁
    | node n =>
      let delivering : Scan :=
        { scan with
          remaining := rest, modified := item.document.modified, produced := produced + 1
          rested := false }
      refine reaches_node n delivering rfl (fun _ => rfl) (fun w => ?_) w₁
      rw [advanceScan_between rfl rfl]
      exact reaches_between _ rfl (fun w remaining rested =>
        ih (produced + 1 + n.descendants.states.length) remaining item.document.modified rested w) w

theorem reaches_beginning (t : Traverser υ) (mayPause : Bool) {v : RevisionVector}
    (hpin : (t.state w).pin = .of v) :
    t.Reaches mayPause (t.beginning mayPause w) (t.outcome v w) := by
  refine reaches_bind fun ticket w₁ hiterate => ?_
  obtain ⟨w₁', hiterate', h₁⟩ := ends_iterate (fun _ u => u) t w
  obtain ⟨hticket, rfl⟩ := Prod.mk.inj (hiterate'.symm.trans hiterate)
  refine reaches_bind fun turn w₂ hask => ?_
  obtain ⟨w₂', hask', -⟩ := ends_ask (fun _ u => u) ((pin_state h₁ t).trans hpin) ticket
  obtain ⟨hturn, -⟩ := Prod.mk.inj (hask'.symm.trans hask)
  obtain rfl := Except.ok.inj hturn
  refine reaches_bind fun scan w₃ hscan => ?_
  obtain ⟨hpending, hrested, -⟩ := fresh_of_openScan hscan
  rw [advanceScan, hpending, hrested]
  refine reaches_bind fun _ w₄ _ => ?_
  have hseek := reaches_seek t mayPause scan scan.remaining scan.produced scan.remaining
    scan.modified scan.rested w₄
  rw [← hpending] at hseek
  exact hseek

theorem survey_delivery (t : Traverser υ) (delivery : Delivery) (scan : Scan)
    (items : List Stored) (produced : Nat) :
    { t with delivery }.survey scan items produced = t.survey scan items produced := by
  induction items generalizing produced with
  | nil => rfl
  | cons item rest ih =>
    have hlook : { t with delivery }.look scan item = t.look scan item := rfl
    simp only [survey, hlook, ih]

theorem outcome_delivery (t : Traverser υ) (delivery : Delivery) (v : RevisionVector)
    (w : Workspace υ) : { t with delivery }.outcome v w = t.outcome v w := by
  simp only [outcome, survey_delivery]
  rfl

end Traverser

/-! ## Where a document does not unfold -/

namespace Outcome

variable {υ α : Type} {o : Outcome υ} {read : String → Action (Workspace υ) (Option NodeState)}
  {items items' : List Stored}

/-- If the iteration ends with a document that does not unfold, that is one of these; its node was
the last that was read, and the iteration fails as the node does. -/
def Accounts (read : String → Action (Workspace υ) (Option NodeState)) (items : List Stored)
    (o : Outcome υ) : Prop :=
  ∀ d n, o.broken = some (d, n) → (∃ item ∈ items, item.document = d) ∧
    (∃ w, read d.path w = (.ok (some n), o.workspace)) ∧
    ∃ e, n.descendants.failure = some e ∧ o.result = .error e

theorem Accounts.mono (h : o.Accounts read items) (hitems : items ⊆ items') :
    o.Accounts read items' := by
  intro d n hbroken
  obtain ⟨⟨item, hitem, hd⟩, hread⟩ := h d n hbroken
  exact ⟨⟨item, hitems hitem, hd⟩, hread⟩

theorem accounts_bind {x : Action (Workspace υ) α} {next : α → Workspace υ → Outcome υ}
    {w : Workspace υ} (h : ∀ a w', x w = (.ok a, w') → (next a w').Accounts read items) :
    (bind x next w).Accounts read items := by
  rw [bind]
  rcases hx : x w with ⟨e | a, w'⟩
  · intro d n hbroken
    cases hbroken
  · exact h a w' hx

theorem accounts_ofNode {item : Stored} (hitem : item ∈ items) {n : NodeState}
    {rest : Workspace υ → Outcome υ} {w w' : Workspace υ}
    (hread : read item.document.path w = (.ok (some n), w'))
    (hrest : (rest w').Accounts read items) :
    (ofNode item.document n rest w').Accounts read items := by
  rw [ofNode]
  cases hfailure : n.descendants.failure with
  | some e =>
    rintro d m ⟨⟩
    exact ⟨⟨item, hitem, rfl⟩, ⟨w, hread⟩, e, hfailure, rfl⟩
  | none => exact hrest

end Outcome

namespace Traverser

variable {υ : Type} {t : Traverser υ} {scan : Scan} {w w' : Workspace υ} {v : RevisionVector}

theorem accounts_survey (t : Traverser υ) (scan : Scan) (items : List Stored) (produced : Nat)
    (w : Workspace υ) : (t.survey scan items produced w).Accounts
      (fun path => t.backend.node path scan.snapshot) items := by
  induction items generalizing produced w with
  | nil =>
    refine Outcome.accounts_bind fun _ w' _ d n hbroken => ?_
    cases hbroken
  | cons item rest ih =>
    have hrest (produced : Nat) (w : Workspace υ) : (t.survey scan rest produced w).Accounts
        (fun path => t.backend.node path scan.snapshot) (item :: rest) :=
      (ih produced w).mono (List.subset_cons_self item rest)
    refine Outcome.accounts_bind fun sight w₁ hlook => ?_
    cases sight with
    | skipped => exact hrest produced w₁
    | dropped => exact Outcome.accounts_bind fun _ w₂ _ => hrest produced w₂
    | node n =>
      obtain ⟨_, w₂, -, hnode⟩ := node_of_look hlook
      exact Outcome.accounts_ofNode List.mem_cons_self hnode
        (Outcome.accounts_bind fun _ w₃ _ => hrest _ w₃)

theorem accounts_outcome (hbackend : t.backend = .memory) (v : RevisionVector) (w : Workspace υ) :
    (t.outcome v w).Accounts (fun path => Workspace.node path v) (w.store.select t.range) := by
  refine Outcome.accounts_bind fun ticket w₁ hiterate => ?_
  refine Outcome.accounts_bind fun turn w₂ hask => ?_
  refine Outcome.accounts_bind fun scan w₃ hscan => ?_
  refine Outcome.accounts_bind fun _ w₄ _ => ?_
  obtain ⟨hsnapshot, hremaining⟩ := remaining_of_openScan hbackend hscan
  have hstore : w₂.store = w.store := by
    cases hiterate
    cases hask
    rfl
  have hsurvey := accounts_survey t scan scan.remaining scan.produced w₄
  rw [hremaining, hstore, hsnapshot, hbackend] at hsurvey
  rw [hremaining, hstore]
  exact hsurvey

/-- A call of one of the caller's functions. -/
inductive Call where
  | progress (id : String)
  | predicate (path : String)
  deriving DecidableEq

/-- A function of the caller's that remembers being called, and answers or fails. -/
def remembered {α : Type} (call : String → Call) (f : String → Except Failure α) (x : String) :
    Action (Workspace (List Call)) α := do
  Action.modify fun w => { w with caller := w.caller ++ [call x] }
  Action.ofExcept (f x)

/-- Made of the same snapshot, range and hidden roots, and with the same functions, a traverser of
either delivery comes to the same outcome, with the same calls of the functions and the same
workspace, its store and tallies included. Both deliver the entries of the documents that unfold.
If the iteration comes upon a document that does not, it fails there, and the one traverser has
then delivered the entries of that document as far as they come; the other withholds just these. -/
theorem deliveries_agree (label : String) (range : TimeRange)
    (accepts : String → Except Failure Bool) (progress : String → Except Failure Unit)
    (v : RevisionVector) (roots : List String) (mayPause : Bool) (w : Workspace (List Call)) :
    let t : Traverser (List Call) :=
      { label, range, predicate := remembered .predicate accepts
        progress := remembered .progress progress }
    ∃ nodes documents w₁ o,
      t.create (some v) roots w = (.ok nodes, w₁) ∧
      { t with delivery := .documents }.create (some v) roots w = (.ok documents, w₁) ∧
      nodes.outcome v w₁ = o ∧
      nodes.Exhausts false (nodes.beginning false w₁) (o.entries ++ o.withheld) o.result
        o.workspace ∧
      documents.Exhausts mayPause (documents.beginning mayPause w₁) o.entries o.result
        o.workspace ∧
      (o.result = .ok () → o.withheld = []) ∧ (o.broken = none → o.withheld = []) ∧
      ∀ d n, o.broken = some (d, n) →
        o.withheld = (n :: n.descendants.states).map (Entry.ofState d.modified) ∧
        (∃ item ∈ w.store.select range, item.document = d) ∧
        (∃ w₂, Workspace.node d.path v w₂ = (.ok (some n), o.workspace)) ∧
        ∃ e, n.descendants.failure = some e ∧ o.result = .error e := by
  intro t
  let nodes : Traverser (List Call) := { t with number := w.traversers.length }
  let documents : Traverser (List Call) := { nodes with delivery := .documents }
  let fresh : TraverserState := { pin := .of v, hiddenRoots := roots }
  let w₁ : Workspace (List Call) := { w with traversers := w.traversers ++ [fresh] }
  have hpin : (nodes.state w₁).pin = .of v := by
    simp [nodes, w₁, fresh, state, Workspace.traverser]
  have hnodes := reaches_beginning nodes false hpin
  have hdocuments := reaches_beginning documents mayPause hpin
  rw [outcome_delivery] at hdocuments
  have haccounts := accounts_outcome (t := nodes) rfl v w₁
  have hnone (h : (nodes.outcome v w₁).broken = none) : (nodes.outcome v w₁).withheld = [] := by
    rw [Outcome.withheld, h]
  refine ⟨nodes, documents, w₁, nodes.outcome v w₁, rfl, rfl, rfl, hnodes, hdocuments,
    fun hresult => ?_, hnone, fun d n hbroken => ⟨?_, haccounts d n hbroken⟩⟩
  · refine hnone (Option.eq_none_iff_forall_ne_some.2 fun p hbroken => ?_)
    obtain ⟨-, -, e, -, hfailed⟩ := haccounts p.1 p.2 hbroken
    rw [hresult] at hfailed
    cases hfailed
  · rw [Outcome.withheld, hbroken]
    rfl

theorem deliveries_agree_on_orphan :
    let calls : List WriteCall :=
      [.commit "/a" [] (.ofList [("k", [])]) none,
        .commit "/b" [] (.ofList [("u", []), ("v", []), ("v/x/y", [])]) none,
        .commit "/c" [] .empty none]
    let r : Repository := (WriteCall.performAll calls
      ⟨{ cache := some { limit := some 2 } }, { cluster := 1 }⟩).2
    let w : Workspace (List Call) := { repository := r, caller := [] }
    let t : Traverser (List Call) :=
      { label := "all", predicate := remembered .predicate fun path => .ok (path != "/z")
        progress := remembered .progress fun _ => .ok () }
    ∃ nodes documents w₁, ∃ o : Outcome (List Call),
      t.create (some r.head) [] w = (.ok nodes, w₁) ∧
      { t with delivery := .documents }.create (some r.head) [] w = (.ok documents, w₁) ∧
      nodes.Exhausts false (nodes.beginning false w₁) (o.entries ++ o.withheld) o.result
        o.workspace ∧
      documents.Exhausts true (documents.beginning true w₁) o.entries o.result o.workspace ∧
      o.entries.map Entry.path = ["/a", "/a/k"] ∧
      o.withheld.map Entry.path = ["/b", "/b/u", "/b/v"] ∧
      o.broken.map (fun p => p.1.path) = some "/b" ∧
      o.result.mapError Failure.message =
        .error "Bundled node 'x/y' of /b/v has no bundled parent" ∧
      o.workspace.caller = [.progress "1:/a", .predicate "/a", .predicate "/a", .progress "1:/b",
        .predicate "/b", .predicate "/b"] := by
  intro calls r w t
  obtain ⟨nodes, documents, w₁, o, hnodes, hdocuments, rfl, hrun, hrun', -⟩ :=
    deliveries_agree "all" .all (fun path => .ok (path != "/z")) (fun _ => .ok ()) r.head [] true w
  refine ⟨nodes, documents, w₁, _, hnodes, hdocuments, hrun, hrun', ?_⟩
  cases hnodes
  decide +kernel

end Traverser

end VersionedTree
