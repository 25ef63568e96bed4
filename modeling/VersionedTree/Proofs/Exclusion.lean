import VersionedTree.Proofs.Bundles
import VersionedTree.Proofs.Gathering
import VersionedTree.Proofs.Isolation
import VersionedTree.Proofs.Visits

/-! # What a filter keeps out

The filter decides on documents. A document whose own path is hidden or rejected delivers nothing,
and the node of one that passes is therefore never an excluded one. The nodes bundled with it are
not asked about: they are delivered with it, whatever their paths are. All this holds of each step
of an iteration, so it does not matter what becomes of the store between two steps.
-/

namespace VersionedTree

namespace Path

/-- The path continues another one by some names. -/
def Extends (top path : String) : Prop :=
  ∃ ns, ns ≠ [] ∧ (∀ n ∈ ns, IsName n) ∧ path = ns.foldl join top

theorem Extends.trans {a b c : String} (h : Extends a b) (h' : Extends b c) : Extends a c := by
  obtain ⟨ns, hne, hns, rfl⟩ := h
  obtain ⟨ns', _, hns', rfl⟩ := h'
  refine ⟨ns ++ ns', fun hnil => hne (List.append_eq_nil_iff.1 hnil).1, fun n hn => ?_, ?_⟩
  · rcases List.mem_append.1 hn with hn | hn
    · exact hns n hn
    · exact hns' n hn
  · rw [List.foldl_append]

end Path

namespace NodeState

theorem extends_of_mem_descendants {s c : NodeState} (h : c ∈ s.descendants.states) :
    Path.Extends s.path c.path := by
  refine of_mem_descendants (R := fun s c => Path.Extends s.path c.path)
    (fun s key name properties hname => ?_) (fun a b c hab hbc => ?_) h
  · have hn : name ∈ Path.names key := by
      rw [hname]
      exact List.mem_singleton_self name
    exact ⟨[name], List.cons_ne_nil _ _,
      List.forall_mem_singleton.2 (Path.isName_of_mem_names hn), rfl⟩
  · exact hab.trans hbc

end NodeState

namespace Traverser

variable {υ : Type} {t : Traverser υ} {accepts : String → Bool} {roots : List String}
  {scan : Scan} {w w' : Workspace υ} {mayPause : Bool}

/-- The state is that of the node of a document that was let pass, or one bundled with it. -/
def Admitted (accepts : String → Bool) (roots : List String) (s : NodeState) : Prop :=
  ∃ top : NodeState, allows accepts roots top.path = true ∧
    (s = top ∨ s ∈ top.descendants.states)

/-- The scan hides these subtrees, and what it has put aside was let pass. -/
structure Keeps (accepts : String → Bool) (roots : List String) (scan : Scan) : Prop where
  hiddenRoots : scan.hiddenRoots = roots
  pending : ∀ s ∈ scan.pending.states, Admitted accepts roots s

/-- What the step delivers was let pass, and so was what it puts aside. -/
inductive Passes (accepts : String → Bool) (roots : List String) : Step → Prop where
  | entry (e : Entry) (scan : Scan) (hpath : e.path = e.state.path)
      (hadmitted : Admitted accepts roots e.state) (hscan : Keeps accepts roots scan) :
      Passes accepts roots (.entry e (.scanning scan))
  | paused (scan : Scan) (hscan : Keeps accepts roots scan) :
      Passes accepts roots (.paused (.scanning scan))
  | reading : Passes accepts roots (.paused .reading)
  | waiting (ticket : Nat) : Passes accepts roots (.waiting ticket)
  | finished : Passes accepts roots .finished

theorem allows_of_includeDocument (hpredicate : t.predicate = fun path => pure (accepts path))
    {d : Document} (h : (t.filter scan).includeDocument d w = (.ok true, w')) :
    allows accepts scan.hiddenRoots d.path = true := by
  have hpasses (included : Bool)
      (h : (if included = true then pure true
        else do
          Action.modify ((t.filter scan).count fun t =>
            { t with documentsRejected := t.documentsRejected + 1 })
          pure false : Action (Workspace υ) Bool) w = (.ok true, w')) : included = true := by
    cases included with
    | true => rfl
    | false => cases h
  have hfilter : (t.filter scan).hiddenRoots = scan.hiddenRoots ∧
      (t.filter scan).predicate d.path = pure (accepts d.path) := by
    simp only [filter, hpredicate, and_self]
  rw [PathFilter.includeDocument, hfilter.1, hfilter.2] at h
  rw [allows]
  cases hsplit : d.isSplit with
  | true =>
    rw [hsplit] at h
    cases hpasses false h
  | false =>
    rw [hsplit] at h
    cases hhidden : Path.isHidden d.path scan.hiddenRoots with
    | true =>
      rw [hhidden] at h
      cases hpasses false h
    | false =>
      rw [hhidden] at h
      exact hpasses (accepts d.path) h

theorem admitted_of_visit (hpredicate : t.predicate = fun path => pure (accepts path))
    (hbackend : t.backend = .memory) {item : Stored} {first : NodeState} {more : Expansion}
    (h : t.visit scan item w = (.ok (.found first more), w')) :
    ∀ s ∈ first :: more.states, Admitted accepts scan.hiddenRoots s := by
  obtain ⟨hmore, w₁, w₂, w₃, hincluded, hnode⟩ := found_of_visit h
  rw [hbackend] at hnode
  have hpath : first.path = item.document.path := Workspace.path_of_node hnode
  have hallows : allows accepts scan.hiddenRoots first.path = true := by
    rw [hpath]
    exact allows_of_includeDocument hpredicate hincluded
  intro s hs
  refine ⟨first, hallows, ?_⟩
  rcases List.mem_cons.1 hs with rfl | hs
  · exact .inl rfl
  · rw [hmore] at hs
    exact .inr hs

theorem passes_seek (hpredicate : t.predicate = fun path => pure (accepts path))
    (hbackend : t.backend = .memory) (hscan : Keeps accepts roots scan)
    {items : List Stored} {step : Step} (h : t.seek mayPause scan items w = (.ok step, w')) :
    Passes accepts roots step := by
  induction items generalizing w with
  | nil =>
    obtain ⟨_, _, -, h⟩ := Action.of_bind_eq_ok h
    cases h
    exact .finished
  | cons item rest ih =>
    obtain ⟨visited, w₁, hvisit, h⟩ := Action.of_bind_eq_ok h
    cases visited with
    | skipped => exact ih h
    | dropped =>
      obtain ⟨_, w₂, -, h⟩ := Action.of_bind_eq_ok h
      cases mayPause with
      | false => exact ih h
      | true =>
        cases h
        exact .paused _ ⟨hscan.hiddenRoots, hscan.pending⟩
    | found first more =>
      have hadmitted := admitted_of_visit hpredicate hbackend hvisit
      rw [hscan.hiddenRoots] at hadmitted
      cases h
      exact .entry _ _ rfl (hadmitted first List.mem_cons_self)
        ⟨hscan.hiddenRoots, fun s hs => hadmitted s (List.mem_cons_of_mem first hs)⟩

theorem passes_advanceScan (hpredicate : t.predicate = fun path => pure (accepts path))
    (hbackend : t.backend = .memory) (hscan : Keeps accepts roots scan) {step : Step}
    (h : t.advanceScan mayPause scan w = (.ok step, w')) : Passes accepts roots step := by
  obtain ⟨hroots, hstates⟩ := hscan
  have hseek {w : Workspace υ} (h : t.seek mayPause scan scan.remaining w = (.ok step, w')) :
      Passes accepts roots step := passes_seek hpredicate hbackend ⟨hroots, hstates⟩ h
  obtain ⟨⟨states, failure⟩, hpending⟩ : ∃ pending, scan.pending = pending := ⟨_, rfl⟩
  rw [hpending] at hstates
  rw [advanceScan, hpending] at h
  cases states with
  | cons s rest =>
    cases h
    exact .entry _ _ rfl (hstates s List.mem_cons_self)
      ⟨hroots, fun x hx => hstates x (List.mem_cons_of_mem s hx)⟩
  | nil =>
    cases failure with
    | some e => cases h
    | none =>
      dsimp only at h
      split at h
      · obtain ⟨_, w₁, -, h⟩ := Action.of_bind_eq_ok h
        exact hseek h
      · obtain ⟨_, w₁, -, h⟩ := Action.of_bind_eq_ok h
        cases mayPause with
        | false => exact hseek h
        | true =>
          cases h
          exact .paused _ ⟨hroots, fun s hs => by cases hs⟩

theorem keeps_of_openScan (hroots : (t.state w).hiddenRoots = roots) {v : RevisionVector}
    (h : t.openScan v w = (.ok scan, w')) : Keeps accepts roots scan := by
  obtain ⟨hpending, -, hhidden⟩ := fresh_of_openScan h
  refine ⟨hhidden.trans hroots, fun s hs => ?_⟩
  rw [hpending] at hs
  cases hs

theorem keeps_of_readHead (hbackend : t.backend = .memory)
    (hroots : (t.state w).hiddenRoots = roots) (h : t.readHead w = (.ok scan, w')) :
    Keeps accepts roots scan := by
  rw [readHead, hbackend] at h
  obtain ⟨head, w₁, hhead, h⟩ := Action.of_bind_eq_ok h
  cases hhead
  obtain ⟨_, w₂, hanswer, h⟩ := Action.of_bind_eq_ok h
  cases hanswer
  obtain ⟨v, w₃, hv, h⟩ := Action.of_bind_eq_ok h
  obtain ⟨-, rfl⟩ := Action.of_ofExcept_eq_ok hv
  refine keeps_of_openScan ?_ h
  rw [← hroots]
  apply hiddenRoots_modifyState
  exact fun _ => rfl

/-- A step lets nothing pass that the filter keeps out, whatever workspace it is taken in. -/
theorem passes_advance (hpredicate : t.predicate = fun path => pure (accepts path))
    (hbackend : t.backend = .memory) {it : Iteration}
    (hit : (∃ scan, it = .scanning scan ∧ Keeps accepts roots scan) ∨
      (t.state w).hiddenRoots = roots ∧ ∀ scan, it ≠ .scanning scan)
    {step : Step} (h : t.advance mayPause it w = (.ok step, w')) : Passes accepts roots step := by
  rcases hit with ⟨scan, rfl, hscan⟩ | ⟨hroots, hne⟩
  · exact passes_advanceScan hpredicate hbackend hscan h
  cases it with
  | finished =>
    cases h
    exact .finished
  | scanning scan => exact absurd rfl (hne scan)
  | reading =>
    obtain ⟨scan, w₁, hscan, h⟩ := Action.of_bind_eq_ok h
    exact passes_advanceScan hpredicate hbackend (keeps_of_readHead hbackend hroots hscan) h
  | entering ticket =>
    obtain ⟨turn, w₁, hask, h⟩ := Action.of_bind_eq_ok h
    have hroots₁ : (t.state w₁).hiddenRoots = roots := by
      cases hask
      rw [← hroots]
      apply hiddenRoots_modifyState
      exact fun _ => rfl
    cases turn with
    | wait =>
      cases h
      exact .waiting ticket
    | pinned v =>
      obtain ⟨scan, w₂, hscan, h⟩ := Action.of_bind_eq_ok h
      exact passes_advanceScan hpredicate hbackend (keeps_of_openScan hroots₁ hscan) h
    | read =>
      dsimp only at h
      split at h
      · cases h
        exact .reading
      · obtain ⟨scan, w₂, hscan, h⟩ := Action.of_bind_eq_ok h
        exact passes_advanceScan hpredicate hbackend (keeps_of_readHead hbackend hroots₁ hscan) h

theorem admitted_answers (hpredicate : t.predicate = fun path => pure (accepts path))
    (hbackend : t.backend = .memory) (it : Iteration)
    (hit : (∃ scan, it = .scanning scan ∧ Keeps accepts roots scan) ∨
      (t.state w).hiddenRoots = roots ∧ ∀ scan, it ≠ .scanning scan)
    (batches : List (List WriteCall)) :
    ∃ answers w', t.answers batches it w = (.ok answers, w') ∧ ∀ e, .ok (some e) ∈ answers →
      e.path = e.state.path ∧ Admitted accepts roots e.state := by
  induction batches generalizing it w with
  | nil => exact ⟨[], w, rfl, fun e he => by cases he⟩
  | cons calls batches ih =>
    obtain ⟨log, hmake⟩ := WriteCall.makeAll_eq calls w
    -- What is written leaves the traversers and what the scan has put aside.
    let w₁ : Workspace υ :=
      { w with repository := (WriteCall.performAll calls w.repository).2, log }
    have hmake : WriteCall.makeAll calls w = (.ok (), w₁) := hmake
    have hit₁ : (∃ scan, it = .scanning scan ∧ Keeps accepts roots scan) ∨
        (t.state w₁).hiddenRoots = roots ∧ ∀ scan, it ≠ .scanning scan := hit
    simp only [answers, Action.bind_apply, hmake, Action.attempt, next_eq]
    rcases hadvance : t.advance false it w₁ with ⟨e | step, w₂⟩
    · exact ⟨[.error e], w₂, rfl, fun e he => by simp at he⟩
    · cases passes_advance hpredicate hbackend hit₁ hadvance with
      | entry e scan hpath hadmitted hscan =>
        obtain ⟨answers, w₃, hanswers, hall⟩ := ih (w := w₂) (.scanning scan)
          (.inl ⟨scan, rfl, hscan⟩)
        refine ⟨.ok (some e) :: answers, w₃, ?_, fun x hx => ?_⟩
        · simp only [Except.map, Step.entry?, Action.bind_apply, hanswers, Action.pure_apply]
        · rcases List.mem_cons.1 hx with hx | hx
          · cases hx
            exact ⟨hpath, hadmitted⟩
          · exact hall x hx
      | paused | reading | waiting | finished =>
        exact ⟨[.ok none], w₂, rfl, fun e he => by simp at he⟩

/-- Whatever is delivered, its path is neither hidden nor rejected, or it is bundled with a node of
whose path that is true. -/
theorem session_allowed_or_bundled (label : String) (range : TimeRange) (delivery : Delivery)
    (accepts : String → Bool) (progress : String → Action (Workspace υ) Unit)
    (snapshot : Option RevisionVector) (roots : List String) (batches : List (List WriteCall))
    (w : Workspace υ) :
    let made : Traverser υ :=
      { label, range, delivery, predicate := fun path => pure (accepts path), progress }
    ∃ t w₁ answers w₂, made.create snapshot roots w = (.ok t, w₁) ∧
      t.session batches w₁ = (.ok answers, w₂) ∧
      ∀ e, .ok (some e) ∈ answers → allows accepts roots e.path = true ∨
        ∃ top : NodeState, allows accepts roots top.path = true ∧
          e.state ∈ top.descendants.states ∧ Path.Extends top.path e.path := by
  intro made
  let v := snapshot.getD w.head
  let t : Traverser υ := { made with number := w.traversers.length }
  let x : TraverserState := { pin := .of v, hiddenRoots := roots }
  let w₁ : Workspace υ := { w with traversers := w.traversers ++ [x] }
  have hcreate : made.create snapshot roots w = (.ok t, w₁) :=
    (create_snapshot rfl snapshot roots w).trans (create_eq made v roots w)
  have hstate : t.state w₁ = x := state_create made x w
  obtain ⟨w₂, hiterate, h₂⟩ := ends_iterate (fun _ u => u) t w₁
  have hroots : (t.state w₂).hiddenRoots = roots := by
    rw [hiddenRoots_state h₂, hstate]
  obtain ⟨answers, w₃, hanswers, hall⟩ := admitted_answers (t := t) (w := w₂) rfl rfl
    (.entering (t.state w₁).iterations) (.inr ⟨hroots, fun _ h => by cases h⟩) batches
  refine ⟨t, w₁, answers, w₃, hcreate, ?_, fun e he => ?_⟩
  · rw [session, Action.bind_apply, hiterate]
    exact hanswers
  · obtain ⟨hpath, top, htop, hstate⟩ := hall e he
    rcases hstate with heq | hbundled
    · left
      rw [hpath, heq]
      exact htop
    · right
      refine ⟨top, htop, hbundled, ?_⟩
      rw [hpath]
      exact NodeState.extends_of_mem_descendants hbundled

/-- A hidden root below a document does not keep out the nodes that are bundled in it, nor do names
that begin with a colon. -/
theorem collect_delivers_excluded :
    let bundled : Bundle := .ofList [("b", []), (":x", [])]
    let w : Workspace (List Entry) := (WriteCall.makeAll
      [.commit "/a" [] bundled (some (.time 1))] (.start {} 1 [])).2
    let roots := ["/a/b"]
    ∃ t w₁, (plain "all" .all (fun _ => true) fun _ u => u).create (some w.head) roots w =
        (.ok t, w₁) ∧
      ((t.collect w₁).2.caller.filter fun e =>
        !allows (fun _ => true) roots e.path).map Entry.path = ["/a/b", "/a/:x"] := by
  intro bundled w roots
  refine ⟨_, _, rfl, ?_⟩
  decide +kernel

end Traverser

end VersionedTree
