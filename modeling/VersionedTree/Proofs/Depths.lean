import VersionedTree.Proofs.Enumeration

/-! # Ids and depths

Ids are compared as texts, and an id begins with the numeral of a depth and a colon. Numerals of
one length are compared like their numbers. If one is longer, it is its first digits that count; and
where these are the whole of the other numeral, the longer one comes first, as every digit comes
before the colon. So a path of up to nine names has its id before those of what lies below it down
to that depth, while the id of a path of ten names comes before that of a path of one name. A full
traversal goes through the documents in the order of their ids.
-/

namespace VersionedTree

/-! ## Numerals as texts -/

namespace Decimal

/-- The number of digits of a numeral. -/
def width (n : Nat) : Nat := (Nat.toDigits 10 n).length

/-- The numeral of `n` comes before as many of the first digits of the numeral of `m`, which is no
shorter. -/
def Leads (n m : Nat) : Prop := n < m / 10 ^ (width m - width n)

instance (n m : Nat) : Decidable (Leads n m) := inferInstanceAs (Decidable (_ < _))

variable {n m : Nat}

theorem leads_iff_of_width_eq (h : width n = width m) : Leads n m ↔ n < m := by
  rw [Leads, h, Nat.sub_self, Nat.pow_zero, Nat.div_one]

theorem width_le_iff {k : Nat} (hk : 0 < k) : width n ≤ k ↔ n < 10 ^ k :=
  Nat.length_toDigits_le_iff (by decide) hk

theorem width_pos (n : Nat) : 0 < width n := Nat.length_toDigits_pos

theorem width_mono (h : n ≤ m) : width n ≤ width m :=
  (width_le_iff (width_pos m)).2 (h.trans_lt ((width_le_iff (width_pos m)).1 le_rfl))

theorem width_of_lt (h : n < 10) : width n = 1 := by
  rw [width, Nat.toDigits_of_lt_base h, List.length_singleton]

theorem width_of_le (h : 10 ≤ n) : width n = width (n / 10) + 1 := by
  rw [width, Nat.toDigits_of_base_le (by decide) h, List.length_append, List.length_singleton, width]

theorem digitChar_lt (h : n < m) (hm : m < 10) : n.digitChar < m.digitChar := by
  have digits : ∀ d : Fin 10, ∀ e : Fin 10, d < e → d.val.digitChar < e.val.digitChar := by decide
  exact digits ⟨n, h.trans hm⟩ ⟨m, hm⟩ h

theorem lt_colon_of_isDigit {c : Char} (h : c.isDigit = true) : c < ':' := by
  simp only [Char.isDigit, Bool.and_eq_true, decide_eq_true_eq] at h
  rw [Char.lt_def, UInt32.lt_iff_toNat_lt]
  exact Nat.lt_succ_of_le (UInt32.le_iff_toNat_le.1 h.2)

/-- Numerals of one length are compared like their numbers, whatever follows them. -/
theorem toDigits_append_lt (h : n < m) (hwidth : width n = width m) (x y : List Char) :
    Nat.toDigits 10 n ++ x < Nat.toDigits 10 m ++ y := by
  -- By the last digit: all before it decides, unless it is the same.
  induction m using Nat.strongRecOn generalizing n x y with
  | ind m ih =>
    rcases Nat.lt_or_ge m 10 with hm | hm
    · rw [Nat.toDigits_of_lt_base (h.trans hm), Nat.toDigits_of_lt_base hm]
      exact List.cons_lt_cons_iff.2 (.inl (digitChar_lt h hm))
    · have hn : 10 ≤ n := by
        by_contra hn
        rw [width_of_lt (by omega), width_of_le hm] at hwidth
        have := width_pos (m / 10)
        omega
      have hrest : width (n / 10) = width (m / 10) := by
        rw [width_of_le hn, width_of_le hm] at hwidth
        omega
      rw [Nat.toDigits_of_base_le (by decide) hn, Nat.toDigits_of_base_le (by decide) hm,
        List.append_assoc, List.append_assoc]
      rcases Nat.lt_or_eq_of_le (Nat.div_le_div_right (c := 10) h.le) with hlt | heq
      · exact ih (m / 10) (by omega) hlt hrest _ _
      · rw [heq]
        refine List.append_left_lt (List.cons_lt_cons_iff.2 (.inl (digitChar_lt ?_ ?_)))
        · omega
        · omega

/-- The first digits of a numeral are a numeral. -/
theorem toDigits_split {k : Nat} (hk : k < width n) :
    width (n / 10 ^ k) + k = width n ∧
      ∃ rest, Nat.toDigits 10 n = Nat.toDigits 10 (n / 10 ^ k) ++ rest ∧ rest.length = k := by
  induction k with
  | zero => exact ⟨by simp, [], by simp, rfl⟩
  | succ k ih =>
    obtain ⟨hwidth, rest, hdigits, hlength⟩ := ih (by omega)
    have hle : 10 ≤ n / 10 ^ k := by
      by_contra hlt
      rw [width_of_lt (by omega)] at hwidth
      omega
    have hdiv : n / 10 ^ (k + 1) = n / 10 ^ k / 10 := by rw [Nat.pow_succ, Nat.div_div_eq_div_mul]
    rw [hdiv]
    refine ⟨?_, (n / 10 ^ k % 10).digitChar :: rest, ?_, by rw [List.length_cons, hlength]⟩
    · rw [width_of_le hle] at hwidth
      omega
    · rw [hdigits, Nat.toDigits_of_base_le (by decide) hle, List.append_assoc]
      rfl

/-- Of two numerals in front of colons that of the smaller number comes first just if it leads the
other one. -/
theorem toDigits_colon_lt_iff (h : n < m) (x y : List Char) :
    Nat.toDigits 10 n ++ ':' :: x < Nat.toDigits 10 m ++ ':' :: y ↔ Leads n m := by
  have hwidth := width_mono h.le
  have hpos := width_pos n
  obtain ⟨hfirst, rest, hdigits, hlength⟩ := toDigits_split (n := m) (k := width m - width n) (by omega)
  rw [Leads]
  generalize m / 10 ^ (width m - width n) = first at hfirst hdigits
  have hsame : width first = width n := by omega
  rw [hdigits, List.append_assoc]
  rcases Nat.lt_trichotomy n first with hlt | rfl | hlt
  · exact iff_of_true (toDigits_append_lt hlt hsame.symm _ _) hlt
  · -- The longer numeral goes on where the other one has its colon.
    refine iff_of_false (fun hless => ?_) (Nat.lt_irrefl n)
    cases rest with
    | nil =>
      rw [List.append_nil] at hdigits
      exact h.ne (eq_of_toDigits_eq hdigits).symm
    | cons c rest =>
      have hdigit : c.isDigit = true :=
        Nat.isDigit_of_mem_toDigits (by decide) (by decide) (hdigits ▸ by simp : c ∈ Nat.toDigits 10 m)
      have hmore : (c :: rest) ++ ':' :: y < ':' :: x :=
        List.cons_lt_cons_iff.2 (.inl (lt_colon_of_isDigit hdigit))
      exact List.lt_asymm hless (List.append_left_lt hmore)
  · refine iff_of_false (fun hless => ?_) (Nat.lt_asymm hlt)
    exact List.lt_asymm hless (toDigits_append_lt hlt hsame _ _)

end Decimal

namespace DocumentId

/-- The id of a path comes before that of a deeper path just if the numeral of its depth leads. -/
theorem ofPath_lt_iff {p q : String} (h : Path.depth p < Path.depth q) :
    ofPath p < ofPath q ↔ Decimal.Leads (Path.depth p) (Path.depth q) := by
  rw [String.lt_iff, toList_ofPath, toList_ofPath, Decimal.toDigits_colon_lt_iff h]

/-- Down to a depth with one digit more, the ids of the deeper paths come later. -/
theorem ofPath_lt_of_width_eq {p q : String} (h : Path.depth p < Path.depth q)
    (hwidth : Decimal.width (Path.depth p) = Decimal.width (Path.depth q)) :
    ofPath p < ofPath q :=
  (ofPath_lt_iff h).2 ((Decimal.leads_iff_of_width_eq hwidth).2 h)

end DocumentId

/-! ## The documents that a traversal goes through -/

/-- What elements yield one after the other came of some first of them: of all if nothing failed. -/
theorem Yield.exists_visited {α β : Type} (f : α → Yield β) (l : List α) :
    ∃ visited, visited <+: l ∧ (flatMap f l).items = (visited.flatMap fun a => (f a).items) ∧
      ((flatMap f l).failure = none → visited = l) := by
  induction l with
  | nil => exact ⟨[], List.prefix_refl _, rfl, fun _ => rfl⟩
  | cons a l ih =>
    rw [flatMap_cons]
    cases ha : (f a).failure with
    | some e =>
      rw [append_of_failure ha, ha]
      exact ⟨[a], ⟨l, rfl⟩, by simp, fun h => by cases h⟩
    | none =>
      obtain ⟨visited, hprefix, hitems, hall⟩ := ih
      rw [append_of_complete ha]
      refine ⟨a :: visited, List.cons_prefix_cons.2 ⟨rfl, hprefix⟩, ?_, fun h => ?_⟩
      · rw [List.flatMap_cons, hitems]
      · rw [hall h]

theorem flatMap_filter_of_eq_nil {α β : Type} {f : α → List β} {p : α → Bool} {l : List α}
    (h : ∀ a ∈ l, p a = false → f a = []) : (l.filter p).flatMap f = l.flatMap f := by
  induction l with
  | nil => rfl
  | cons a l ih =>
    have hrest := ih fun x hx => h x (List.mem_cons_of_mem a hx)
    cases ha : p a with
    | true => rw [List.filter_cons_of_pos ha, List.flatMap_cons, List.flatMap_cons, hrest]
    | false =>
      rw [List.filter_cons_of_neg (by simp [ha]), List.flatMap_cons,
        h a List.mem_cons_self ha, hrest, List.nil_append]

namespace DocumentStore

variable {s : DocumentStore} {v : RevisionVector} {allowed : String → Bool}

/-- If a document yields anything, it is first the node at its own path. -/
theorem path_of_head?_yieldOf {item : Stored} {e : Entry}
    (h : (s.yieldOf v allowed item).items.head? = some e) : e.path = item.document.path := by
  rw [yieldOf] at h
  split at h
  · cases hnode : s.nodeAt item.document.path v with
    | error failure =>
      rw [hnode] at h
      cases h
    | ok found =>
      rw [hnode] at h
      cases found with
      | none => cases h
      | some n =>
        cases h
        exact path_of_nodeAt hnode
  · cases h

/-- Entries came of main documents of the store, of each what it yields and first its own node; in
the order of the ids; and of all of them if nothing went wrong. -/
structure Serves (s : DocumentStore) (v : RevisionVector) (allowed : String → Bool)
    (result : Except Failure Unit) (entries : List Entry) (served : List Stored) : Prop where
  stored : ∀ item ∈ served, item ∈ s.catalog.items ∧ item.document.IsMain
  ascending : served.Pairwise fun a b => a.id < b.id
  entries_eq : entries = served.flatMap fun item => (s.yieldOf v allowed item).items
  own : ∀ item ∈ served, ∀ e, (s.yieldOf v allowed item).items.head? = some e →
    e.path = item.document.path
  complete : result = .ok () →
    ∀ item ∈ s.catalog.items, item.document.IsMain → item ∈ served

theorem exists_serves (hs : s.Arranged) (v : RevisionVector) (allowed : String → Bool) :
    let y := s.yields v allowed s.catalog.items
    ∃ served, s.Serves v allowed y.outcome y.items served := by
  obtain ⟨visited, hprefix, hitems, hall⟩ :=
    Yield.exists_visited (s.yieldOf v allowed) s.catalog.items
  refine ⟨visited.filter fun item => !item.document.isSplit, fun item hitem => ?_,
    (s.catalog.sorted.sublist hprefix.sublist).filter _, ?_,
    fun item _ e he => path_of_head?_yieldOf he, fun hok item hitem hmain => ?_⟩
  · obtain ⟨hitem, hlive⟩ := List.mem_filter.1 hitem
    have hmem := hprefix.subset hitem
    exact ⟨hmem, hs.isMain_of_not_isSplit hmem (by simpa using hlive)⟩
  · rw [flatMap_filter_of_eq_nil, yields, hitems]
    intro item _ hsplit
    rw [yieldOf_of_isSplit (by simpa using hsplit)]
  · have hfailure : (s.yields v allowed s.catalog.items).failure = none := by
      rw [Yield.outcome] at hok
      split at hok
      · cases hok
      · assumption
    rw [hall hfailure, List.mem_filter]
    exact ⟨hitem, by rw [hmain.isSplit]; rfl⟩

/-- Of two documents that are served the less deep one comes first just if the numeral of its depth
leads. -/
theorem Serves.lt_iff {result : Except Failure Unit} {entries : List Entry} {served : List Stored}
    (h : s.Serves v allowed result entries served) {i j : Nat} {a b : Stored}
    (hi : served[i]? = some a) (hj : served[j]? = some b)
    (hdepth : Path.depth a.document.path < Path.depth b.document.path) :
    i < j ↔ Decimal.Leads (Path.depth a.document.path) (Path.depth b.document.path) := by
  obtain ⟨hi', rfl⟩ := List.getElem?_eq_some_iff.1 hi
  obtain ⟨hj', rfl⟩ := List.getElem?_eq_some_iff.1 hj
  have hascending := List.pairwise_iff_getElem.1 h.ascending
  rw [← DocumentId.ofPath_lt_iff hdepth, ← (h.stored _ (List.getElem_mem hi')).2.id_eq,
    ← (h.stored _ (List.getElem_mem hj')).2.id_eq]
  refine ⟨hascending i j hi' hj', fun hless => ?_⟩
  rcases Nat.lt_trichotomy i j with hlt | rfl | hlt
  · exact hlt
  · exact absurd hdepth (Nat.lt_irrefl _)
  · exact absurd hless (String.lt_asymm (hascending j i hj' hi' hlt))

end DocumentStore

namespace Traverser

/-- The id of a path comes before that of a deeper path just if the numeral of its depth leads. So
after any calls on an empty store, a full traversal delivers the node of a document before what any
deeper document has just if the numeral of its depth leads. -/
theorem collect_by_depths {settings : CacheSettings} {store : DocumentStore}
    (hstore : DocumentStore.create settings = .ok store) (cluster : Int) {calls : List WriteCall}
    (hcalls : ∀ call ∈ calls, call.Admissible) (label : String) (accepts : String → Bool)
    (roots : List String) (snapshot : Option RevisionVector) :
    let w : Workspace (List Entry) :=
      { repository := (WriteCall.performAll calls ⟨store, { cluster }⟩).2, caller := [] }
    (∀ p q : String, Path.depth p < Path.depth q →
      (DocumentId.ofPath p < DocumentId.ofPath q ↔
        Decimal.Leads (Path.depth p) (Path.depth q))) ∧
    ∃ t w₁ result w₂ served,
      (plain label .all accepts fun _ u => u).create snapshot roots w = (.ok t, w₁) ∧
      t.collect w₁ = (result, w₂) ∧
      w.store.Serves (snapshot.getD w.head) (allows accepts roots) result w₂.caller served ∧
      ∀ (i j : Nat) (a b : Stored), served[i]? = some a → served[j]? = some b →
        Path.depth a.document.path < Path.depth b.document.path →
        (i < j ↔ Decimal.Leads (Path.depth a.document.path) (Path.depth b.document.path)) := by
  intro w
  refine ⟨fun p q => DocumentId.ofPath_lt_iff, ?_⟩
  have hkept : w.repository.Kept :=
    (Repository.recorded_performAll (Repository.recorded_create hstore cluster) hcalls).kept
  let x : TraverserState := { pin := .of (snapshot.getD w.head), hiddenRoots := roots }
  let t : Traverser (List Entry) :=
    { plain label .all accepts fun _ u => u with number := w.traversers.length }
  let w₁ : Workspace (List Entry) := { w with traversers := w.traversers ++ [x] }
  have hstate : t.state w₁ = x := state_create (plain label .all accepts fun _ u => u) x w
  obtain ⟨w₂, hcollect, h₂⟩ := collect_gathers (t := t) (w := w₁) (isPlain_plain _ _ _ _ _)
    hkept (congrArg TraverserState.pin hstate) w₁.store.requireTimes_all
  have hselect : w₁.store.select t.range = w.store.catalog.items := DocumentStore.select_all _
  rw [hstate, hselect] at hcollect h₂
  obtain ⟨served, hserved⟩ :=
    DocumentStore.exists_serves hkept.arranged (snapshot.getD w.head) (allows accepts roots)
  have hserved : w.store.Serves (snapshot.getD w.head) (allows accepts roots)
      (w.store.yields (snapshot.getD w.head) (allows accepts roots) w.store.catalog.items).outcome
      w₂.caller served := by
    rw [h₂.caller]
    exact hserved
  refine ⟨t, w₁, _, w₂, served, ?_, hcollect, hserved, fun i j a b => hserved.lt_iff⟩
  rw [create_snapshot rfl, create_eq]

theorem collect_by_depths_of_ten_names :
    let calls : List WriteCall :=
      [.commit "/a" [] .empty none, .commit "/a/b" [] .empty none,
        .commit "/a/b/c/d/e/f/g/h/i/j" [] .empty none]
    let w : Workspace (List Entry) :=
      { repository := (WriteCall.performAll calls
          ⟨{ cache := some { limit := some 10000 } }, { cluster := 1 }⟩).2, caller := [] }
    (∀ p q : String, Path.depth p < Path.depth q →
      (DocumentId.ofPath p < DocumentId.ofPath q ↔
        Decimal.Leads (Path.depth p) (Path.depth q))) ∧
    ∃ t w₁ result w₂ served,
      (plain "all" .all (fun _ => true) fun _ u => u).create none [] w = (.ok t, w₁) ∧
      t.collect w₁ = (result, w₂) ∧
      w.store.Serves w.head (allows (fun _ => true) []) result w₂.caller served ∧
      ∀ (i j : Nat) (a b : Stored), served[i]? = some a → served[j]? = some b →
        Path.depth a.document.path < Path.depth b.document.path →
        (i < j ↔ Decimal.Leads (Path.depth a.document.path) (Path.depth b.document.path)) :=
  collect_by_depths (show DocumentStore.create {} = .ok _ from rfl) 1 (by decide) "all"
    (fun _ => true) [] none

theorem collect_ten_names_before_one :
    let deep := "/a/b/c/d/e/f/g/h/i/j"
    let w : Workspace (List Entry) :=
      { repository := (WriteCall.performAll
          [.commit "/a" [] .empty none, .commit deep [] .empty none]
          ⟨{ cache := some { limit := some 10000 } }, { cluster := 1 }⟩).2, caller := [] }
    let traversal := do
      let t ← (plain "all" .all (fun _ => true) fun _ u => u).create none []
      t.collect
    Path.depth "/a" < Path.depth deep ∧ DocumentId.ofPath deep < DocumentId.ofPath "/a" ∧
      (traversal w).2.caller.map Entry.path = [deep, "/a"] := by
  decide +kernel

end Traverser

end VersionedTree
