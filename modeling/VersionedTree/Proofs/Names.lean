import VersionedTree.Path
import Mathlib.Data.List.Induction

/-! # Normalized paths

The text of a normalized path is determined by its names, and the names by the text. The parent of
a path has all names but the innermost one, so a path is known from its parent and its name.
-/

namespace VersionedTree.Path

/-- A text that can stand between two slashes. -/
def IsName (n : String) : Prop := n ≠ "" ∧ '/' ∉ n.toList

instance (n : String) : Decidable (IsName n) := inferInstanceAs (Decidable (_ ∧ _))

/-- The characters of names that follow one another, each behind a slash. -/
def body (ns : List String) : List Char := ns.flatMap fun n => '/' :: n.toList

/-- The absolute path of these names. -/
def ofNames (ns : List String) : String := if ns.isEmpty then root else String.ofList (body ns)

/-- The relative path of these names. -/
def relative (ns : List String) : String := String.ofList (body ns).tail

/-- The root, or names behind slashes. -/
def IsNormal (path : String) : Prop := ∃ ns, (∀ n ∈ ns, IsName n) ∧ path = ofNames ns

@[simp] theorem body_nil : body [] = [] := rfl

@[simp] theorem body_cons (n : String) (ns : List String) :
    body (n :: ns) = '/' :: (n.toList ++ body ns) := rfl

theorem body_append (ns ms : List String) : body (ns ++ ms) = body ns ++ body ms := by
  simp [body]

theorem ofNames_nil : ofNames [] = root := rfl

theorem ofNames_of_ne_nil {ns : List String} (h : ns ≠ []) :
    ofNames ns = String.ofList (body ns) := by
  rw [ofNames, if_neg]
  simpa using h

theorem toList_ne_nil {n : String} (h : IsName n) : n.toList ≠ [] := by
  intro hempty
  apply h.1
  rw [← String.ofList_toList (s := n), hempty]

theorem splitOn_append_body {ns : List String} (hns : ∀ n ∈ ns, IsName n) {x : List Char}
    (hx : '/' ∉ x) : (x ++ body ns).splitOn '/' = x :: ns.map String.toList := by
  induction ns generalizing x with
  | nil => simpa using List.splitOn_eq_singleton hx
  | cons n ns ih =>
    have hn : IsName n := hns n List.mem_cons_self
    rw [body_cons, List.splitOn_append_cons_self_of_not_mem hx,
      ih (fun m hm => hns m (List.mem_cons_of_mem n hm)) hn.2, List.map_cons]

theorem map_ofList_filter {ns : List String} (hns : ∀ n ∈ ns, IsName n) :
    (((ns.map String.toList).filter fun piece => !piece.isEmpty).map String.ofList) = ns := by
  rw [List.filter_eq_self.2, List.map_map]
  · have hid : String.ofList ∘ String.toList = id := by
      funext n
      exact String.ofList_toList
    rw [hid, List.map_id]
  · intro piece hpiece
    obtain ⟨n, hn, rfl⟩ := List.mem_map.1 hpiece
    simpa using toList_ne_nil (hns n hn)

theorem not_mem_of_mem_splitOn {l piece : List Char} (h : piece ∈ l.splitOn '/') :
    '/' ∉ piece := by
  induction l generalizing piece with
  | nil =>
    rw [List.splitOn_nil, List.mem_singleton] at h
    rw [h]
    exact List.not_mem_nil
  | cons c l ih =>
    rw [List.splitOn_cons_eq_if_modifyHead] at h
    by_cases hc : c = '/'
    · rw [if_pos (beq_iff_eq.2 hc)] at h
      rcases List.mem_cons.1 h with rfl | h
      · exact List.not_mem_nil
      · exact ih h
    · rw [if_neg (mt beq_iff_eq.1 hc)] at h
      cases hl : l.splitOn '/' with
      | nil => exact absurd hl (List.splitOn_ne_nil _ _)
      | cons first rest =>
        rw [hl, List.modifyHead_cons] at h
        rcases List.mem_cons.1 h with rfl | h
        · have hfirst : '/' ∉ first := ih (hl ▸ List.mem_cons_self)
          simpa using ⟨Ne.symm hc, hfirst⟩
        · exact ih (hl ▸ List.mem_cons_of_mem first h)

/-- A slash between two texts parts their names. -/
theorem names_of_slash {text p r : String} (h : text.toList = p.toList ++ '/' :: r.toList) :
    names text = names p ++ names r := by
  rw [names, h, List.splitOn_append_cons_self, List.filter_append, List.map_append]
  rfl

theorem isName_of_mem_names {path n : String} (h : n ∈ names path) : IsName n := by
  obtain ⟨piece, hpiece, rfl⟩ := List.mem_map.1 h
  obtain ⟨hsplit, hne⟩ := List.mem_filter.1 hpiece
  refine ⟨?_, ?_⟩
  · intro hempty
    have hnil : piece = [] := by
      rw [← String.toList_ofList (l := piece), hempty]
      rfl
    rw [hnil] at hne
    cases hne
  · rw [String.toList_ofList]
    exact not_mem_of_mem_splitOn hsplit

theorem names_ofNames {ns : List String} (hns : ∀ n ∈ ns, IsName n) : names (ofNames ns) = ns := by
  cases ns with
  | nil => decide
  | cons n ns =>
    have hsplit := splitOn_append_body (x := []) hns (by simp)
    rw [List.nil_append] at hsplit
    rw [ofNames_of_ne_nil (List.cons_ne_nil n ns), names, String.toList_ofList, hsplit]
    exact map_ofList_filter hns

theorem names_relative {ns : List String} (hns : ∀ n ∈ ns, IsName n) :
    names (relative ns) = ns := by
  cases ns with
  | nil => decide
  | cons n ns =>
    have hn : IsName n := hns n List.mem_cons_self
    have hrest : ∀ m ∈ ns, IsName m := fun m hm => hns m (List.mem_cons_of_mem n hm)
    rw [relative, names, String.toList_ofList, body_cons, List.tail_cons,
      splitOn_append_body hrest hn.2]
    exact map_ofList_filter hns

theorem isNormal_iff {path : String} :
    IsNormal path ↔ (∀ n ∈ names path, IsName n) ∧ path = ofNames (names path) := by
  constructor
  · rintro ⟨ns, hns, rfl⟩
    rw [names_ofNames hns]
    exact ⟨hns, rfl⟩
  · rintro ⟨hnames, hpath⟩
    exact ⟨names path, hnames, hpath⟩

instance (path : String) : Decidable (IsNormal path) := decidable_of_iff _ isNormal_iff.symm

theorem ofNames_inj {ns ms : List String} (hns : ∀ n ∈ ns, IsName n) (hms : ∀ m ∈ ms, IsName m)
    (h : ofNames ns = ofNames ms) : ns = ms := by
  rw [← names_ofNames hns, h, names_ofNames hms]

theorem relative_inj {ns ms : List String} (hns : ∀ n ∈ ns, IsName n) (hms : ∀ m ∈ ms, IsName m)
    (h : relative ns = relative ms) : ns = ms := by
  rw [← names_relative hns, h, names_relative hms]

theorem isAbsolute_of_isNormal {path : String} (h : IsNormal path) : isAbsolute path = true := by
  obtain ⟨ns, _, rfl⟩ := h
  cases ns with
  | nil => decide
  | cons n ns =>
    rw [ofNames_of_ne_nil (List.cons_ne_nil n ns), isAbsolute, String.toList_ofList, body_cons]
    rfl

/-! ## Parent and name -/

theorem name_ofNames {ns : List String} (hns : ∀ n ∈ ns, IsName n) :
    name (ofNames ns) = ns.getLastD "" := by
  rw [name, names_ofNames hns]

theorem dropWhile_slash {n : String} (hn : IsName n) (l : List Char) :
    (n.toList.reverse ++ l).dropWhile (· == '/') = n.toList.reverse ++ l := by
  cases hr : n.toList.reverse with
  | nil => exact absurd (List.reverse_eq_nil_iff.1 hr) (toList_ne_nil hn)
  | cons c cs =>
    have hc : c ∈ n.toList := by
      rw [← List.mem_reverse, hr]
      exact List.mem_cons_self
    rw [List.cons_append, List.dropWhile_cons_of_neg]
    simp only [beq_iff_eq]
    rintro rfl
    exact hn.2 hc

theorem trimmed_ofList_body {init : List String} {n : String} (hn : IsName n) :
    trimmed (String.ofList (body (init ++ [n]))) = body (init ++ [n]) := by
  rw [trimmed, String.toList_ofList, body_append, List.reverse_append]
  have hlast : (body [n]).reverse = n.toList.reverse ++ ['/'] := by simp
  rw [hlast, List.append_assoc, dropWhile_slash hn]
  simp

theorem parent_ofNames {init : List String} {n : String} (hn : IsName n) :
    parent (ofNames (init ++ [n])) = ofNames init := by
  have hne : init ++ [n] ≠ [] := by simp
  have hreverse : (body (init ++ [n])).reverse =
      n.toList.reverse ++ '/' :: (body init).reverse := by
    rw [body_append]
    simp
  have hname : (n.toList.reverse ++ '/' :: (body init).reverse).dropWhile (· != '/') =
      '/' :: (body init).reverse := by
    rw [List.dropWhile_append_of_pos]
    · simp
    · intro c hc
      simp only [bne_iff_ne]
      rintro rfl
      exact hn.2 (List.mem_reverse.1 hc)
  rw [parent, ofNames_of_ne_nil hne, trimmed_ofList_body hn, hreverse, hname]
  cases init with
  | nil => rfl
  | cons m init =>
    rw [ofNames_of_ne_nil (List.cons_ne_nil m init)]
    simp

/-! ## Relative paths -/

theorem eq_of_append_slash {xs ys as bs : List Char} (ha : '/' ∉ as) (hb : '/' ∉ bs)
    (h : xs ++ '/' :: as = ys ++ '/' :: bs) : xs = ys ∧ as = bs := by
  rcases List.append_eq_append_iff.1 h with ⟨c, rfl, hc⟩ | ⟨c, rfl, hc⟩
  · cases c with
    | nil => simpa using hc
    | cons d c =>
      obtain ⟨_, hc⟩ := List.cons.inj hc
      rw [hc] at ha
      exact absurd (by simp) ha
  · cases c with
    | nil => simpa using hc.symm
    | cons d c =>
      obtain ⟨_, hc⟩ := List.cons.inj hc
      rw [hc] at hb
      exact absurd (by simp) hb

theorem eq_of_slash_append {xs ys as bs : List Char} (hx : '/' ∉ xs) (hy : '/' ∉ ys)
    (h : xs ++ '/' :: as = ys ++ '/' :: bs) : xs = ys ∧ as = bs := by
  have hreverse := congrArg List.reverse h
  simp only [List.reverse_append, List.reverse_cons, List.append_assoc, List.singleton_append]
    at hreverse
  obtain ⟨hafter, hbefore⟩ := eq_of_append_slash (by simpa using hx) (by simpa using hy) hreverse
  exact ⟨List.reverse_inj.1 hbefore, List.reverse_inj.1 hafter⟩

/-- A path below some node, which it does not name. -/
def IsRelative (path : String) : Prop :=
  names path ≠ [] ∧ (∀ n ∈ names path, IsName n) ∧ path = relative (names path)

instance (path : String) : Decidable (IsRelative path) := inferInstanceAs (Decidable (_ ∧ _ ∧ _))

theorem toList_relative_cons (n : String) (ns : List String) :
    (relative (n :: ns)).toList = n.toList ++ body ns := String.toList_ofList

theorem toList_name_slash (n : String) : (n ++ "/").toList = n.toList ++ ['/'] := by
  simp

theorem beginsWith_relative {n m : String} {ms : List String} (hn : IsName n) (hm : IsName m) :
    beginsWith (n ++ "/") (relative (m :: ms)) = true ↔ m = n ∧ ms ≠ [] := by
  rw [beginsWith, List.isPrefixOf_iff_prefix, toList_name_slash, toList_relative_cons]
  constructor
  · rintro ⟨rest, hrest⟩
    rw [List.append_assoc] at hrest
    cases ms with
    | nil =>
      rw [body_nil, List.append_nil] at hrest
      exact absurd (by simp [← hrest]) hm.2
    | cons k ms =>
      obtain ⟨heq, _⟩ := eq_of_slash_append hn.2 hm.2 hrest
      exact ⟨(String.toList_injective heq).symm, List.cons_ne_nil k ms⟩
  · rintro ⟨rfl, hms⟩
    cases ms with
    | nil => exact absurd rfl hms
    | cons k ms =>
      refine ⟨k.toList ++ body ms, ?_⟩
      rw [body_cons, List.append_assoc]
      rfl

theorem drop_relative {n : String} {ns : List String} (hns : ns ≠ []) :
    String.ofList ((relative (n :: ns)).toList.drop (n.length + 1)) = relative ns := by
  cases ns with
  | nil => exact absurd rfl hns
  | cons k ns =>
    have hlength : n.length + 1 = (n.toList ++ ['/']).length := by
      simp [← String.length_toList]
    have happend : n.toList ++ body (k :: ns) = (n.toList ++ ['/']) ++ (k.toList ++ body ns) := by
      rw [body_cons, List.append_assoc]
      rfl
    rw [toList_relative_cons, happend, hlength, List.drop_left]
    rfl

theorem getLast?_body {ns : List String} {n : String} (hn : IsName n) :
    (body (ns ++ [n])).getLast? ≠ some '/' := by
  have hbody : body (ns ++ [n]) = (body ns ++ ['/']) ++ n.toList := by simp [body_append]
  intro hlast
  rw [hbody, List.getLast?_append] at hlast
  cases hname : n.toList.getLast? with
  | none => exact toList_ne_nil hn (List.getLast?_eq_none_iff.1 hname)
  | some c =>
    rw [hname] at hlast
    cases hlast
    exact hn.2 (List.mem_of_getLast? hname)

theorem join_of_not_isEmpty {p rest : String} (h : rest.isEmpty = false) :
    join p rest = (if p.toList.getLast? == some '/' then p else p ++ "/") ++ rest := by
  rw [join, h, if_neg Bool.false_ne_true]
  split <;> rfl

theorem join_ofNames {ns : List String} {n : String} (hns : ∀ m ∈ ns, IsName m) (hn : IsName n) :
    join (ofNames ns) n = ofNames (ns ++ [n]) := by
  have hempty : n.isEmpty = false := by simpa using hn.1
  have hconcat : ns ++ [n] ≠ [] := by simp
  rw [join, hempty, ofNames_of_ne_nil hconcat]
  rcases List.eq_nil_or_concat ns with rfl | ⟨init, m, rfl⟩
  · apply String.toList_injective
    simp [ofNames_nil, root]
  · rw [List.concat_eq_append] at hns ⊢
    have hm : IsName m := hns m (by simp)
    have hne : init ++ [m] ≠ [] := by simp
    have hlast : ((ofNames (init ++ [m])).toList.getLast? == some '/') = false := by
      rw [ofNames_of_ne_nil hne, String.toList_ofList]
      simpa using getLast?_body hm
    apply String.toList_injective
    rw [hlast, ofNames_of_ne_nil hne]
    simp [body_append]

/-! ## A parent and a name joined -/

theorem join_parent_name {p : String} (hp : IsNormal p) (hroot : p ≠ root) :
    join (parent p) (name p) = p := by
  obtain ⟨ns, hns, rfl⟩ := hp
  rcases List.eq_nil_or_concat ns with rfl | ⟨init, n, rfl⟩
  · exact absurd ofNames_nil hroot
  · rw [List.concat_eq_append] at hns ⊢
    obtain ⟨hinit, hn⟩ := List.forall_mem_append.1 hns
    have hn : IsName n := List.forall_mem_singleton.1 hn
    rw [parent_ofNames hn, name_ofNames hns, List.getLastD_concat, join_ofNames hinit hn]

/-- A path that is not the root is known from its parent and its name. -/
theorem eq_of_parent_of_name {p q : String} (hp : IsNormal p) (hq : IsNormal q) (hpr : p ≠ root)
    (hqr : q ≠ root) (hparent : parent p = parent q) (hname : name p = name q) : p = q := by
  rw [← join_parent_name hp hpr, hparent, hname, join_parent_name hq hqr]

end VersionedTree.Path
