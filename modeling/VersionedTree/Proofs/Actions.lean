import VersionedTree.Action

/-! # How actions end

`Ends R x s r` says that the action `x`, begun in the state `s`, ends with the outcome `r` and
leaves a state that is related to `s` by `R`. The relation is what a caller may rely on: which part
of the state an action keeps. `Blind blur R x s` says that `x` makes no use of the part of the state
that `blur` takes away. `Maintains P x` says that `P` holds after `x` if it held before, and
`Meets P x Q E` that then `Q` holds of what `x` answers and leaves behind, and `E` of what it leaves
behind if it fails. Sequences are put together from their parts by the rules below.
-/

namespace VersionedTree.Action

variable {σ α β : Type} {R : σ → σ → Prop} {s : σ}

theorem map_apply (f : α → β) (x : Action σ α) (s : σ) :
    (f <$> x) s = (f <$> (x s).1, (x s).2) := by
  rw [map_eq_pure_bind, bind_apply]
  rcases x s with ⟨_ | _, _⟩ <;> rfl

theorem bind_of_eq_ok {x : Action σ α} {a : α} {s s' : σ} (h : x s = (.ok a, s'))
    {f : α → Action σ β} : (x >>= f) s = f a s' := by
  rw [bind_apply, h]

theorem of_bind_eq_ok {x : Action σ α} {f : α → Action σ β} {b : β} {s s'' : σ}
    (h : (x >>= f) s = (.ok b, s'')) : ∃ a s', x s = (.ok a, s') ∧ f a s' = (.ok b, s'') := by
  rw [bind_apply] at h
  rcases hx : x s with ⟨e | a, s'⟩
  · rw [hx] at h
    cases h
  · rw [hx] at h
    exact ⟨a, s', rfl, h⟩

theorem eq_ok_of_isOk {x : Action σ Unit} {s : σ} (h : (x s).1.isOk = true) :
    x s = (.ok (), (x s).2) := by
  rcases hx : x s with ⟨_ | _, s'⟩
  · rw [hx] at h
    cases h
  · rfl

theorem of_ofExcept_eq_ok {r : Except Failure α} {a : α} {s s' : σ}
    (h : ofExcept r s = (.ok a, s')) : r = .ok a ∧ s' = s := by
  cases r with
  | ok b =>
    cases h
    exact ⟨rfl, rfl⟩
  | error e => cases h

theorem guarded_snd (x : Action σ α) (release : Action σ Unit) (s : σ) :
    (guarded x release s).2 = (release (x s).2).2 := by
  simp only [guarded, bind_apply, attempt]
  rcases x s with ⟨outcome, s'⟩
  dsimp only
  rcases release s' with ⟨e | ⟨⟩, s''⟩
  · rfl
  · cases outcome <;> rfl

theorem of_guarded_eq_ok {x : Action σ α} {release : Action σ Unit} {a : α} {s s'' : σ}
    (h : guarded x release s = (.ok a, s'')) : ∃ s', x s = (.ok a, s') := by
  obtain ⟨outcome, s₁, hx, h⟩ := of_bind_eq_ok h
  obtain ⟨_, s₂, _, h⟩ := of_bind_eq_ok h
  obtain ⟨rfl, rfl⟩ := of_ofExcept_eq_ok h
  refine ⟨s₁, ?_⟩
  rw [attempt] at hx
  rcases hxs : x s with ⟨r, s'⟩
  rw [hxs] at hx
  cases hx
  rfl

def Ends (R : σ → σ → Prop) (x : Action σ α) (s : σ) (r : Except Failure α) : Prop :=
  ∃ s', x s = (r, s') ∧ R s s'

theorem ends_pure (h : R s s) (a : α) : Ends R (pure a) s (.ok a) := ⟨s, rfl, h⟩

theorem ends_fail (h : R s s) (e : Failure) : Ends R (fail e : Action σ α) s (.error e) :=
  ⟨s, rfl, h⟩

theorem ends_modify {f : σ → σ} (h : R s (f s)) : Ends R (modify f) s (.ok ()) := ⟨f s, rfl, h⟩

theorem ends_ofExcept (h : R s s) (r : Except Failure α) : Ends R (ofExcept r) s r := by
  cases r with
  | ok a => exact ends_pure h a
  | error e => exact ends_fail h e

theorem ends_get_bind {f : σ → Action σ α} {r : Except Failure α} (h : Ends R (f s) s r) :
    Ends R (get >>= f) s r := h

theorem Ends.bind_error {x : Action σ α} {e : Failure} (hx : Ends R x s (.error e))
    (f : α → Action σ β) : Ends R (x >>= f) s (.error e) := by
  obtain ⟨s', hx, hs'⟩ := hx
  refine ⟨s', ?_, hs'⟩
  rw [bind_apply, hx]

theorem ends_bind [Trans R R R] {x : Action σ α} {a : α} {s₁ : σ} {f : α → Action σ β}
    {r : Except Failure β} (hx : x s = (.ok a, s₁)) (h₁ : R s s₁) (hf : Ends R (f a) s₁ r) :
    Ends R (x >>= f) s r := by
  obtain ⟨s₂, hf, h₂⟩ := hf
  refine ⟨s₂, ?_, Trans.trans h₁ h₂⟩
  rw [bind_apply, hx]
  exact hf

theorem Ends.bind_ok [Trans R R R] {x : Action σ α} {a : α} {f : α → Action σ β}
    {r : Except Failure β} (hx : Ends R x s (.ok a)) (hf : ∀ s', R s s' → Ends R (f a) s' r) :
    Ends R (x >>= f) s r := by
  obtain ⟨s₁, hx, h₁⟩ := hx
  exact ends_bind hx h₁ (hf s₁ h₁)

theorem Ends.bind_pure {x : Action σ α} {r : Except Failure α} (hx : Ends R x s r) {f : α → β}
    {g : α → Action σ β} (hg : ∀ a, g a = pure (f a)) : Ends R (x >>= g) s (r.map f) := by
  obtain ⟨s', hx, hs'⟩ := hx
  refine ⟨s', ?_, hs'⟩
  rw [bind_apply, hx]
  cases r with
  | ok a => simp only [hg, pure_apply, Except.map]
  | error e => rfl

theorem Ends.mono {R' : σ → σ → Prop} (hR : ∀ {a b}, R a b → R' a b) {x : Action σ α}
    {r : Except Failure α} (h : Ends R x s r) : Ends R' x s r := by
  obtain ⟨s', hx, hs'⟩ := h
  exact ⟨s', hx, hR hs'⟩

theorem Ends.answer {x : Action σ α} {r : Except Failure α} (h : Ends R x s r) : (x s).1 = r := by
  obtain ⟨s', hx, _⟩ := h
  rw [hx]

theorem Ends.attempt {x : Action σ α} {r : Except Failure α} (h : Ends R x s r) :
    Ends R (attempt x) s (.ok r) := by
  obtain ⟨s', hx, hs'⟩ := h
  refine ⟨s', ?_, hs'⟩
  rw [Action.attempt, hx]

/-! ## Actions that make no use of a part of the state -/

section Blindness

variable {τ : Type} {blur : σ → σ}

/-- Begun in `s`, the action does not tell `s` from what `blur` makes of it: it ends alike in both,
and blurs away what it leaves behind. Moreover it keeps `R`. -/
structure Blind (blur : σ → σ) (R : σ → σ → Prop) (x : Action σ α) (s : σ) : Prop where
  same : x (blur s) = ((x s).1, blur (x s).2)
  kept : R s (x s).2

theorem blind_pure (h : R s s) (a : α) : Blind blur R (pure a) s := ⟨rfl, h⟩

theorem blind_fail (h : R s s) (e : Failure) : Blind blur R (fail e : Action σ α) s := ⟨rfl, h⟩

theorem blind_ofExcept (h : R s s) (r : Except Failure α) : Blind blur R (ofExcept r) s := by
  cases r with
  | ok a => exact blind_pure h a
  | error e => exact blind_fail h e

theorem blind_modify {f : σ → σ} (hsame : f (blur s) = blur (f s)) (h : R s (f s)) :
    Blind blur R (modify f) s := ⟨by rw [modify_apply, hsame]; rfl, h⟩

theorem blind_get_bind {f : σ → Action σ α} (hsame : f (blur s) = f s)
    (h : Blind blur R (f s) s) : Blind blur R (get >>= f) s := by
  refine ⟨?_, h.kept⟩
  show f (blur s) (blur s) = _
  rw [hsame, h.same]
  rfl

theorem Blind.bind [Trans R R R] {x : Action σ α} {f : α → Action σ β} (hx : Blind blur R x s)
    (hf : ∀ a s', R s s' → Blind blur R (f a) s') : Blind blur R (x >>= f) s := by
  obtain ⟨hsame, hkept⟩ := hx
  rcases hx : x s with ⟨e | a, s'⟩
  · rw [hx] at hsame hkept
    refine ⟨?_, ?_⟩
    · simp only [bind_apply, hsame, hx]
    · simpa only [bind_apply, hx] using hkept
  · rw [hx] at hsame hkept
    have h := hf a s' hkept
    refine ⟨?_, ?_⟩
    · simp only [bind_apply, hsame, hx]
      exact h.same
    · simp only [bind_apply, hx]
      exact Trans.trans hkept h.kept

theorem Blind.attempt {x : Action σ α} (h : Blind blur R x s) : Blind blur R (attempt x) s := by
  refine ⟨?_, h.kept⟩
  simp only [Action.attempt, h.same]

theorem Blind.zoom {x : Action σ α} {view : τ → σ} {update : σ → τ → τ} {blur' : τ → τ}
    {R' : τ → τ → Prop} {t : τ} (h : Blind blur R x (view t))
    (hview : view (blur' t) = blur (view t))
    (hupdate : ∀ s, update (blur s) (blur' t) = blur' (update s t))
    (hkept : ∀ s, R (view t) s → R' t (update s t)) :
    Blind blur' R' (zoom view update x) t := by
  refine ⟨?_, hkept _ h.kept⟩
  simp only [Action.zoom, hview, h.same, hupdate]

theorem Blind.map [Trans R R R] {x : Action σ α} (h : Blind blur R x s) (f : α → β)
    (hrefl : ∀ s, R s s) : Blind blur R (f <$> x) s := by
  rw [map_eq_pure_bind]
  exact h.bind fun a s' _ => blind_pure (hrefl s') (f a)

end Blindness

/-! ## What actions maintain -/

section Maintenance

variable {P : σ → Prop} {x : Action σ α}

/-- What holds before the action holds after it, whether it fails or not. -/
def Maintains (P : σ → Prop) (x : Action σ α) : Prop := ∀ s, P s → P (x s).2

theorem maintains_pure (a : α) : Maintains P (pure a) := fun _ h => h

theorem maintains_fail (e : Failure) : Maintains P (fail e : Action σ α) := fun _ h => h

theorem maintains_get : Maintains P get := fun _ h => h

theorem maintains_modify {f : σ → σ} (h : ∀ s, P s → P (f s)) : Maintains P (modify f) := h

theorem maintains_ofExcept (r : Except Failure α) : Maintains P (ofExcept r) := by
  cases r with
  | ok a => exact maintains_pure a
  | error e => exact maintains_fail e

theorem Maintains.bind_answer {f : α → Action σ β} (hx : Maintains P x)
    (hf : ∀ a, (∃ s s', x s = (.ok a, s')) → Maintains P (f a)) : Maintains P (x >>= f) := by
  intro s hs
  have hnext : P (x s).2 := hx s hs
  rw [bind_apply]
  rcases hxs : x s with ⟨e | a, s'⟩
  · rw [hxs] at hnext
    exact hnext
  · rw [hxs] at hnext
    exact hf a ⟨s, s', hxs⟩ s' hnext

theorem Maintains.bind {f : α → Action σ β} (hx : Maintains P x) (hf : ∀ a, Maintains P (f a)) :
    Maintains P (x >>= f) := hx.bind_answer fun a _ => hf a

theorem Maintains.map (hx : Maintains P x) (f : α → β) : Maintains P (f <$> x) := by
  rw [map_eq_pure_bind]
  exact hx.bind fun a => maintains_pure (f a)

theorem Maintains.attempt (hx : Maintains P x) : Maintains P (attempt x) := hx

theorem Maintains.guarded {release : Action σ Unit} (hx : Maintains P x)
    (hrelease : Maintains P release) : Maintains P (guarded x release) :=
  hx.attempt.bind fun outcome => hrelease.bind fun _ => maintains_ofExcept outcome

theorem maintains_mapM {f : α → Action σ β} {l : List α} (h : ∀ a ∈ l, Maintains P (f a)) :
    Maintains P (l.mapM f) := by
  induction l with
  | nil => exact maintains_pure []
  | cons a l ih =>
    obtain ⟨ha, hl⟩ := List.forall_mem_cons.1 h
    rw [List.mapM_cons]
    exact ha.bind fun b => (ih hl).bind fun bs => maintains_pure (b :: bs)

theorem maintains_foldlM {f : β → α → Action σ β} (h : ∀ b a, Maintains P (f b a)) (l : List α)
    (b : β) : Maintains P (l.foldlM f b) := by
  induction l generalizing b with
  | nil => exact maintains_pure b
  | cons a l ih =>
    rw [List.foldlM_cons]
    exact (h b a).bind fun b => ih b

/-- Begun where `P` holds, the action answers so that `Q` holds, or fails so that `E` does. -/
def Meets (P : σ → Prop) (x : Action σ α) (Q : α → σ → Prop) (E : σ → Prop) : Prop :=
  ∀ s, P s → match x s with
    | (.ok a, s') => Q a s'
    | (.error _, s') => E s'

variable {Q : α → σ → Prop} {E : σ → Prop}

theorem meets_pure {a : α} (h : ∀ s, P s → Q a s) : Meets P (pure a) Q E := h

theorem meets_fail {e : Failure} (h : ∀ s, P s → E s) : Meets P (fail e : Action σ α) Q E := h

theorem meets_modify {f : σ → σ} {Q : Unit → σ → Prop} (h : ∀ s, P s → Q () (f s)) :
    Meets P (modify f) Q E := h

theorem meets_get_bind {f : σ → Action σ α} (h : ∀ s, Meets (fun s' => P s' ∧ s' = s) (f s) Q E) :
    Meets P (get >>= f) Q E := fun s hs => h s s ⟨hs, rfl⟩

theorem meets_ofExcept {r : Except Failure α} (hok : ∀ a s, r = .ok a → P s → Q a s)
    (herror : ∀ s, P s → E s) : Meets P (ofExcept r) Q E := by
  cases r with
  | ok a => exact meets_pure fun s => hok a s rfl
  | error e => exact meets_fail herror

theorem Meets.bind {R : β → σ → Prop} {f : α → Action σ β} (hx : Meets P x Q E)
    (hf : ∀ a, Meets (Q a) (f a) R E) : Meets P (x >>= f) R E := by
  intro s hs
  have hnext := hx s hs
  rw [bind_apply]
  rcases hxs : x s with ⟨e | a, s'⟩
  · rw [hxs] at hnext
    exact hnext
  · rw [hxs] at hnext
    exact hf a s' hnext

theorem meets_of_exists {ι : Type} {p : ι → Prop} {P : ι → σ → Prop}
    (h : ∀ i, p i → Meets (P i) x Q E) : Meets (fun s => ∃ i, P i s ∧ p i) x Q E := by
  rintro s ⟨i, hs, hi⟩
  exact h i hi s hs

theorem Meets.mono_ok {Q' : α → σ → Prop} (hx : Meets P x Q E)
    (hQ : ∀ a s, Q a s → Q' a s) : Meets P x Q' E := by
  intro s hs
  have hnext := hx s hs
  rcases hxs : x s with ⟨e | a, s'⟩
  · rwa [hxs] at hnext
  · rw [hxs] at hnext
    exact hQ a s' hnext

theorem Meets.mono_error {E' : σ → Prop} (hx : Meets P x Q E) (hE : ∀ s, E s → E' s) :
    Meets P x Q E' := by
  intro s hs
  have hnext := hx s hs
  rcases hxs : x s with ⟨e | a, s'⟩
  · rw [hxs] at hnext
    exact hE s' hnext
  · rwa [hxs] at hnext

theorem Meets.answers (hx : Meets P x Q fun _ => False) {s : σ} (hs : P s) :
    ∃ a s', x s = (.ok a, s') ∧ Q a s' := by
  have hnext := hx s hs
  rcases hxs : x s with ⟨e | a, s'⟩
  · rw [hxs] at hnext
    exact hnext.elim
  · rw [hxs] at hnext
    exact ⟨a, s', rfl, hnext⟩

theorem Maintains.meets (hx : Maintains P x) (hE : ∀ s, P s → E s) :
    Meets P x (fun _ => P) E := by
  intro s hs
  have hnext := hx s hs
  rcases hxs : x s with ⟨e | a, s'⟩
  · rw [hxs] at hnext
    exact hE s' hnext
  · rw [hxs] at hnext
    exact hnext

theorem Meets.attempt {E' : σ → Prop} (hx : Meets P x Q E) :
    Meets P (attempt x) (fun r s => match r with
      | .ok a => Q a s
      | .error _ => E s) E' := by
  intro s hs
  have hnext := hx s hs
  simp only [Action.attempt]
  rcases hxs : x s with ⟨e | a, s'⟩
  · rw [hxs] at hnext
    exact hnext
  · rw [hxs] at hnext
    exact hnext

end Maintenance

/-! ## Actions that work on a part of the state -/

section Mirroring

variable {view : τ → σ} {R : τ → τ → Prop} {p : Action σ α} {x : Action τ α} {t : τ}

/-- The action answers as `p` does, and changes what is seen of its state as `p` does. -/
def Mirrors (view : τ → σ) (R : τ → τ → Prop) (p : Action σ α) (x : Action τ α) (t : τ) : Prop :=
  ∃ t', x t = ((p (view t)).1, t') ∧ R t t' ∧ view t' = (p (view t)).2

theorem mirrors_pure (h : R t t) (a : α) : Mirrors view R (pure a) (pure a) t := ⟨t, rfl, h, rfl⟩

theorem mirrors_ofExcept (h : R t t) (r : Except Failure α) :
    Mirrors view R (ofExcept r) (ofExcept r) t := by
  cases r with
  | ok a => exact mirrors_pure h a
  | error e => exact ⟨t, rfl, h, rfl⟩

theorem mirrors_modify {f : σ → σ} {g : τ → τ} (h : R t (g t)) (hview : view (g t) = f (view t)) :
    Mirrors view R (modify f) (modify g) t := ⟨g t, rfl, h, hview⟩

/-- Nothing of what is seen has changed. -/
def Unseen (view : τ → σ) (R : τ → τ → Prop) (t t' : τ) : Prop := R t t' ∧ view t' = view t

theorem mirrors_of_ends {r : Except Failure α} (h : Ends (Unseen view R) x t r) :
    Mirrors view R (ofExcept r) x t := by
  obtain ⟨t', hx, hR, hview⟩ := h
  cases r with
  | ok a => exact ⟨t', hx, hR, hview⟩
  | error e => exact ⟨t', hx, hR, hview⟩

theorem Ends.mirrors_bind [Trans R R R] {a : α} {q : Action σ β} {f : α → Action τ β}
    (hx : Ends (Unseen view R) x t (.ok a))
    (hf : ∀ t', R t t' → Mirrors view R q (f a) t') : Mirrors view R q (x >>= f) t := by
  obtain ⟨t', hx, hR, hview⟩ := hx
  obtain ⟨t'', hf, hR', hview'⟩ := hf t' hR
  rw [hview] at hf hview'
  refine ⟨t'', ?_, Trans.trans hR hR', hview'⟩
  rw [bind_apply, hx]
  exact hf

theorem Mirrors.bind [Trans R R R] {q : α → Action σ β} {f : α → Action τ β}
    (hx : Mirrors view R p x t) (hf : ∀ a t', R t t' → Mirrors view R (q a) (f a) t') :
    Mirrors view R (p >>= q) (x >>= f) t := by
  obtain ⟨t', hx, hR, hview⟩ := hx
  rw [Mirrors, bind_apply, bind_apply, hx]
  rcases hp : p (view t) with ⟨e | a, u⟩
  · rw [hp] at hview
    exact ⟨t', rfl, hR, hview⟩
  · rw [hp] at hview
    obtain ⟨t'', hf, hR', hview'⟩ := hf a t' hR
    rw [hview] at hf hview'
    exact ⟨t'', hf, Trans.trans hR hR', hview'⟩

end Mirroring

end VersionedTree.Action
