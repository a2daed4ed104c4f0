/-!
# Results of stateful operations

Operations that change a state and may be refused are taken apart into their parts: what a whole
operation gives is said by what its parts give, and a condition on its result (`Post`) is reduced to
conditions on theirs.
-/

namespace InfraModule.Result

variable {ε σ α β : Type} {x : EStateM ε σ α} {f : α → EStateM ε σ β} {s u : σ}
  {a : α} {b : β} {e : ε}

/-- If the first of two operations succeeds, the second goes on from what it gives. -/
theorem bind_of_ok (h : x s = .ok a u) : (x >>= f) s = f a u := by
  change EStateM.bind x f s = _
  simp only [EStateM.bind, h]

/-- If the first of two operations fails, both together fail alike. -/
theorem bind_of_error (h : x s = .error e u) : (x >>= f) s = .error e u := by
  change EStateM.bind x f s = _
  simp only [EStateM.bind, h]

/-- Only the result of the first operation counts for what follows it. -/
theorem bind_congr {y : EStateM ε σ α} (h : x s = y s) : (x >>= f) s = (y >>= f) s := by
  change EStateM.bind x f s = EStateM.bind y f s
  simp only [EStateM.bind, h]

/-- What follows an operation matters only where the operation succeeds. -/
theorem bind_congr_of_ok {g : α → EStateM ε σ β} (h : ∀ a u, x s = .ok a u → f a u = g a u) :
    (x >>= f) s = (x >>= g) s := by
  cases hx : x s with
  | ok a u => rw [bind_of_ok hx, bind_of_ok hx, h a u hx]
  | error e u => rw [bind_of_error hx, bind_of_error hx]

/-- Asking for the state gives it and keeps it. -/
theorem get_eq_ok {s' : σ} : (get : EStateM ε σ σ) s = .ok s' u ↔ s = s' ∧ s = u := by
  change EStateM.Result.ok s s = .ok s' u ↔ _
  simp

/-- Changing the state always succeeds. -/
theorem modify_apply (g : σ → σ) : (modify g : EStateM ε σ PUnit) s = .ok ⟨⟩ (g s) := rfl

/-- An operation whose answer is dropped succeeds where it does, in the same state. -/
theorem discard_eq_ok {c : PUnit} : (discard x) s = .ok c u ↔ ∃ a, x s = .ok a u := by
  change EStateM.map (Function.const α PUnit.unit) x s = .ok c u ↔ _
  unfold EStateM.map
  cases h : x s <;> simp

/-- An operation whose answer is dropped fails where it does, in the same state. -/
theorem discard_eq_error : (discard x) s = .error e u ↔ x s = .error e u := by
  change EStateM.map (Function.const α PUnit.unit) x s = .error e u ↔ _
  unfold EStateM.map
  cases h : x s <;> simp

/-- The state that an operation leaves, whether or not it succeeds. -/
def final {ε σ α : Type} : EStateM.Result ε σ α → σ
  | .ok _ s => s
  | .error _ s => s

/-- Changing the answer leaves the state alone. -/
theorem final_bind_pure (x : EStateM ε σ α) (g : α → β) (s : σ) :
    final ((x >>= fun a => pure (g a)) s) = final (x s) := by
  cases h : x s with
  | error e u => rw [bind_of_error h]; rfl
  | ok a u => rw [bind_of_ok h]; rfl

/-- Dropping the answer leaves the state alone. -/
theorem final_discard (x : EStateM ε σ α) (s : σ) : final (discard x s) = final (x s) := by
  change final (EStateM.map (Function.const α PUnit.unit) x s) = _
  unfold EStateM.map
  cases x s <;> rfl

/-! ## Conditions on the result -/

/-- What is to hold of the result of an operation: `Q` if it succeeds, and `E` if it fails. -/
def Post (x : EStateM ε σ α) (s : σ) (Q : α → σ → Prop) (E : ε → σ → Prop) : Prop :=
  match x s with
  | .ok a u => Q a u
  | .error e u => E e u

section Post

variable {Q Q' : α → σ → Prop} {R : β → σ → Prop} {E E' : ε → σ → Prop}

/-- The condition on two operations in a row is one on the first. -/
theorem post_bind :
    Post (x >>= f) s R E ↔ Post x s (fun a u => Post (f a) u R E) E := by
  change (match EStateM.bind x f s with
    | .ok b u => R b u
    | .error e u => E e u) ↔ _
  unfold EStateM.bind Post
  cases x s <;> rfl

/-- A condition on a changed answer is one on the answer it was made from. -/
theorem post_map {g : α → β} : Post (g <$> x) s R E ↔ Post x s (fun a u => R (g a) u) E := by
  change (match EStateM.map g x s with
    | .ok b u => R b u
    | .error e u => E e u) ↔ _
  unfold EStateM.map Post
  cases x s <;> rfl

/-- Where an operation succeeds, only the condition on success counts. -/
theorem post_of_ok (h : x s = .ok a u) : Post x s Q E ↔ Q a u := by
  rw [Post, h]

/-- Where an operation fails, only the condition on failure counts. -/
theorem post_of_error (h : x s = .error e u) : Post x s Q E ↔ E e u := by
  rw [Post, h]

/-- A result that is a success meets the condition on success. -/
theorem Post.of_ok (hpost : Post x s Q E) (h : x s = .ok a u) : Q a u :=
  (post_of_ok h).mp hpost

/-- A result that is a failure meets the condition on failure. -/
theorem Post.of_error (hpost : Post x s Q E) (h : x s = .error e u) : E e u := by
  rwa [Post, h] at hpost

/-- An operation that cannot fail succeeds. -/
theorem Post.exists_ok (hpost : Post x s Q E) (hE : ∀ e u, ¬ E e u) :
    ∃ a u, x s = .ok a u ∧ Q a u := by
  cases h : x s with
  | ok a u => exact ⟨a, u, rfl, hpost.of_ok h⟩
  | error e u => exact (hE e u (hpost.of_error h)).elim

/-- A condition on the state that is left, whatever the outcome. -/
theorem post_final {P : σ → Prop} :
    Post x s (fun _ u => P u) (fun _ u => P u) ↔ P (final (x s)) := by
  unfold Post
  cases x s <;> rfl

/-- Weaker conditions hold as well. -/
theorem Post.mono (h : Post x s Q E) (hQ : ∀ a u, Q a u → Q' a u) (hE : ∀ e u, E e u → E' e u) :
    Post x s Q' E' := by
  unfold Post at h ⊢
  split
  · next a u hx =>
    rw [hx] at h
    exact hQ a u h
  · next e u hx =>
    rw [hx] at h
    exact hE e u h

/-- Two conditions that hold of a result hold together. -/
theorem Post.and (h : Post x s Q E) (h' : Post x s Q' E') :
    Post x s (fun a u => Q a u ∧ Q' a u) (fun e u => E e u ∧ E' e u) := by
  unfold Post at h h' ⊢
  split
  · next a u hx =>
    rw [hx] at h h'
    exact ⟨h, h'⟩
  · next e u hx =>
    rw [hx] at h h'
    exact ⟨h, h'⟩

end Post

/-! ## Operations over lists -/

/-- What is done for each element of a list depends on what is done for its elements only. -/
theorem mapM_congr {m : Type → Type} [Monad m] [LawfulMonad m] {α β : Type} {f g : α → m β}
    {xs : List α} (h : ∀ a ∈ xs, f a = g a) : xs.mapM f = xs.mapM g := by
  induction xs with
  | nil => rfl
  | cons a xs ih =>
    rw [List.mapM_cons, List.mapM_cons, h a List.mem_cons_self,
      ih fun b hb => h b (List.mem_cons_of_mem a hb)]

/-- It depends on what is done in the states that come about only. -/
theorem mapM_congr_of_invariant {ε σ α β : Type} {f g : α → EStateM ε σ β} {P : σ → Prop}
    {xs : List α} {s : σ} (hs : P s) (hfg : ∀ a ∈ xs, ∀ s, P s → f a s = g a s)
    (hstep : ∀ a ∈ xs, ∀ s, P s → ∀ b u, f a s = .ok b u → P u) :
    xs.mapM f s = xs.mapM g s := by
  induction xs generalizing s with
  | nil => rfl
  | cons a xs ih =>
    obtain ⟨hfga, hfgxs⟩ := List.forall_mem_cons.mp hfg
    obtain ⟨hstepa, hstepxs⟩ := List.forall_mem_cons.mp hstep
    rw [List.mapM_cons, List.mapM_cons]
    rw [bind_congr (hfga s hs).symm]
    cases ha : f a s with
    | error e u => rw [bind_of_error ha, bind_of_error ha]
    | ok b u =>
      rw [bind_of_ok ha, bind_of_ok ha]
      exact bind_congr (ih (hstepa s hs b u ha) hfgxs hstepxs)

/-- What each operation keeps, whether or not it succeeds, holds after all of them. -/
theorem final_mapM {ε σ α β : Type} {f : α → EStateM ε σ β} {P : σ → Prop} {xs : List α} {s : σ}
    (hs : P s) (hstep : ∀ a ∈ xs, ∀ s, P s → P (final (f a s))) : P (final (xs.mapM f s)) := by
  induction xs generalizing s with
  | nil => exact hs
  | cons a xs ih =>
    obtain ⟨ha, hxs⟩ := List.forall_mem_cons.mp hstep
    have hfirst := ha s hs
    rw [List.mapM_cons]
    cases hfa : f a s with
    | error e u =>
      rw [bind_of_error hfa]
      rwa [hfa] at hfirst
    | ok b u =>
      rw [hfa] at hfirst
      rw [bind_of_ok hfa, final_bind_pure]
      exact ih hfirst hxs

end InfraModule.Result
