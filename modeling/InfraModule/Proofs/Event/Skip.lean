import InfraModule.Event.Skip

/-!
# The extent of a value

Skipping stops where the value at the cursor ends. What comes after the containers that are open
does not matter until they are closed (`skipOpen_add`), so events that form whole values can be
taken out of any skip. `Value es rest` says that a well-formed value stands at the head of `es` and
that `rest` follows it: a scalar, a closed sequence of values, or a closed mapping of pairs of them.
Skipping takes exactly such a value.
-/

namespace InfraModule.Event

variable {e c : Event} {es es' rest : List Event}

/-! ## Open containers -/

/-- Where nothing is open, nothing is skipped. -/
theorem skipOpen_zero (es : List Event) : skipOpen 0 es = .ok es := by
  cases es <;> rfl

/-- Skipping several open containers skips the inner ones first. -/
theorem skipOpen_add (m n : Nat) (es : List Event) :
    skipOpen (m + n) es = (skipOpen m es).bind (skipOpen n) := by
  -- Each event opens or closes what is innermost, so that the outer `n` only stand by.
  induction es generalizing m with
  | nil =>
    cases m with
    | zero => rw [Nat.zero_add]; rfl
    | succ m => rw [Nat.add_right_comm]; rfl
  | cons e es ih =>
    cases m with
    | zero => rw [Nat.zero_add]; rfl
    | succ m =>
      rw [Nat.add_right_comm]
      cases hrole : e.kind.role with
      | leaf =>
        simp only [skipOpen, hrole]
        rw [← ih, Nat.add_right_comm]
      | opening =>
        simp only [skipOpen, hrole]
        rw [← ih, Nat.add_right_comm m 2 n]
      | closing =>
        simp only [skipOpen, hrole]
        exact ih m
      | framing => simp only [skipOpen, hrole]; rfl

/-- The end of a container closes one of those that are open. -/
theorem skipOpen_cons_closing (d : Nat) (h : e.kind.role = .closing) :
    skipOpen (d + 1) (e :: es) = skipOpen d es := by
  simp only [skipOpen, h]

/-- A scalar is skipped alone. -/
theorem skipValue_cons_leaf (h : e.kind.role = .leaf) : skipValue (e :: es) = .ok es := by
  simp only [skipValue, h]

/-- The start of a container is skipped with all that follows up to its end. -/
theorem skipValue_cons_opening (h : e.kind.role = .opening) :
    skipValue (e :: es) = skipOpen 1 es := by
  simp only [skipValue, h]

/-- Whatever is open around the cursor, skipping it all may start behind the value at the cursor. -/
theorem skipOpen_of_skipValue (d : Nat) (h : skipValue es = .ok es') :
    skipOpen (d + 1) es' = skipOpen (d + 1) es := by
  cases es with
  | nil => simp [skipValue] at h
  | cons e es =>
    cases hrole : e.kind.role with
    | leaf =>
      rw [skipValue_cons_leaf hrole, Except.ok.injEq] at h
      simp only [skipOpen, hrole, h]
    | opening =>
      rw [skipValue_cons_opening hrole] at h
      -- The container at the cursor is one more that is open, and it is closed first.
      have hsplit : skipOpen (1 + (d + 1)) es = skipOpen (d + 1) es' := by
        rw [skipOpen_add, h]
        rfl
      have hopen : skipOpen (d + 1) (e :: es) = skipOpen (1 + (d + 1)) es := by
        simp only [skipOpen, hrole]
        congr 1
        omega
      rw [hopen, hsplit]
    | closing =>
      simp only [skipValue, hrole, Except.ok.injEq] at h
      rw [h]
    | framing =>
      simp only [skipValue, hrole, Except.ok.injEq] at h
      rw [h]

/-- Skipping that ends before the events do is the same whatever comes after them. -/
theorem skipOpen_append {d : Nat} (h : skipOpen d es = .ok es') (more : List Event) :
    skipOpen d (es ++ more) = .ok (es' ++ more) := by
  -- The events behind are not looked at before the last container is closed.
  induction es generalizing d with
  | nil =>
    cases d with
    | zero =>
      rw [skipOpen_zero, Except.ok.injEq] at h
      rw [skipOpen_zero, h]
    | succ d => simp [skipOpen] at h
  | cons e es ih =>
    cases d with
    | zero =>
      rw [skipOpen_zero, Except.ok.injEq] at h
      rw [skipOpen_zero, h]
    | succ d =>
      rw [List.cons_append]
      cases hrole : e.kind.role with
      | leaf =>
        simp only [skipOpen, hrole] at h ⊢
        exact ih h
      | opening =>
        simp only [skipOpen, hrole] at h ⊢
        exact ih h
      | closing =>
        simp only [skipOpen, hrole] at h ⊢
        exact ih h
      | framing => simp [skipOpen, hrole] at h

/-- What comes after a value that is skipped does not matter. -/
theorem skipValue_append (h : skipValue es = .ok es') (more : List Event) :
    skipValue (es ++ more) = .ok (es' ++ more) := by
  cases es with
  | nil => simp [skipValue] at h
  | cons e es =>
    rw [List.cons_append]
    cases hrole : e.kind.role with
    | leaf =>
      rw [skipValue_cons_leaf hrole, Except.ok.injEq] at h
      rw [skipValue_cons_leaf hrole, h]
    | opening =>
      rw [skipValue_cons_opening hrole] at h
      rw [skipValue_cons_opening hrole, skipOpen_append h]
    | closing =>
      simp only [skipValue, hrole, Except.ok.injEq] at h ⊢
      rw [← h, List.cons_append]
    | framing =>
      simp only [skipValue, hrole, Except.ok.injEq] at h ⊢
      rw [← h, List.cons_append]

/-- Each open container has an end that is taken. -/
theorem length_of_skipOpen {d : Nat} (h : skipOpen d es = .ok es') :
    es'.length + d ≤ es.length := by
  -- Only the end of a container lets the number of open ones shrink, and it is an event itself.
  induction es generalizing d with
  | nil =>
    cases d with
    | zero => simp_all [skipOpen]
    | succ d => simp [skipOpen] at h
  | cons e es ih =>
    cases d with
    | zero =>
      rw [skipOpen_zero, Except.ok.injEq] at h
      simp [h]
    | succ d =>
      rw [List.length_cons]
      cases hrole : e.kind.role with
      | leaf =>
        simp only [skipOpen, hrole] at h
        have hle := ih h
        omega
      | opening =>
        simp only [skipOpen, hrole] at h
        have hle := ih h
        omega
      | closing =>
        simp only [skipOpen, hrole] at h
        have hle := ih h
        omega
      | framing => simp [skipOpen, hrole] at h

/-- Skipping a value takes at least one event. -/
theorem length_lt_of_skipValue (h : skipValue (e :: es) = .ok es')
    (he : e.kind.role = .leaf ∨ e.kind.role = .opening) : es'.length < (e :: es).length := by
  rcases he with hrole | hrole
  · rw [skipValue_cons_leaf hrole, Except.ok.injEq] at h
    simp [h]
  · rw [skipValue_cons_opening hrole] at h
    have hle := length_of_skipOpen h
    rw [List.length_cons]
    omega

/-- Skipping never moves back. -/
theorem length_le_of_skipValue (h : skipValue es = .ok es') : es'.length ≤ es.length := by
  cases es with
  | nil => simp [skipValue] at h
  | cons e es =>
    cases hrole : e.kind.role with
    | leaf => exact Nat.le_of_lt (length_lt_of_skipValue h (Or.inl hrole))
    | opening => exact Nat.le_of_lt (length_lt_of_skipValue h (Or.inr hrole))
    | closing => simp_all [skipValue]
    | framing => simp_all [skipValue]

/-- Skipping leaves the end of the events, whether or not it fails. -/
theorem suffix_of_skipOpen {d : Nat}
    (h : skipOpen d es = .ok es' ∨ skipOpen d es = .error es') : es' <:+ es := by
  induction es generalizing d with
  | nil => cases d <;> simp_all [skipOpen]
  | cons e es ih =>
    cases d with
    | zero => simp_all [skipOpen]
    | succ d =>
      -- An event is taken, or the framing at the cursor is what is left.
      cases hrole : e.kind.role with
      | leaf | opening | closing =>
        simp only [skipOpen, hrole] at h
        exact (ih h).trans (List.suffix_cons e es)
      | framing =>
        simp only [skipOpen, hrole, reduceCtorEq, false_or, Except.error.injEq] at h
        exact h ▸ List.suffix_rfl

/-- Skipping a value leaves the end of the events, whether or not it fails. -/
theorem suffix_of_skipValue (h : skipValue es = .ok es' ∨ skipValue es = .error es') :
    es' <:+ es := by
  cases es with
  | nil => simp_all [skipValue]
  | cons e es =>
    cases hrole : e.kind.role with
    | opening =>
      simp only [skipValue, hrole] at h
      exact (suffix_of_skipOpen h).trans (List.suffix_cons e es)
    | leaf =>
      simp only [skipValue, hrole, reduceCtorEq, or_false, Except.ok.injEq] at h
      rw [← h]
      exact List.suffix_cons e es
    | closing | framing =>
      simp only [skipValue, hrole, reduceCtorEq, or_false, Except.ok.injEq] at h
      exact h ▸ List.suffix_rfl

/-! ## Well-formed values -/

mutual

/-- A well-formed value stands at the head of the events, and `rest` follows it. -/
inductive Value : List Event → List Event → Prop
  | scalar {e : Event} {rest : List Event} (h : e.kind.role = .leaf) : Value (e :: rest) rest
  | sequence {e c : Event} {es rest : List Event} {tag : Option String}
      (he : e.kind = .sequenceStart tag) (hes : Values es (c :: rest))
      (hc : c.kind = .sequenceEnd) : Value (e :: es) rest
  | mapping {e c : Event} {es rest : List Event} {tag : Option String}
      (he : e.kind = .mappingStart tag) (hes : Entries es (c :: rest))
      (hc : c.kind = .mappingEnd) : Value (e :: es) rest

/-- Well-formed values stand one after the other, and `rest` follows them. -/
inductive Values : List Event → List Event → Prop
  | nil {rest : List Event} : Values rest rest
  | cons {es es' rest : List Event} (h : Value es es') (hs : Values es' rest) : Values es rest

/-- Keys and values, all of them well-formed, stand one pair after the other, and `rest` follows
them. -/
inductive Entries : List Event → List Event → Prop
  | nil {rest : List Event} : Entries rest rest
  | cons {es es' es'' rest : List Event} (hkey : Value es es') (hvalue : Value es' es'')
      (hs : Entries es'' rest) : Entries es rest

end

/-- A well-formed value starts with a scalar or the start of a container. -/
theorem Value.exists_cons (h : Value es rest) :
    ∃ e es', es = e :: es' ∧ (e.kind.role = .leaf ∨ e.kind.role = .opening) := by
  cases h with
  | scalar h => exact ⟨_, _, rfl, Or.inl h⟩
  | sequence he hes hc => exact ⟨_, _, rfl, Or.inr (by rw [he]; rfl)⟩
  | mapping he hes hc => exact ⟨_, _, rfl, Or.inr (by rw [he]; rfl)⟩

mutual

/-- Skipping takes a well-formed value and no more. -/
theorem Value.skipValue : ∀ {es rest : List Event}, Value es rest → Event.skipValue es = .ok rest
  | _, _, .scalar h => skipValue_cons_leaf h
  | _, _, .sequence he hes hc => by
    rw [skipValue_cons_opening (by simp [he, EventKind.role]), hes.skipOpen 0,
      skipOpen_cons_closing 0 (by simp [hc, EventKind.role]), skipOpen_zero]
  | _, _, .mapping he hes hc => by
    rw [skipValue_cons_opening (by simp [he, EventKind.role]), hes.skipOpen 0,
      skipOpen_cons_closing 0 (by simp [hc, EventKind.role]), skipOpen_zero]

/-- Skipping what is open passes over well-formed values. -/
theorem Values.skipOpen : ∀ {es rest : List Event}, Values es rest → ∀ d,
    Event.skipOpen (d + 1) es = Event.skipOpen (d + 1) rest
  | _, _, .nil, _ => rfl
  | _, _, .cons h hs, d => (skipOpen_of_skipValue d h.skipValue).symm.trans (hs.skipOpen d)

/-- Skipping what is open passes over well-formed entries. -/
theorem Entries.skipOpen : ∀ {es rest : List Event}, Entries es rest → ∀ d,
    Event.skipOpen (d + 1) es = Event.skipOpen (d + 1) rest
  | _, _, .nil, _ => rfl
  | _, _, .cons hkey hvalue hs, d => by
    rw [← skipOpen_of_skipValue d hkey.skipValue, ← skipOpen_of_skipValue d hvalue.skipValue]
    exact hs.skipOpen d

end

end InfraModule.Event
