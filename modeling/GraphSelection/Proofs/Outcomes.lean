import GraphSelection.Failure

/-!
Steps that may fail. A sequence of steps has succeeded when each of its steps has; the
equivalences here take a success apart into the successes of the steps, without a state and with
one.
-/
namespace GraphSelection

section Steps

variable {ε α β : Type}

theorem except_bind_ok (x : Except ε α) (f : α → Except ε β) (b : β) :
    (x >>= f) = .ok b ↔ ∃ a, x = .ok a ∧ f a = .ok b := by
  cases x <;> simp [bind, Except.bind]

theorem except_pure_ok (a b : α) : (pure a : Except ε α) = .ok b ↔ a = b := by
  simp [pure, Except.pure]

theorem except_map_ok (f : α → β) (x : Except ε α) (b : β) :
    x.map f = .ok b ↔ ∃ a, x = .ok a ∧ f a = b := by
  cases x <;> simp [Except.map]

theorem except_throw_ok (e : ε) (a : α) : (throw e : Except ε α) = .ok a ↔ False := by
  simp [throw, throwThe, MonadExceptOf.throw]

theorem exists_of_isOk {x : Except ε α} (h : x.isOk = true) : ∃ a, x = .ok a := by
  cases x with
  | error e => cases h
  | ok a => exact ⟨a, rfl⟩

/-- A step whose result passes a test has such a result: it does not pass by failing. -/
theorem exists_of_any {test : α → Bool} {x : Except ε α} (h : x.toOption.any test = true) :
    ∃ a, x = .ok a ∧ test a = true := by
  cases x with
  | error e => cases h
  | ok a => exact ⟨a, rfl, h⟩

/-- Each result of a list of steps is the result of one of them. -/
theorem mem_of_mapM_ok {f : α → Except ε β} {xs : List α} {ys : List β}
    (h : xs.mapM f = .ok ys) : ∀ y ∈ ys, ∃ x ∈ xs, f x = .ok y := by
  induction xs generalizing ys with
  | nil =>
    simp only [List.mapM_nil, except_pure_ok] at h
    subst h
    simp
  | cons x rest ih =>
    simp only [List.mapM_cons, except_bind_ok, except_pure_ok] at h
    obtain ⟨y, hy, ys', hrest, rfl⟩ := h
    intro z hz
    rcases List.mem_cons.mp hz with rfl | hz
    · exact ⟨x, List.mem_cons_self, hy⟩
    · obtain ⟨x', hx', heq⟩ := ih hrest z hz
      exact ⟨x', List.mem_cons_of_mem x hx', heq⟩

/-- Each of a list of steps has a result among the results. -/
theorem ok_of_mapM_ok {f : α → Except ε β} {xs : List α} {ys : List β}
    (h : xs.mapM f = .ok ys) : ∀ x ∈ xs, ∃ y ∈ ys, f x = .ok y := by
  induction xs generalizing ys with
  | nil => simp
  | cons x rest ih =>
    simp only [List.mapM_cons, except_bind_ok, except_pure_ok] at h
    obtain ⟨y, hy, ys', hrest, rfl⟩ := h
    intro z hz
    rcases List.mem_cons.mp hz with rfl | hz
    · exact ⟨y, List.mem_cons_self, hy⟩
    · obtain ⟨y', hy', heq⟩ := ih hrest z hz
      exact ⟨y', List.mem_cons_of_mem y hy', heq⟩

theorem length_of_mapM_ok {f : α → Except ε β} {xs : List α} {ys : List β}
    (h : xs.mapM f = .ok ys) : ys.length = xs.length := by
  induction xs generalizing ys with
  | nil =>
    simp only [List.mapM_nil, except_pure_ok] at h
    subst h
    rfl
  | cons x rest ih =>
    simp only [List.mapM_cons, except_bind_ok, except_pure_ok] at h
    obtain ⟨y, _, ys', hrest, rfl⟩ := h
    simp [ih hrest]

/-- What holds at the start of a fold and is kept by each of its steps holds at the end. -/
theorem foldlM_ok {f : β → α → Except ε β} {xs : List α} {b c : β} (p : β → Prop) (hb : p b)
    (hstep : ∀ b x b', x ∈ xs → p b → f b x = .ok b' → p b') (h : xs.foldlM f b = .ok c) : p c := by
  induction xs generalizing b with
  | nil =>
    simp only [List.foldlM_nil, except_pure_ok] at h
    exact h ▸ hb
  | cons x rest ih =>
    simp only [List.foldlM_cons, except_bind_ok] at h
    obtain ⟨b', hx, hrest⟩ := h
    exact ih (hstep b x b' List.mem_cons_self hb hx)
      (fun b x b' hmem => hstep b x b' (List.mem_cons_of_mem _ hmem)) hrest

end Steps

section State

variable {ε σ α β : Type}

theorem bind_ok (x : StateT σ (Except ε) α) (f : α → StateT σ (Except ε) β) (s u : σ) (b : β) :
    (x >>= f) s = .ok (b, u) ↔ ∃ a t, x s = .ok (a, t) ∧ f a t = .ok (b, u) := by
  change (x s >>= fun p => f p.1 p.2) = .ok (b, u) ↔ _
  rw [except_bind_ok]
  constructor
  · rintro ⟨⟨a, t⟩, h⟩
    exact ⟨a, t, h⟩
  · rintro ⟨a, t, h⟩
    exact ⟨(a, t), h⟩

theorem pure_ok (a b : α) (s t : σ) :
    (pure a : StateT σ (Except ε) α) s = .ok (b, t) ↔ a = b ∧ s = t := by
  change Except.ok (a, s) = .ok (b, t) ↔ _
  simp

theorem lift_ok (x : Except ε α) (s t : σ) (a : α) :
    (liftM x : StateT σ (Except ε) α) s = .ok (a, t) ↔ x = .ok a ∧ s = t := by
  change (x >>= fun a => pure (a, s)) = .ok (a, t) ↔ _
  cases x <;> simp [bind, Except.bind, pure, Except.pure]

end State

end GraphSelection
