import Mathlib.Data.List.Forall2

/-!
# When computations succeed

A computation in `Except` that is made of parts succeeds exactly if its parts
do.  These inversions take such computations apart without opening the monad.

* `bind_eq_ok`, `map_eq_ok`, `pure_eq_ok`, `mapError_eq_ok` — one step, a change
  of the answer, the answer itself and a change of the fault;
* `bind_eq_error`, `map_eq_error`, `mapError_eq_error` — the same for failures;
* `throw_or_eq_ok` — a check in front of a computation;
* `mapM_eq_ok`, `exists_first_of_mapM_eq_error`, `exists_of_mapM_eq_error` — the same
  computation for every member of a list.
-/

namespace ByteMachine

variable {ε ε' α β : Type}

/-- Two computations in a row succeed if the second one succeeds on the answer
of the first one. -/
theorem bind_eq_ok {x : Except ε α} {f : α → Except ε β} {b : β} :
    (x >>= f) = .ok b ↔ ∃ a, x = .ok a ∧ f a = .ok b := by
  cases x <;> simp [bind, Except.bind]

/-- A computation succeeds with a changed answer if it succeeds. -/
theorem map_eq_ok {x : Except ε α} {f : α → β} {b : β} :
    (f <$> x) = .ok b ↔ ∃ a, x = .ok a ∧ f a = b := by
  cases x <;> simp [Functor.map, Except.map]

/-- Two computations in a row fail at the first one or, after it, at the second
one. -/
theorem bind_eq_error {x : Except ε α} {f : α → Except ε β} {e : ε} :
    (x >>= f) = .error e ↔ x = .error e ∨ ∃ a, x = .ok a ∧ f a = .error e := by
  cases x <;> simp [bind, Except.bind]

/-- A changed answer does not change the fault. -/
theorem map_eq_error {x : Except ε α} {f : α → β} {e : ε} :
    (f <$> x) = .error e ↔ x = .error e := by
  cases x <;> simp [Functor.map, Except.map]

/-- An answer that is given at once is the answer. -/
theorem pure_eq_ok {a b : α} : (pure a : Except ε α) = .ok b ↔ a = b := by
  simp [pure, Except.pure]

/-- Success does not depend on how a fault is reported. -/
theorem mapError_eq_ok {f : ε → ε'} {x : Except ε α} {a : α} :
    x.mapError f = .ok a ↔ x = .ok a := by
  cases x <;> simp [Except.mapError]

/-- A failure with a changed report is a failure. -/
theorem mapError_eq_error {f : ε → ε'} {x : Except ε α} {e : ε'} :
    x.mapError f = .error e ↔ ∃ cause, x = .error cause ∧ f cause = e := by
  cases x <;> simp [Except.mapError]

/-- Behind a check that throws, a computation succeeds if the check is passed and the rest
succeeds. -/
theorem throw_or_eq_ok {c : Prop} [Decidable c] {e : ε} {f : α → Except ε β} {x : Except ε β}
    {b : β} : (if c then throw e >>= f else x) = .ok b ↔ ¬ c ∧ x = .ok b := by
  by_cases hc : c
  · simp [hc, throw, throwThe, MonadExceptOf.throw, bind, Except.bind]
  · simp [hc]

/-- A computation succeeds for a whole list if it succeeds for every member, and
the answers stand in the order of the members. -/
theorem mapM_eq_ok {f : α → Except ε β} {xs : List α} {ys : List β} :
    xs.mapM f = .ok ys ↔ List.Forall₂ (fun x y => f x = .ok y) xs ys := by
  induction xs generalizing ys with
  | nil =>
      rw [List.mapM_nil, pure_eq_ok, List.forall₂_nil_left_iff]
      exact eq_comm
  | cons x xs ih =>
      rw [List.mapM_cons]
      constructor
      · intro h
        obtain ⟨y, hy, h⟩ := bind_eq_ok.mp h
        obtain ⟨rest, hrest, h⟩ := bind_eq_ok.mp h
        obtain rfl := pure_eq_ok.mp h
        exact .cons hy (ih.mp hrest)
      · intro h
        cases h with
        | cons hy hrest =>
            exact bind_eq_ok.mpr
              ⟨_, hy, bind_eq_ok.mpr ⟨_, ih.mpr hrest, pure_eq_ok.mpr rfl⟩⟩

/-- Every answer for a list is the answer for one of its members. -/
theorem exists_of_mem_mapM {f : α → Except ε β} {xs : List α} {ys : List β}
    (h : xs.mapM f = .ok ys) {y : β} (hy : y ∈ ys) : ∃ x ∈ xs, f x = .ok y := by
  rw [mapM_eq_ok] at h
  induction h with
  | nil => cases hy
  | cons hfirst hrest ih =>
      rcases List.mem_cons.mp hy with rfl | hy
      · exact ⟨_, List.mem_cons_self, hfirst⟩
      · obtain ⟨x, hx, hanswer⟩ := ih hy
        exact ⟨x, List.mem_cons_of_mem _ hx, hanswer⟩

/-- A computation fails for a list at the first member for which it fails. -/
theorem exists_first_of_mapM_eq_error {f : α → Except ε β} {xs : List α} {e : ε}
    (h : xs.mapM f = .error e) :
    ∃ front x back, xs = front ++ x :: back ∧ (∀ y ∈ front, ∃ b, f y = .ok b) ∧
      f x = .error e := by
  induction xs with
  | nil => cases h
  | cons x xs ih =>
      rw [List.mapM_cons] at h
      rcases bind_eq_error.mp h with hx | ⟨y, hy, h⟩
      · exact ⟨[], x, xs, rfl, by simp, hx⟩
      rcases bind_eq_error.mp h with hrest | ⟨rest, -, h⟩
      · obtain ⟨front, member, back, rfl, hfront, hfail⟩ := ih hrest
        refine ⟨x :: front, member, back, rfl, ?_, hfail⟩
        intro other hother
        rcases List.mem_cons.mp hother with rfl | hother
        · exact ⟨y, hy⟩
        · exact hfront other hother
      · cases h

/-- A computation that fails for a list fails for one of its members. -/
theorem exists_of_mapM_eq_error {f : α → Except ε β} {xs : List α} {e : ε}
    (h : xs.mapM f = .error e) : ∃ x ∈ xs, f x = .error e := by
  obtain ⟨front, x, back, rfl, -, hfail⟩ := exists_first_of_mapM_eq_error h
  exact ⟨x, by simp, hfail⟩

end ByteMachine
