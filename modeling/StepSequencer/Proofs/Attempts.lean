/-!
# Computations that may fail

When a computation with errors succeeds: exactly if each of its parts does. It fails with the error
of the first part that does not.
-/

namespace StepSequencer.Attempts

variable {ε ε' α β : Type}

theorem bind_eq_ok_iff {x : Except ε α} {f : α → Except ε β} {b : β} :
    (x >>= f) = .ok b ↔ ∃ a, x = .ok a ∧ f a = .ok b := by
  constructor
  · intro h
    rcases x with e | a
    · cases h
    · exact ⟨a, rfl, h⟩
  · rintro ⟨a, rfl, h⟩
    exact h

theorem bind_eq_error_iff {x : Except ε α} {f : α → Except ε β} {e : ε} :
    (x >>= f) = .error e ↔ x = .error e ∨ ∃ a, x = .ok a ∧ f a = .error e := by
  rcases x with e' | a
  · constructor
    · intro h
      exact .inl (congrArg Except.error (Except.error.inj h))
    · rintro (h | ⟨a, ⟨⟩, -⟩)
      exact congrArg Except.error (Except.error.inj h)
  · constructor
    · intro h
      exact .inr ⟨a, rfl, h⟩
    · rintro (⟨⟨⟩⟩ | ⟨_, ⟨⟩, h⟩)
      exact h

theorem map_eq_ok_iff {x : Except ε α} {f : α → β} {b : β} :
    x.map f = .ok b ↔ ∃ a, x = .ok a ∧ f a = b := by
  constructor
  · intro h
    rcases x with e | a
    · cases h
    · exact ⟨a, rfl, Except.ok.inj h⟩
  · rintro ⟨a, rfl, rfl⟩
    rfl

theorem mapError_eq_ok_iff {x : Except ε α} {f : ε → ε'} {a : α} :
    x.mapError f = .ok a ↔ x = .ok a := by
  constructor
  · intro h
    rcases x with e | b
    · cases h
    · exact congrArg Except.ok (Except.ok.inj h)
  · rintro rfl
    rfl

theorem toOption_eq_some_iff {x : Except ε α} {a : α} : x.toOption = some a ↔ x = .ok a := by
  constructor
  · intro h
    rcases x with e | b
    · cases h
    · exact congrArg Except.ok (Option.some.inj h)
  · rintro rfl
    rfl

/-- Two parts that fail with one error, each unless a condition holds. -/
theorem bind_eq_ite {p q : Prop} [Decidable p] [Decidable q] {x : Except ε α} {f : α → Except ε β}
    {a : α} {b : β} {e : ε} (hx : x = if p then .ok a else .error e)
    (hf : f a = if q then .ok b else .error e) :
    (x >>= f) = if p ∧ q then .ok b else .error e := by
  subst hx
  by_cases hp : p
  · simp only [hp, true_and]
    exact hf
  · rw [if_neg hp, if_neg fun h ↦ hp h.1]
    rfl

/-- Where each member has one result or fails with one error, so do all members together. -/
theorem mapM_ite {p : α → Prop} [DecidablePred p] {g : α → β} {e : ε} (as : List α) :
    as.mapM (fun a ↦ if p a then Except.ok (g a) else .error e) =
      if ∀ a ∈ as, p a then .ok (as.map g) else .error e := by
  induction as with
  | nil => rfl
  | cons a as ih =>
    have hrest : (as.mapM (fun a ↦ if p a then Except.ok (g a) else .error e) >>= fun bs ↦
        pure (g a :: bs)) = if ∀ a ∈ as, p a then .ok (g a :: as.map g) else .error e := by
      rw [ih]
      split <;> rfl
    rw [List.mapM_cons]
    refine Eq.trans (bind_eq_ite rfl hrest) ?_
    simp only [List.forall_mem_cons, List.map_cons]

/-- A walk over a list succeeds exactly if each member passes. -/
theorem forM_eq_ok_iff {f : α → Except ε Unit} {as : List α} :
    forM as f = .ok () ↔ ∀ a ∈ as, f a = .ok () := by
  induction as with
  | nil => exact iff_of_true rfl (List.forall_mem_nil _)
  | cons a as ih =>
    rw [List.forM_cons, bind_eq_ok_iff, List.forall_mem_cons, ← ih]
    exact ⟨fun ⟨_, ha, has⟩ ↦ ⟨ha, has⟩, fun ⟨ha, has⟩ ↦ ⟨(), ha, has⟩⟩

/-- It fails with the error of the first member that does not pass. -/
theorem forM_eq_error_iff {f : α → Except ε Unit} {as : List α} {e : ε} :
    forM as f = .error e ↔ ∃ before a after, as = before ++ a :: after ∧
      (∀ b ∈ before, f b = .ok ()) ∧ f a = .error e := by
  constructor
  · intro h
    induction as with
    | nil => cases h
    | cons a as ih =>
      rw [List.forM_cons, bind_eq_error_iff] at h
      rcases h with ha | ⟨_, ha, has⟩
      · exact ⟨[], a, as, rfl, List.forall_mem_nil _, ha⟩
      · obtain ⟨before, b, after, rfl, hbefore, hb⟩ := ih has
        exact ⟨a :: before, b, after, rfl, List.forall_mem_cons.mpr ⟨ha, hbefore⟩, hb⟩
  · rintro ⟨before, a, after, rfl, hbefore, ha⟩
    rw [List.forM_append, bind_eq_error_iff]
    refine .inr ⟨(), forM_eq_ok_iff.mpr hbefore, ?_⟩
    rw [List.forM_cons, bind_eq_error_iff]
    exact .inl ha

end StepSequencer.Attempts
