import StepSequencer.Proofs.Attempts
import StepSequencer.Script.Reading

/-!
# Readings

A reading is a computation that takes notes and may fail. Whether it fails, and what it gives, does
not depend on what was noted before; `result` is what it comes to where nothing was.

`Gives` and `Fails` say what a reading does after any notices, which is what a proof that something
can be read puts together. `MayGive` and `MayFail` say what it did after some notices; they are what
a proof about something that was read takes apart. To fail is to refuse the script or to abort.
-/

namespace StepSequencer.Script

open Attempts (mapError_eq_ok_iff)

variable {α β : Type}

/-- What the reading gives or fails with, if nothing was noted before it. -/
def result (x : Reading α) : Except (Halt ReadError) α := (x.run.run []).1

/-! ### Readings that succeed -/

/-- The reading gives the result, whatever was noted before it. -/
def Gives (x : Reading α) (a : α) : Prop :=
  ∀ notices, ∃ more, x.run.run notices = (.ok a, more)

theorem gives_pure (a : α) : Gives (pure a) a := fun notices ↦ ⟨notices, rfl⟩

/-- Noting something gives nothing and never fails. -/
theorem gives_notice (n : ReadNotice) : Gives (notice n) () := fun notices ↦ ⟨notices ++ [n], rfl⟩

/-- What each part of a reading gives, the whole gives. -/
theorem Gives.bind {x : Reading α} {f : α → Reading β} {a : α} {b : β} (hx : Gives x a)
    (hf : Gives (f a) b) : Gives (x >>= f) b := by
  intro notices
  obtain ⟨more, hmore⟩ := hx notices
  obtain ⟨all, hall⟩ := hf more
  refine ⟨all, ?_⟩
  rw [ExceptT.run_bind, StateT.run_bind, hmore]
  exact hall

/-- A reading goes on with a result that was come by without noting anything. -/
theorem gives_resume {ε : Type} {context : ε → ReadError} {x : Except (Halt ε) α} {a : α}
    (h : x = .ok a) : Gives (resume context x) a := by
  rw [h]
  exact gives_pure a

/-- A result that can only be refused, and was not, is gone on with in the same way. -/
theorem gives_within {ε : Type} {context : ε → ReadError} {x : Except ε α} {a : α}
    (h : x = .ok a) : Gives (within context x) a :=
  gives_resume (mapError_eq_ok_iff.mpr h)

/-- A context changes nothing about a success. -/
theorem Gives.inContext {context : ReadError → ReadError} {x : Reading α} {a : α} (h : Gives x a) :
    Gives (inContext context x) a := by
  intro notices
  obtain ⟨more, hmore⟩ := h notices
  refine ⟨more, ?_⟩
  rw [Script.inContext, ExceptT.run_tryCatch, StateT.run_bind, hmore]
  rfl

/-- The reading ends without a result, whatever was noted before it. -/
def Fails (x : Reading α) (e : Halt ReadError) : Prop :=
  ∀ notices, ∃ more, x.run.run notices = (.error e, more)

/-- An end that was come by without noting anything is put into the context. -/
theorem fails_resume {ε : Type} {context : ε → ReadError} {x : Except (Halt ε) α} {e : Halt ε}
    (h : x = .error e) : Fails (resume context x) (e.map context) := by
  rw [h]
  exact fun notices ↦ ⟨notices, rfl⟩

/-- Nothing is read after a failure. -/
theorem Fails.bind {x : Reading α} {e : Halt ReadError} (h : Fails x e) (f : α → Reading β) :
    Fails (x >>= f) e := by
  intro notices
  obtain ⟨more, hmore⟩ := h notices
  refine ⟨more, ?_⟩
  rw [ExceptT.run_bind, StateT.run_bind, hmore]
  rfl

/-- A reading that fails whatever was noted fails where nothing was. -/
theorem Fails.fst_run {x : Reading α} {e : Halt ReadError} (h : Fails x e) :
    (x.run.run []).1 = .error e := by
  obtain ⟨more, hmore⟩ := h []
  exact congrArg Prod.fst hmore

/-- A reading fails as its second part does, if its first part succeeds. -/
theorem Gives.bind_fails {x : Reading α} {f : α → Reading β} {a : α} {e : Halt ReadError}
    (hx : Gives x a) (hf : Fails (f a) e) : Fails (x >>= f) e := by
  intro notices
  obtain ⟨more, hmore⟩ := hx notices
  obtain ⟨all, hall⟩ := hf more
  refine ⟨all, ?_⟩
  rw [ExceptT.run_bind, StateT.run_bind, hmore]
  exact hall

/-- A walk over a list succeeds if each of its steps does. -/
theorem gives_forM {f : α → Reading Unit} {xs : List α} (h : ∀ x ∈ xs, Gives (f x) ()) :
    Gives (xs.forM f) () := by
  induction xs with
  | nil => exact gives_pure ()
  | cons x xs ih =>
    rw [List.forall_mem_cons] at h
    exact h.1.bind (ih h.2)

theorem gives_ite {p : Prop} [Decidable p] {x y : Reading α} {a : α} (hx : Gives x a)
    (hy : Gives y a) : Gives (if p then x else y) a := by
  split
  · exact hx
  · exact hy

theorem gives_foldlM_nil (f : β → α → Reading β) (b : β) : Gives (List.foldlM f b []) b := gives_pure b

theorem Gives.foldlM_cons {f : β → α → Reading β} {b c d : β} {x : α} {xs : List α}
    (hx : Gives (f b x) c) (hxs : Gives (xs.foldlM f c) d) : Gives ((x :: xs).foldlM f b) d := by
  rw [List.foldlM_cons]
  exact hx.bind hxs

/-- A walk over a list fails where it fails after a beginning that it got through. -/
theorem Gives.foldlM_append_fails {f : β → α → Reading β} {b c : β} {e : Halt ReadError}
    {xs ys : List α} (hxs : Gives (xs.foldlM f b) c) (hys : Fails (ys.foldlM f c) e) :
    Fails ((xs ++ ys).foldlM f b) e := by
  rw [List.foldlM_append]
  exact hxs.bind_fails hys

/-- A walk over two lists, one after the other, is two walks. -/
theorem Gives.foldlM_append {f : β → α → Reading β} {b c d : β} {xs ys : List α}
    (hxs : Gives (xs.foldlM f b) c) (hys : Gives (ys.foldlM f c) d) :
    Gives ((xs ++ ys).foldlM f b) d := by
  rw [List.foldlM_append]
  exact hxs.bind hys

/-! ### Readings taken apart -/

/-- The reading gives the result, after some notices. -/
def MayGive (x : Reading α) (a : α) : Prop := ∃ notices more, x.run.run notices = (.ok a, more)

/-- The reading ends without a result, after some notices. -/
def MayFail (x : Reading α) (e : Halt ReadError) : Prop :=
  ∃ notices more, x.run.run notices = (.error e, more)

/-- What a reading gave once, it may give. -/
theorem mayGive_of_run {x : Reading α} {notices : List ReadNotice} {a : α}
    (h : (x.run.run notices).1 = .ok a) : MayGive x a :=
  ⟨notices, (x.run.run notices).2, Prod.ext h rfl⟩

/-- How a reading failed once, it may fail. -/
theorem mayFail_of_run {x : Reading α} {notices : List ReadNotice} {e : Halt ReadError}
    (h : (x.run.run notices).1 = .error e) : MayFail x e :=
  ⟨notices, (x.run.run notices).2, Prod.ext h rfl⟩

theorem MayGive.of_pure {a b : α} (h : MayGive (pure a) b) : a = b := by
  obtain ⟨_, _, h⟩ := h
  exact Except.ok.inj (Prod.mk.inj h).1

/-- What ends without a result gives none. -/
theorem not_mayGive_throw {e : Halt ReadError} {a : α} : ¬MayGive (throw e) a := by
  rintro ⟨_, _, h⟩
  cases (Prod.mk.inj h).1

theorem not_mayGive_refuse {e : ReadError} {a : α} : ¬MayGive (refuse e) a := not_mayGive_throw

theorem not_mayFail_pure {a : α} {e : Halt ReadError} : ¬MayFail (pure a) e := by
  rintro ⟨_, _, h⟩
  cases (Prod.mk.inj h).1

theorem MayFail.of_throw {e e' : Halt ReadError} (h : MayFail (throw e : Reading α) e') :
    e = e' := by
  obtain ⟨_, _, h⟩ := h
  exact Except.error.inj (Prod.mk.inj h).1

/-- A refusal is the end that it says. -/
theorem MayFail.of_refuse {e : ReadError} {e' : Halt ReadError}
    (h : MayFail (refuse e : Reading α) e') : e' = .refused e := h.of_throw.symm

/-- Noting something is no reason to fail. -/
theorem not_mayFail_notice {n : ReadNotice} {e : Halt ReadError} : ¬MayFail (notice n) e := by
  rintro ⟨_, _, h⟩
  cases (Prod.mk.inj h).1

/-- Each part of a reading that gave a result gave one. -/
theorem MayGive.of_bind {x : Reading α} {f : α → Reading β} {b : β} (h : MayGive (x >>= f) b) :
    ∃ a, MayGive x a ∧ MayGive (f a) b := by
  obtain ⟨notices, all, h⟩ := h
  rcases hx : x.run.run notices with ⟨e | a, more⟩
  · rw [ExceptT.run_bind, StateT.run_bind, hx] at h
    cases (Prod.mk.inj h).1
  · rw [ExceptT.run_bind, StateT.run_bind, hx] at h
    exact ⟨a, ⟨notices, more, hx⟩, more, all, h⟩

/-- What fails, fails in its first part or after it. -/
theorem MayFail.of_bind {x : Reading α} {f : α → Reading β} {e : Halt ReadError}
    (h : MayFail (x >>= f) e) : MayFail x e ∨ ∃ a, MayGive x a ∧ MayFail (f a) e := by
  obtain ⟨notices, all, h⟩ := h
  rcases hx : x.run.run notices with ⟨e' | a, more⟩
  · rw [ExceptT.run_bind, StateT.run_bind, hx] at h
    obtain rfl := Except.error.inj (Prod.mk.inj h).1
    exact .inl ⟨notices, more, hx⟩
  · rw [ExceptT.run_bind, StateT.run_bind, hx] at h
    exact .inr ⟨a, ⟨notices, more, hx⟩, more, all, h⟩

/-- What each step of a fold keeps, the fold keeps. -/
theorem MayGive.foldlM_invariant {f : β → α → Reading β} {b b' : β} {xs : List α} {Inv : β → Prop}
    (h : MayGive (xs.foldlM f b) b')
    (hstep : ∀ b x b', Inv b → MayGive (f b x) b' → Inv b') (hb : Inv b) : Inv b' := by
  induction xs generalizing b with
  | nil => exact h.of_pure ▸ hb
  | cons x xs ih =>
    rw [List.foldlM_cons] at h
    obtain ⟨between, hfirst, hrest⟩ := h.of_bind
    exact ih hrest (hstep b x between hb hfirst)

theorem MayGive.of_ite {p : Prop} [Decidable p] {x y : Reading α} {a : α}
    (h : MayGive (if p then x else y) a) : MayGive x a ∨ MayGive y a := by
  split at h
  · exact .inl h
  · exact .inr h

/-- A reading goes on only with a success. -/
theorem MayGive.of_resume {ε : Type} {context : ε → ReadError} {x : Except (Halt ε) α} {a : α}
    (h : MayGive (resume context x) a) : x = .ok a := by
  rcases x with e | b
  · exact absurd h not_mayGive_throw
  · exact congrArg Except.ok h.of_pure

/-- A reading goes on only with what was not refused. -/
theorem MayGive.of_within {ε : Type} {context : ε → ReadError} {x : Except ε α} {a : α}
    (h : MayGive (within context x) a) : x = .ok a := mapError_eq_ok_iff.mp h.of_resume

/-- A context of a computation outside is put on its end. -/
theorem MayFail.of_resume {ε : Type} {context : ε → ReadError} {x : Except (Halt ε) α}
    {e : Halt ReadError} (h : MayFail (resume context x) e) :
    ∃ cause, x = .error cause ∧ e = cause.map context := by
  rcases x with cause | a
  · exact ⟨cause, rfl, h.of_throw.symm⟩
  · exact absurd h not_mayFail_pure

/-- A context makes no success out of a failure. -/
theorem MayGive.of_inContext {context : ReadError → ReadError} {x : Reading α} {a : α}
    (h : MayGive (inContext context x) a) : MayGive x a := by
  obtain ⟨notices, more, h⟩ := h
  rcases hx : x.run.run notices with ⟨e | b, rest⟩
  · rw [inContext, ExceptT.run_tryCatch, StateT.run_bind, hx] at h
    cases (Prod.mk.inj h).1
  · rw [inContext, ExceptT.run_tryCatch, StateT.run_bind, hx] at h
    obtain rfl := Except.ok.inj (Prod.mk.inj h).1
    exact ⟨notices, rest, hx⟩

/-- A failure within a context has that context. -/
theorem MayFail.of_inContext {context : ReadError → ReadError} {x : Reading α} {e : Halt ReadError}
    (h : MayFail (inContext context x) e) : ∃ cause : Halt ReadError, e = cause.map context := by
  obtain ⟨notices, more, h⟩ := h
  rcases hx : x.run.run notices with ⟨cause | b, rest⟩
  · rw [inContext, ExceptT.run_tryCatch, StateT.run_bind, hx] at h
    exact ⟨cause, (Except.error.inj (Prod.mk.inj h).1).symm⟩
  · rw [inContext, ExceptT.run_tryCatch, StateT.run_bind, hx] at h
    cases (Prod.mk.inj h).1

end StepSequencer.Script
