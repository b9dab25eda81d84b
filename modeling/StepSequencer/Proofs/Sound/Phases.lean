import Mathlib.Data.Nat.PSub
import StepSequencer.Sound.Envelope

/-!
# The phases of an envelope tile the time line

An envelope finds the phase of a frame by taking away one length after the other, so that it never
adds lengths up. `IsAt` says where a frame lies by the sums instead: each phase starts where the
lengths before it end, and lasts for its own length.

* `phaseAt_eq_iff`: the two agree, so every frame lies in exactly one phase, before its end. No
  length is taken away from a smaller number (`phaseAt?_eq_some`).
* `rank_phaseAt`: the phase is the number of `boundaries` that the frame has passed. This is why
  phases come in order, and it holds whichever lengths are zero.
* `levelAt_eq_outline`: a frame lies before the end of its phase, so the line through a phase is
  never one of length zero.
-/

namespace StepSequencer

/-- The place of the phase among the phases. -/
def Phase.rank : Phase → Nat
  | .attack => 0
  | .decay => 1
  | .sustain => 2
  | .release => 3
  | .done => 4

theorem Phase.rank_injective {p q : Phase} (h : p.rank = q.rank) : p = q := by
  cases p <;> cases q <;> first | rfl | cases h

namespace Envelope

/-! ### Where a frame lies -/

/-- Frame `n` lies in a phase, a number of frames after its start. A sustain without a length has no
end, and after the release the envelope is over. -/
inductive IsAt (e : Envelope) (n : Nat) : Phase → Nat → Prop where
  | attack (within : n < e.attack) : e.IsAt n .attack n
  | decay {position : Nat} (starts : e.attack + position = n) (within : position < e.decay) :
    e.IsAt n .decay position
  | sustain {position length : Nat} (lasts : e.sustain = some length)
    (starts : e.attack + e.decay + position = n) (within : position < length) :
    e.IsAt n .sustain position
  | hold {position : Nat} (holds : e.sustain = none)
    (starts : e.attack + e.decay + position = n) : e.IsAt n .sustain position
  | release {position length : Nat} (lasts : e.sustain = some length)
    (starts : e.attack + e.decay + length + position = n) (within : position < e.release) :
    e.IsAt n .release position
  | done {length : Nat} (lasts : e.sustain = some length)
    (ended : e.attack + e.decay + length + e.release ≤ n) : e.IsAt n .done 0

/-- The phase of a frame and how far it is into it, where a length is only taken away from a number
that is not smaller. -/
def phaseAt? (e : Envelope) (n : Nat) : Option (Phase × Nat) :=
  if n < e.attack then some (.attack, n)
  else (n.psub e.attack).bind fun n ↦
    if n < e.decay then some (.decay, n)
    else (n.psub e.decay).bind fun n ↦
      match e.sustain with
      | none => some (.sustain, n)
      | some sustain =>
        if n < sustain then some (.sustain, n)
        else (n.psub sustain).bind fun n ↦
          if n < e.release then some (.release, n) else some (.done, 0)

variable {e : Envelope} {n position : Nat} {phase : Phase}

/-- No length is taken away from a smaller number. -/
theorem phaseAt?_eq_some (e : Envelope) (n : Nat) : e.phaseAt? n = some (e.phaseAt n) := by
  rw [phaseAt?, phaseAt]
  by_cases hattack : n < e.attack
  · rw [if_pos hattack, if_pos hattack]
  · rw [if_neg hattack, if_neg hattack, Nat.psub_eq_sub (Nat.not_lt.mp hattack), Option.bind_some]
    dsimp only
    by_cases hdecay : n - e.attack < e.decay
    · rw [if_pos hdecay, if_pos hdecay]
    · rw [if_neg hdecay, if_neg hdecay, Nat.psub_eq_sub (Nat.not_lt.mp hdecay), Option.bind_some]
      rcases e.sustain with - | length
      · rfl
      · dsimp only
        by_cases hsustain : n - e.attack - e.decay < length
        · rw [if_pos hsustain, if_pos hsustain]
        · rw [if_neg hsustain, if_neg hsustain, Nat.psub_eq_sub (Nat.not_lt.mp hsustain),
            Option.bind_some]
          split <;> rfl

/-- Taking lengths away finds the phase in which the frame lies. -/
theorem isAt_phaseAt (e : Envelope) (n : Nat) : e.IsAt n (e.phaseAt n).1 (e.phaseAt n).2 := by
  rw [phaseAt]
  split
  · next hattack => exact .attack hattack
  · next hattack =>
    dsimp only
    split
    · next hdecay => exact .decay (by omega) hdecay
    · next hdecay =>
      split
      · next hholds => exact .hold hholds (by omega)
      · next length hlasts =>
        split
        · next hsustain => exact .sustain hlasts (by omega) hsustain
        · next hsustain =>
          split
          · next hrelease => exact .release hlasts (by omega) hrelease
          · next hrelease => exact .done hlasts (by omega)

/-! ### The order of the phases -/

/-- The frames with which another phase begins: the exact sums of the lengths before. -/
def boundaries (e : Envelope) : List Nat :=
  e.attack :: (e.attack + e.decay) :: match e.sustain with
    | none => []
    | some length => [e.attack + e.decay + length, e.attack + e.decay + length + e.release]

theorem countP_boundaries_of_holds (h : e.sustain = none) :
    e.boundaries.countP (· ≤ n) =
      (if e.attack ≤ n then 1 else 0) + if e.attack + e.decay ≤ n then 1 else 0 := by
  simp only [boundaries, h, List.countP_cons, List.countP_nil, decide_eq_true_eq]
  omega

theorem countP_boundaries_of_lasts {length : Nat} (h : e.sustain = some length) :
    e.boundaries.countP (· ≤ n) =
      (if e.attack ≤ n then 1 else 0) + (if e.attack + e.decay ≤ n then 1 else 0) +
        (if e.attack + e.decay + length ≤ n then 1 else 0) +
          if e.attack + e.decay + length + e.release ≤ n then 1 else 0 := by
  simp only [boundaries, h, List.countP_cons, List.countP_nil, decide_eq_true_eq]
  omega

/-- A frame has passed as many boundaries as there are phases before its own. -/
theorem IsAt.rank_eq (h : e.IsAt n phase position) :
    phase.rank = e.boundaries.countP (· ≤ n) := by
  -- without an end to the sustain there are two boundaries, and four with one
  rcases hsustain : e.sustain with - | length
  · rw [countP_boundaries_of_holds hsustain]
    cases h with
    | attack within => rw [if_neg (by omega), if_neg (by omega)]; rfl
    | decay starts within => rw [if_pos (by omega), if_neg (by omega)]; rfl
    | sustain lasts starts within => cases hsustain.symm.trans lasts
    | hold holds starts => rw [if_pos (by omega), if_pos (by omega)]; rfl
    | release lasts starts within => cases hsustain.symm.trans lasts
    | done lasts ended => cases hsustain.symm.trans lasts
  · rw [countP_boundaries_of_lasts hsustain]
    cases h with
    | attack within =>
      rw [if_neg (by omega), if_neg (by omega), if_neg (by omega), if_neg (by omega)]
      rfl
    | decay starts within =>
      rw [if_pos (by omega), if_neg (by omega), if_neg (by omega), if_neg (by omega)]
      rfl
    | sustain lasts starts within =>
      cases hsustain.symm.trans lasts
      rw [if_pos (by omega), if_pos (by omega), if_neg (by omega), if_neg (by omega)]
      rfl
    | hold holds starts => cases hsustain.symm.trans holds
    | release lasts starts within =>
      cases hsustain.symm.trans lasts
      rw [if_pos (by omega), if_pos (by omega), if_pos (by omega), if_neg (by omega)]
      rfl
    | done lasts ended =>
      cases hsustain.symm.trans lasts
      rw [if_pos (by omega), if_pos (by omega), if_pos (by omega), if_pos (by omega)]
      rfl

theorem rank_phaseAt (e : Envelope) (n : Nat) :
    (e.phaseAt n).1.rank = e.boundaries.countP (· ≤ n) := (e.isAt_phaseAt n).rank_eq

/-- **Phases come in order.** A later frame has passed the boundaries that an earlier one has. -/
theorem rank_phaseAt_le {m n : Nat} (e : Envelope) (h : m ≤ n) :
    (e.phaseAt m).1.rank ≤ (e.phaseAt n).1.rank := by
  rw [rank_phaseAt, rank_phaseAt]
  refine List.countP_mono_left fun boundary _ hpassed ↦ ?_
  exact decide_eq_true (Nat.le_trans (of_decide_eq_true hpassed) h)

/-- A frame lies in one phase only, and at one place of it. -/
theorem IsAt.unique {other : Phase} {place : Nat} (h : e.IsAt n phase position)
    (h' : e.IsAt n other place) : phase = other ∧ position = place := by
  obtain rfl : phase = other := Phase.rank_injective (h.rank_eq.trans h'.rank_eq.symm)
  refine ⟨rfl, ?_⟩
  cases h with
  | attack => cases h'; rfl
  | decay starts => cases h' with | decay starts' => omega
  | sustain lasts starts =>
    cases h' with
    | sustain lasts' starts' => omega
    | hold holds => cases lasts.symm.trans holds
  | hold holds starts =>
    cases h' with
    | sustain lasts => cases lasts.symm.trans holds
    | hold holds' starts' => omega
  | release lasts starts =>
    cases h' with
    | release lasts' starts' =>
      cases lasts.symm.trans lasts'
      omega
  | done => cases h'; rfl

theorem phaseAt_eq_iff : e.phaseAt n = (phase, position) ↔ e.IsAt n phase position := by
  constructor
  · intro h
    have hat := e.isAt_phaseAt n
    rwa [h] at hat
  · intro h
    obtain ⟨hphase, hposition⟩ := (e.isAt_phaseAt n).unique h
    exact Prod.ext hphase hposition

/-! ### The gain -/

/-- The straight line between two levels, for a length that is not zero. -/
def slope (start stop : Float32) (position length : Nat) : Float32 :=
  start + (stop - start) * (position.toUInt64.toFloat32 / length.toUInt64.toFloat32)

theorem ramp_eq_slope {start stop : Float32} {length : Nat} (h : position < length) :
    ramp start stop position length = slope start stop position length :=
  if_neg (Nat.ne_zero_of_lt h)

/-- The gain in each phase: straight lines from nothing to the attack level, the decay level, the
sustain level and to nothing again. -/
def outline (e : Envelope) : Phase → Nat → Option Float32
  | .attack, position => some (slope 0 e.attackLevel position e.attack)
  | .decay, position => some (slope e.attackLevel e.decayLevel position e.decay)
  | .sustain, position =>
    some (match e.sustain with
      | some length => slope e.decayLevel e.sustainLevel position length
      | none => e.sustainLevel)
  | .release, position => some (slope e.sustainLevel 0 position e.release)
  | .done, _ => none

theorem IsAt.levelAt_eq (h : e.IsAt n phase position) : e.levelAt n = e.outline phase position := by
  rw [levelAt, phaseAt_eq_iff.mpr h]
  cases h with
  | attack within => exact congrArg some (ramp_eq_slope within)
  | decay _ within => exact congrArg some (ramp_eq_slope within)
  | sustain lasts _ within =>
    rw [outline, lasts]
    exact congrArg some (ramp_eq_slope within)
  | hold holds => rw [outline, holds]
  | release _ _ within => exact congrArg some (ramp_eq_slope within)
  | done => rfl

/-- There is no gain after the release, and only then. -/
theorem levelAt_eq_none_iff : e.levelAt n = none ↔
    ∃ length, e.sustain = some length ∧ e.attack + e.decay + length + e.release ≤ n := by
  constructor
  · intro h
    rcases hphase : e.phaseAt n with ⟨phase, position⟩
    have hat := phaseAt_eq_iff.mp hphase
    rw [hat.levelAt_eq] at h
    cases hat with
    | attack => cases h
    | decay => cases h
    | sustain => cases h
    | hold => cases h
    | release => cases h
    | done lasts ended => exact ⟨_, lasts, ended⟩
  · rintro ⟨length, lasts, ended⟩
    rw [(IsAt.done lasts ended).levelAt_eq, outline]

/-- **Phases.** Each frame lies in exactly one phase, which is the one that is found; no length is
taken away from a smaller number on the way. Phases come in order, the gain lies on the straight
lines through them, and it ends with the release, for good. -/
theorem phases_tile (e : Envelope) (n : Nat) :
    e.phaseAt? n = some (e.phaseAt n) ∧
    (∀ phase position, e.phaseAt n = (phase, position) ↔ e.IsAt n phase position) ∧
    (∀ m, n ≤ m → (e.phaseAt n).1.rank ≤ (e.phaseAt m).1.rank) ∧
    e.levelAt n = e.outline (e.phaseAt n).1 (e.phaseAt n).2 ∧
    (e.levelAt n = none ↔
      ∃ length, e.sustain = some length ∧ e.attack + e.decay + length + e.release ≤ n) ∧
    (e.levelAt n = none → ∀ m, n ≤ m → e.levelAt m = none) := by
  refine ⟨e.phaseAt?_eq_some n, fun _ _ ↦ phaseAt_eq_iff, fun m hm ↦ e.rank_phaseAt_le hm,
    (e.isAt_phaseAt n).levelAt_eq, levelAt_eq_none_iff, fun hnone m hm ↦ ?_⟩
  obtain ⟨length, lasts, ended⟩ := levelAt_eq_none_iff.mp hnone
  exact levelAt_eq_none_iff.mpr ⟨length, lasts, Nat.le_trans ended hm⟩

/-- An envelope without an attack and a sustain of no length: its release comes right after the
decay, and ends with frame 5. -/
theorem phases_tile_skipping :
    let e : Envelope := ⟨0, 2, some 0, 3, 1, 0.5, 0.25⟩
    (1 ≤ 2 ∧ (e.phaseAt 1).1.rank ≤ (e.phaseAt 2).1.rank) ∧
    (e.phaseAt 1 = (.decay, 1) ∧ e.phaseAt 2 = (.release, 0)) ∧
    (e.levelAt 5 = none ∧ 5 ≤ 9 ∧ e.levelAt 9 = none) := by
  intro e
  obtain ⟨-, hphase, hordered, -, -, -⟩ := phases_tile e 1
  obtain ⟨-, hnext, -, -, -, -⟩ := phases_tile e 2
  obtain ⟨-, -, -, -, hends, hover⟩ := phases_tile e 5
  have hnone : e.levelAt 5 = none := hends.mpr ⟨0, rfl, by decide⟩
  exact ⟨⟨by decide, hordered 2 (by decide)⟩,
    ⟨(hphase .decay 1).mpr (.decay rfl (by decide)),
      (hnext .release 0).mpr (.release rfl rfl (by decide))⟩,
    hnone, by decide, hover hnone 9 (by decide)⟩

end Envelope

end StepSequencer
