import StepSequencer.Proofs.Attempts
import StepSequencer.Proofs.Number.Floats
import StepSequencer.Track.Basic

/-!
# Playable tracks

What a track that passed its check holds: a positive tempo, at least one step, rules that passed
their own check, and finite floats everywhere outside of the rules (`Track.isFinite_of_mem_singles`).
-/

namespace StepSequencer

open Attempts (bind_eq_ok_iff forM_eq_ok_iff mapError_eq_ok_iff)

/-- The loop over settings lets none pass that is not finite. -/
theorem isFinite_of_forIn {p : Preset} {keys : List PresetKey}
    (h : (forIn keys PUnit.unit fun key _ ↦
        if (!(p.get key).isFinite || decide (p.get key < 0)) = true then do
          throw (PresetError.negative key (p.get key))
          pure (ForInStep.yield PUnit.unit)
        else pure (ForInStep.yield PUnit.unit) : Except PresetError PUnit) = .ok ()) :
    ∀ key ∈ keys, (p.get key).isFinite = true := by
  induction keys with
  | nil => exact List.forall_mem_nil _
  | cons key keys ih =>
    rw [List.forIn_cons] at h
    split at h
    · cases h
    · next hgood =>
      rw [Bool.or_eq_true, not_or, Bool.not_eq_true', Bool.not_eq_false] at hgood
      exact List.forall_mem_cons.mpr ⟨hgood.1, ih h⟩

/-- Every setting of a preset that can be played is finite. -/
theorem Preset.isFinite_get {p : Preset} (h : p.validate = .ok ()) (key : PresetKey) :
    (p.get key).isFinite = true := by
  rw [Preset.validate] at h
  split at h
  case isFalse => cases h
  next hstart =>
  obtain ⟨hlow, hhigh⟩ := Bool.and_eq_true_iff.mp hstart
  obtain ⟨⟨⟩, hkeys, hsustain⟩ := bind_eq_ok_iff.mp h
  have hnonnegative := isFinite_of_forIn hkeys
  cases key with
  | start => exact isFinite_of_mem_unit (of_decide_eq_true hlow) (of_decide_eq_true hhigh)
  | sustain =>
    split at hsustain
    · assumption
    · cases hsustain
  | _ => exact hnonnegative _ (by decide)

/-- The slots of a track that can be played have rules and presets that can be used. -/
theorem forall_of_forM {slots : List Slot} (h : slots.forM Track.validateSlot = .ok ()) :
    ∀ s ∈ slots, s.rule.validate = .ok () ∧ s.preset.validate = .ok () := by
  intro s hs
  obtain ⟨⟨⟩, hrule, hpreset⟩ := bind_eq_ok_iff.mp (forM_eq_ok_iff.mp h s hs)
  exact ⟨mapError_eq_ok_iff.mp hrule, mapError_eq_ok_iff.mp hpreset⟩

namespace Track

variable {t : Track}

/-- What a track that can be played holds. -/
theorem validate_eq_ok (h : t.validate = .ok ()) :
    (t.bpm.isFinite = true ∧ 0 < t.bpm) ∧ t.stepCount ≠ 0 ∧
      (t.beatsPerStep.isFinite = true ∧ 0 < t.beatsPerStep) ∧
      ∀ s ∈ t.slots, s.rule.validate = .ok () ∧ s.preset.validate = .ok () := by
  rw [validate] at h
  split at h
  case isFalse => cases h
  next hbpm =>
  dsimp only at h
  split at h
  case isTrue => cases h
  next hsteps =>
  split at h
  case isFalse => cases h
  next hbeats =>
  obtain ⟨_, -, hslots⟩ := bind_eq_ok_iff.mp h
  obtain ⟨hfinite, hpositive⟩ := Bool.and_eq_true_iff.mp hbpm
  obtain ⟨hfinite', hpositive'⟩ := Bool.and_eq_true_iff.mp hbeats
  exact ⟨⟨hfinite, of_decide_eq_true hpositive⟩, hsteps, ⟨hfinite', of_decide_eq_true hpositive'⟩,
    forall_of_forM hslots⟩

/-- The 32-bit floats of a track: its tempo, the length of its steps and the presets. -/
def singles (t : Track) : List Float32 :=
  t.bpm :: t.beatsPerStep :: t.slots.flatMap fun s ↦ PresetKey.all.map s.preset.get

theorem isFinite_of_mem_singles (h : t.validate = .ok ()) : ∀ x ∈ t.singles, x.isFinite = true := by
  obtain ⟨⟨hbpm, -⟩, -, ⟨hbeats, -⟩, hslots⟩ := validate_eq_ok h
  refine List.forall_mem_cons.mpr ⟨hbpm, List.forall_mem_cons.mpr ⟨hbeats, fun x hx ↦ ?_⟩⟩
  obtain ⟨s, hs, hx⟩ := List.mem_flatMap.mp hx
  obtain ⟨key, -, rfl⟩ := List.mem_map.mp hx
  exact Preset.isFinite_get (hslots s hs).2 key

end Track

end StepSequencer
