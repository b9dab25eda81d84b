import Mathlib.Data.List.Basic
import StepSequencer.Screen.Window

/-!
# Windows are pages

A width cuts the steps into pages of that length, of which the last one may be shorter. The window
of a current step is the page it lies on (`ofWidth_eq_page`), and a step lies on the page that its
quotient by the width counts (`mem_page_iff`). So two pages share no step unless they are the same
page, and every step is on one.

A width of zero has only empty pages, and a width that holds all steps needs none.
-/

namespace StepSequencer.Screen.Window

variable {steps width : Nat} {current : Option Nat}

@[simp] theorem length_steps (w : Window) : w.steps.length = w.stop - w.start := List.length_range'

theorem mem_steps_iff {w : Window} {s : Nat} : s ∈ w.steps ↔ w.start ≤ s ∧ s < w.stop := by
  rw [steps, List.mem_range'_1]
  omega

/-! ### Pages -/

/-- The `k`-th page of the steps, from zero. -/
def page (steps width k : Nat) : Window := ⟨k * width, min (k * width + width) steps⟩

/-- A step lies on the page that its quotient counts. -/
theorem mem_page_iff {k s : Nat} (hwidth : 0 < width) :
    s ∈ (page steps width k).steps ↔ s / width = k ∧ s < steps := by
  rw [mem_steps_iff, Nat.div_eq_iff hwidth]
  show k * width ≤ s ∧ s < min (k * width + width) steps ↔ _
  omega

theorem page_disjoint {j k : Nat} (hwidth : 0 < width) (hne : j ≠ k) :
    (page steps width j).steps.Disjoint (page steps width k).steps := by
  intro s hj hk
  exact hne (((mem_page_iff hwidth).mp hj).1.symm.trans ((mem_page_iff hwidth).mp hk).1)

/-- A page before the last one is full. -/
theorem length_page {k : Nat} (hk : k < (steps - 1) / width) :
    (page steps width k).steps.length = width := by
  have hnext : (k + 1) * width ≤ steps - 1 :=
    Nat.le_trans (Nat.mul_le_mul_right width hk) (Nat.div_mul_le_self _ _)
  rw [Nat.succ_mul] at hnext
  rw [length_steps]
  show min (k * width + width) steps - k * width = width
  omega

/-! ### Windows -/

theorem ofWidth_of_le (hwidth : width < 2 ^ 32) (h : steps ≤ width) :
    ofWidth steps width current = ⟨0, steps⟩ := by
  rw [ofWidth, Nat.mod_eq_of_lt hwidth, if_pos h]

/-- The step that a window is scrolled to: without a current step the first one, and beyond the
steps the last one. -/
def shown (steps : Nat) (current : Option Nat) : Nat := min (current.getD 0) (steps - 1)

/-- Where not everything fits, the window is the page of the step that it is scrolled to. -/
theorem ofWidth_eq_page (hwidth : width < 2 ^ 32) (h : width < steps) :
    ofWidth steps width current = page steps width (shown steps current / width) := by
  rw [ofWidth, Nat.mod_eq_of_lt hwidth, if_neg (Nat.not_le.mpr h)]
  rcases Nat.eq_zero_or_pos width with rfl | hpos
  · rfl
  · rw [Nat.max_eq_left hpos]
    rfl

theorem shown_some {c : Nat} (h : c < steps) : shown steps (some c) = c :=
  Nat.min_eq_left (Nat.le_sub_one_of_lt h)

theorem shown_lt (h : 0 < steps) : shown steps current < steps :=
  Nat.lt_of_le_of_lt (Nat.min_le_right _ _) (Nat.sub_lt h Nat.one_pos)

/-- The windows of a width page through the steps. -/
structure PagesThrough (steps width : Nat) : Prop where
  /-- A window lies within the steps. -/
  inside : ∀ current, (ofWidth steps width current).start ≤ (ofWidth steps width current).stop ∧
    (ofWidth steps width current).stop ≤ steps
  /-- It is at most as long as the width. -/
  narrow : ∀ current, (ofWidth steps width current).steps.length ≤ width
  /-- It shows the current step, if there is one. -/
  shows : 0 < width → ∀ c < steps, c ∈ (ofWidth steps width (some c)).steps
  whole_iff : ∀ current, ofWidth steps width current = ⟨0, steps⟩ ↔ steps ≤ width
  empty : width = 0 → 0 < steps → ∀ current, (ofWidth steps width current).steps = []
  /-- Two windows are the same or share no step. -/
  apart : 0 < width → ∀ c d, ofWidth steps width c = ofWidth steps width d ∨
    (ofWidth steps width c).steps.Disjoint (ofWidth steps width d).steps
  covers : 0 < width → ∀ s, s < steps ↔ ∃ c < steps, s ∈ (ofWidth steps width (some c)).steps
  /-- Where not everything fits, each window but that of the last step is full. -/
  full : 0 < width → width < steps → ∀ c < steps,
    ofWidth steps width (some c) ≠ ofWidth steps width (some (steps - 1)) →
      (ofWidth steps width (some c)).steps.length = width

/-- Where everything fits, there is one window. -/
theorem pagesThrough_of_le (hwidth : width < 2 ^ 32) (hle : steps ≤ width) :
    PagesThrough steps width := by
  have hwhole (current : Option Nat) : ofWidth steps width current = ⟨0, steps⟩ :=
    ofWidth_of_le hwidth hle
  have hmem (s : Nat) : s ∈ (⟨0, steps⟩ : Window).steps ↔ s < steps := by
    rw [mem_steps_iff]
    exact and_iff_right s.zero_le
  constructor
  case inside => exact fun current ↦ hwhole current ▸ ⟨steps.zero_le, Nat.le_refl steps⟩
  case narrow =>
    intro current
    rw [hwhole, length_steps]
    exact hle
  case shows => exact fun _ c hc ↦ hwhole (some c) ▸ (hmem c).mpr hc
  case whole_iff => exact fun current ↦ iff_of_true (hwhole current) hle
  case empty => exact fun hzero hpos ↦ by omega
  case apart => exact fun _ c d ↦ .inl ((hwhole c).trans (hwhole d).symm)
  case covers =>
    refine fun _ s ↦ ⟨fun hs ↦ ⟨s, hs, hwhole (some s) ▸ (hmem s).mpr hs⟩, ?_⟩
    rintro ⟨c, -, hs⟩
    exact (hmem s).mp (hwhole (some c) ▸ hs)
  case full => exact fun _ hlt ↦ by omega

/-- Where not everything fits, the windows are the pages. -/
theorem pagesThrough_of_lt (hwidth : width < 2 ^ 32) (hlt : width < steps) :
    PagesThrough steps width := by
  have hpage (current : Option Nat) :
      ofWidth steps width current = page steps width (shown steps current / width) :=
    ofWidth_eq_page hwidth hlt
  have hpageSome {c : Nat} (hc : c < steps) :
      ofWidth steps width (some c) = page steps width (c / width) := by rw [hpage, shown_some hc]
  have hnarrow (current : Option Nat) : (ofWidth steps width current).steps.length ≤ width := by
    rw [hpage, length_steps]
    show min (_ * width + width) steps - _ * width ≤ width
    omega
  have hshows (hpos : 0 < width) (c : Nat) (hc : c < steps) :
      c ∈ (ofWidth steps width (some c)).steps := by
    rw [hpageSome hc, mem_page_iff hpos]
    exact ⟨rfl, hc⟩
  constructor
  case inside =>
    intro current
    have hstart : shown steps current / width * width < steps :=
      Nat.lt_of_le_of_lt (Nat.div_mul_le_self _ _) (shown_lt (Nat.zero_lt_of_lt hlt))
    rw [hpage]
    exact ⟨Nat.le_min.mpr ⟨Nat.le_add_right _ _, Nat.le_of_lt hstart⟩, Nat.min_le_right _ _⟩
  case narrow => exact hnarrow
  case shows => exact hshows
  case whole_iff =>
    refine fun current ↦ iff_of_false (fun hwhole ↦ ?_) (Nat.not_le.mpr hlt)
    have hlength := hnarrow current
    rw [hwhole, length_steps] at hlength
    exact Nat.not_le.mpr hlt hlength
  case empty =>
    intro hzero _ current
    exact List.eq_nil_of_length_eq_zero (Nat.le_zero.mp (hzero ▸ hnarrow current))
  case apart =>
    intro hpos c d
    rw [hpage, hpage]
    -- windows on two pages share no step, as a step tells its page
    by_cases heq : shown steps c / width = shown steps d / width
    · exact .inl (congrArg (page steps width) heq)
    · exact .inr (page_disjoint hpos heq)
  case covers =>
    refine fun hpos s ↦ ⟨fun hs ↦ ⟨s, hs, hshows hpos s hs⟩, ?_⟩
    rintro ⟨c, hc, hs⟩
    rw [hpageSome hc] at hs
    exact ((mem_page_iff hpos).mp hs).2
  case full =>
    intro _ _ c hc hne
    -- only the page of the last step can be short
    have hlast : steps - 1 < steps := Nat.sub_lt (Nat.zero_lt_of_lt hlt) Nat.one_pos
    rw [hpageSome hc, hpageSome hlast] at hne
    have hle : c / width ≤ (steps - 1) / width := Nat.div_le_div_right (Nat.le_sub_one_of_lt hc)
    rw [hpageSome hc]
    exact length_page (Nat.lt_of_le_of_ne hle fun heq ↦ hne (congrArg (page steps width) heq))

/-- **Windows page through the steps**, for all sizes that together fit a word of 32 bits; and so
does then every number that a window is found by. -/
theorem ofWidth_pagesThrough (h : steps + width < 2 ^ 32) :
    PagesThrough steps width ∧ ∀ current, (ofWidth steps width current).start + width < 2 ^ 32 := by
  have hwidth : width < 2 ^ 32 := Nat.lt_of_le_of_lt (Nat.le_add_left _ _) h
  have hpages : PagesThrough steps width :=
    (Nat.lt_or_ge width steps).elim (pagesThrough_of_lt hwidth) (pagesThrough_of_le hwidth)
  refine ⟨hpages, fun current ↦ ?_⟩
  obtain ⟨hstart, hstop⟩ := hpages.inside current
  omega

/-- Fifty-one steps in twenty columns take three pages, of which the last is shorter. -/
theorem ofWidth_pagesThrough_three :
    51 + 20 < 2 ^ 32 ∧ PagesThrough 51 20 ∧
      [none, some 19, some 20, some 45].map (ofWidth 51 20) =
        [⟨0, 20⟩, ⟨0, 20⟩, ⟨20, 40⟩, ⟨40, 51⟩] := by
  exact ⟨by decide, (ofWidth_pagesThrough (by decide)).1, by decide⟩

end StepSequencer.Screen.Window
