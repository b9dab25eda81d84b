import Mathlib.Data.List.Basic
import Mathlib.Data.List.Nodup

/-!
# Entries of which the last counts

Entries are pairs of a key and a value, and of those with one key the last counts. What that is does
not depend on the entries of other keys, nor, where the keys differ, on any order.
-/

namespace StepSequencer.Entries

variable {κ α : Type}

/-- A list of at most one member has one order. -/
theorem eq_of_perm_of_length_le_one {as bs : List α} (hperm : as.Perm bs) (h : bs.length ≤ 1) :
    as = bs := by
  rcases bs with - | ⟨b, - | ⟨c, bs⟩⟩
  · exact hperm.eq_nil
  · exact hperm.eq_singleton
  · simp at h

variable [BEq κ] [LawfulBEq κ] {entries entries' : List (κ × α)}

/-- The last value of a key, if it has one. -/
def last? (entries : List (κ × α)) (key : κ) : Option α :=
  (entries.filter (·.1 == key)).getLast?.map (·.2)

theorem last?_concat_self (entries : List (κ × α)) (key : κ) (value : α) :
    last? (entries ++ [(key, value)]) key = some value := by
  rw [last?, List.filter_append, List.filter_singleton, beq_self_eq_true, cond_true,
    List.getLast?_concat]
  rfl

/-- The entry of another key changes nothing. -/
theorem last?_concat_of_ne {key other : κ} (hne : other ≠ key) (entries : List (κ × α))
    (value : α) : last? (entries ++ [(other, value)]) key = last? entries key := by
  rw [last?, List.filter_append, List.filter_singleton, beq_eq_false_iff_ne.mpr hne, cond_false,
    List.append_nil]
  rfl

/-- Entries with different keys are at most one for each key. -/
theorem filter_eq_of_nodup (hperm : entries'.Perm entries) (h : (entries.map Prod.fst).Nodup)
    (key : κ) : entries'.filter (·.1 == key) = entries.filter (·.1 == key) := by
  refine eq_of_perm_of_length_le_one (hperm.filter _) ?_
  rw [← List.countP_eq_length_filter]
  have hcount := List.nodup_iff_count_le_one.mp h key
  rwa [List.count, List.countP_map] at hcount

end StepSequencer.Entries
