import StepSequencer.Proofs.Json.Spelling
import StepSequencer.Proofs.Number.Floats

/-!
# Decoding what was encoded

`YieldsIf x a p` says when an attempt gives the value `a`: exactly under the condition `p`, and
otherwise nothing. Decoders are put together from smaller ones, and so are their conditions.

The fields of a record are found under their names (`fields?_record`). A value is nested as deep as
its arrays and objects stand in one another (`JsonValue.nesting`). A whole number decodes to itself,
and a float does if its literal stands for it.
-/

namespace StepSequencer

/-! ### Conditional results -/

/-- The attempt gives the value if the condition holds, and nothing otherwise. -/
def YieldsIf {α : Type} (x : Option α) (a : α) (p : Prop) : Prop :=
  (p → x = some a) ∧ (¬p → x = none)

namespace YieldsIf

variable {α β : Type} {x : Option α} {a : α} {b : β} {p q : Prop}

theorem of_eq (h : x = some a) : YieldsIf x a True := ⟨fun _ ↦ h, fun hno ↦ absurd trivial hno⟩

theorem of_none (h : x = none) (hp : ¬p) : YieldsIf x a p := ⟨fun hyes ↦ absurd hyes hp, fun _ ↦ h⟩

theorem congr (h : YieldsIf x a p) (hiff : q ↔ p) : YieldsIf x a q := by rwa [propext hiff]

/-- A value in two parts, the second read where the first was. -/
theorem bind {f : α → Option β} (hx : YieldsIf x a p) (hf : YieldsIf (f a) b q) :
    YieldsIf (x.bind f) b (p ∧ q) := by
  constructor
  · rintro ⟨hp, hq⟩
    rw [hx.1 hp, Option.bind_some, hf.1 hq]
  · intro hno
    by_cases hp : p
    · rw [hx.1 hp, Option.bind_some, hf.2 fun hq ↦ hno ⟨hp, hq⟩]
    · rw [hx.2 hp, Option.bind_none]

/-- The last part of a value, which goes into a constructor. -/
theorem into {f : α → β} (hx : YieldsIf x a p) : YieldsIf (x.bind fun a ↦ some (f a)) (f a) p := by
  have hlast : YieldsIf (some (f a)) (f a) True := of_eq rfl
  exact (hx.bind (f := fun a ↦ some (f a)) hlast).congr (iff_of_eq (and_true p)).symm

theorem map (f : α → β) (hx : YieldsIf x a p) : YieldsIf (x.map f) (f a) p := by
  rw [Option.map_eq_bind]
  exact hx.into

/-- A list is decoded if each of its items is. -/
theorem mapM {ι : Type} {f : β → Option α} {g : ι → β} {k : ι → α} {P : ι → Prop} {is : List ι}
    (h : ∀ i ∈ is, YieldsIf (f (g i)) (k i) (P i)) :
    YieldsIf ((is.map g).mapM f) (is.map k) (∀ i ∈ is, P i) := by
  induction is with
  | nil => exact (of_eq rfl).congr (by simp)
  | cons i is ih =>
    obtain ⟨hi, his⟩ := List.forall_mem_cons.mp h
    rw [List.map_cons, List.mapM_cons, List.forall_mem_cons]
    exact hi.bind (ih his).into

end YieldsIf

namespace JsonValue

/-! ### Nesting -/

mutual

/-- How many arrays and objects stand in one another. -/
def nesting : JsonValue → Nat
  | .array items => itemsNesting items + 1
  | .object members => membersNesting members + 1
  | _ => 0

/-- The deepest nesting among items. -/
def itemsNesting : List JsonValue → Nat
  | [] => 0
  | v :: vs => max v.nesting (itemsNesting vs)

/-- The deepest nesting among members. -/
def membersNesting : List (Option String × JsonValue) → Nat
  | [] => 0
  | (_, v) :: ms => max v.nesting (membersNesting ms)

end

@[simp] theorem nesting_text (s : String) : (text s).nesting = 0 := rfl

@[simp] theorem nesting_bool (b : Bool) : (JsonValue.bool b).nesting = 0 := rfl

@[simp] theorem nesting_int (n : Int) : (int n).nesting = 0 := rfl

@[simp] theorem nesting_ofWord (n : Int64) : (ofWord n).nesting = 0 := rfl

@[simp] theorem nesting_ofSingle (x : Float32) : (ofSingle x).nesting = 0 := by
  rw [ofSingle]
  split <;> rfl

@[simp] theorem nesting_ofDouble (x : Float) : (ofDouble x).nesting = 0 := by
  rw [ofDouble]
  split <;> rfl

@[simp] theorem nesting_tagged (key : String) (v : JsonValue) :
    (tagged key v).nesting = v.nesting + 1 :=
  congrArg Nat.succ (Nat.max_zero v.nesting)

/-- Items are nested as deep as the deepest of them. -/
theorem itemsNesting_le {vs : List JsonValue} {n : Nat} :
    itemsNesting vs ≤ n ↔ ∀ v ∈ vs, v.nesting ≤ n := by
  induction vs with
  | nil => simp [itemsNesting]
  | cons v vs ih => rw [itemsNesting, Nat.max_le, ih, List.forall_mem_cons]

/-- Members are nested as deep as the deepest of their values. -/
theorem membersNesting_le {ms : List (String × JsonValue)} {n : Nat} :
    membersNesting (named ms) ≤ n ↔ ∀ m ∈ ms, m.2.nesting ≤ n := by
  induction ms with
  | nil => simp [named, membersNesting]
  | cons m ms ih =>
    show max m.2.nesting (membersNesting (named ms)) ≤ n ↔ _
    rw [Nat.max_le, ih, List.forall_mem_cons]

@[simp] theorem nesting_array_le_succ {vs : List JsonValue} {n : Nat} :
    (array vs).nesting ≤ n + 1 ↔ ∀ v ∈ vs, v.nesting ≤ n := by
  rw [nesting, Nat.succ_le_succ_iff, itemsNesting_le]

@[simp] theorem nesting_record_le_succ {ms : List (String × JsonValue)} {n : Nat} :
    (record ms).nesting ≤ n + 1 ↔ ∀ m ∈ ms, m.2.nesting ≤ n := by
  rw [record_eq, nesting, Nat.succ_le_succ_iff, membersNesting_le]

@[simp] theorem not_nesting_array_le_zero {vs : List JsonValue} : ¬(array vs).nesting ≤ 0 := by
  rw [nesting]
  omega

@[simp] theorem not_nesting_record_le_zero {ms : List (String × JsonValue)} :
    ¬(record ms).nesting ≤ 0 := by
  rw [record_eq, nesting]
  omega

section Opened

variable {α : Type} {decode : Nat → JsonValue → Option α} {a : α} {p : Prop} {room : Nat}

/-- A decoder that opens an object with one member, at any room. -/
theorem yields_tagged {key : String} {v : JsonValue} (hzero : decode 0 (tagged key v) = none)
    (hsucc : ∀ room, YieldsIf (decode (room + 1) (tagged key v)) a (v.nesting ≤ room ∧ p)) :
    YieldsIf (decode room (tagged key v)) a ((tagged key v).nesting ≤ room ∧ p) := by
  rw [nesting_tagged]
  cases room with
  | zero => exact .of_none hzero fun h ↦ absurd h.1 (Nat.not_succ_le_zero _)
  | succ room => exact (hsucc room).congr (and_congr_left' Nat.succ_le_succ_iff)

/-- A decoder that opens a record, at any room. -/
theorem yields_record {ms : List (String × JsonValue)} (hzero : decode 0 (record ms) = none)
    (hsucc : ∀ room, YieldsIf (decode (room + 1) (record ms)) a
      ((∀ m ∈ ms, m.2.nesting ≤ room) ∧ p)) :
    YieldsIf (decode room (record ms)) a ((record ms).nesting ≤ room ∧ p) := by
  cases room with
  | zero => exact .of_none hzero fun h ↦ not_nesting_record_le_zero h.1
  | succ room => exact (hsucc room).congr (and_congr_left' nesting_record_le_succ)

/-- A decoder that opens an array, at any room. -/
theorem yields_array {vs : List JsonValue} (hzero : decode 0 (array vs) = none)
    (hsucc : ∀ room, YieldsIf (decode (room + 1) (array vs)) a ((∀ v ∈ vs, v.nesting ≤ room) ∧ p)) :
    YieldsIf (decode room (array vs)) a ((array vs).nesting ≤ room ∧ p) := by
  cases room with
  | zero => exact .of_none hzero fun h ↦ not_nesting_array_le_zero h.1
  | succ room => exact (hsucc room).congr (and_congr_left' nesting_array_le_succ)

end Opened

/-! ### Records -/

/-- The only value under the name of a member. -/
theorem valuesOf_named {ms : List (String × JsonValue)} (h : (ms.map Prod.fst).Nodup)
    {m : String × JsonValue} (hm : m ∈ ms) : valuesOf m.1 (named ms) = [m.2] := by
  have hother {n : String × JsonValue} (hne : n.1 ≠ m.1) : ¬(some n.1 == some m.1) = true := by
    rw [Option.some_beq_some, beq_iff_eq]
    exact hne
  have hfilter : (named ms).filter (·.1 == some m.1) = [(some m.1, m.2)] := by
    induction ms with
    | nil => cases hm
    | cons n ms ih =>
      obtain ⟨hn, hms⟩ := List.nodup_cons.mp h
      show ((some n.1, n.2) :: named ms).filter (·.1 == some m.1) = _
      rcases List.mem_cons.mp hm with rfl | hm
      · rw [List.filter_cons, if_pos (beq_self_eq_true (some m.1)), named,
          List.filter_eq_nil_iff.mpr]
        intro k hk
        obtain ⟨l, hl, rfl⟩ := List.mem_map.mp hk
        exact hother fun heq ↦ hn (heq ▸ List.mem_map_of_mem hl)
      · have hne : n.1 ≠ m.1 := fun heq ↦ hn (heq.symm ▸ List.mem_map_of_mem hm)
        rw [List.filter_cons, if_neg (hother hne), ih hms hm]
  rw [valuesOf, hfilter]
  rfl

/-- **The fields of a record** are its members. -/
theorem fields?_record (names : List String) (ms : List (String × JsonValue))
    (hnames : ms.map Prod.fst = names) (h : names.Nodup) :
    (record ms).fields? names = some (ms.map fun m ↦ some m.2) := by
  subst hnames
  have hnamed : (named ms).all (·.1.isSome) = true := by simp [named]
  rw [record_eq, fields?, if_pos hnamed]
  refine (YieldsIf.mapM (P := fun _ ↦ True) fun m hm ↦ .of_eq ?_).1 fun _ _ ↦ trivial
  rw [valuesOf_named h hm]

end JsonValue

/-! ### Numbers -/

/-- The float is what its literal in a stored track stands for. -/
def KeepsDouble (x : Float) : Prop :=
  JsonNumber.ofString (NumberLayout.json.double x) = some (.real x)

/-- The float is the closest one to what its literal in a stored track stands for. -/
def KeepsSingle (x : Float32) : Prop :=
  (JsonValue.number (NumberLayout.json.single x)).toSingle? = some x

namespace JsonValue

open JsonReader

/-- A whole number within the bounds is read back, if a numeral of it is read as a whole one. -/
theorem toWhole?_int {n low high : Int} (hlow : low ≤ n) (hhigh : n < high) (hword : -2 ^ 63 ≤ n)
    (hfit : n < 2 ^ 64) : (int n).toWhole? low high = some n := by
  have hnumber : (int n).toNumber? = some (.whole n) := JsonNumber.ofString_toString hword hfit
  rw [toWhole?, hnumber]
  exact if_pos ⟨hlow, hhigh⟩

theorem toWord?_ofWord (n : Int64) : (ofWord n).toWord? = some n := by
  have hlow := n.le_toInt
  have hhigh := n.toInt_lt
  rw [toWord?, ofWord, toWhole?_int hlow hhigh hlow (by omega), Option.map_some, Int64.ofInt_toInt]

/-- A finite float is read back if its literal stands for it. -/
theorem toSingle?_ofSingle {x : Float32} (hfinite : x.isFinite = true) (h : KeepsSingle x) :
    (ofSingle x).toSingle? = some x := by
  rw [ofSingle, if_pos hfinite]
  exact h

/-! ### Writable values -/

theorem writable_int (n : Int) : (int n).Writable := .number (numeral_toString n)

theorem writable_ofWord (n : Int64) : (ofWord n).Writable := writable_int n.toInt

/-- A float is written as a numeral if it is finite, and as null otherwise. -/
theorem writable_ofSingle (x : Float32) : (ofSingle x).Writable := by
  rw [ofSingle]
  split
  · next h =>
    obtain ⟨negative, mantissa, exponent, hx⟩ := Binary.exists_ofSingle h
    refine .number ?_
    rw [NumberLayout.single, hx]
    exact NumberLayout.numeral_binary
  · exact .null

theorem writable_ofDouble (x : Float) : (ofDouble x).Writable := by
  rw [ofDouble]
  split
  · next h =>
    obtain ⟨negative, mantissa, exponent, hx⟩ := Binary.exists_ofDouble h
    refine .number ?_
    rw [NumberLayout.double, hx]
    exact NumberLayout.numeral_binary
  · exact .null

theorem Writable.tagged {v : JsonValue} (h : v.Writable) (key : String) :
    (tagged key v).Writable :=
  .record (List.forall_mem_singleton.mpr h)

end JsonValue

end StepSequencer
