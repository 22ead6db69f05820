/-
Strict values by their parts: an array is strict when its items are, and an object when the values
of its members are.
-/
import Homeserver.Json.Strict
import Homeserver.Proofs.Table

namespace Homeserver.Json

/-- A value without a number that a strict value may not hold. -/
def Strict (v : Json) : Prop := v.firstUnsafe = none

theorem checkStrict_ok {v : Json} : v.checkStrict = .ok () ↔ v.Strict := by
  unfold checkStrict Strict
  cases v.firstUnsafe with
  | none => exact ⟨fun _ => rfl, fun _ => rfl⟩
  | some e => exact ⟨fun h => (nomatch h), fun h => (nomatch h)⟩

theorem firstUnsafeItem_eq_none {items : List Json} :
    ∀ {i : Nat}, firstUnsafeItem i items = none ↔ ∀ v ∈ items, v.Strict := by
  induction items with
  | nil => intro i; simp [firstUnsafeItem]
  | cons v items ih =>
    intro i
    rw [List.forall_mem_cons, ← ih (i := i + 1), firstUnsafeItem, Strict]
    cases v.firstUnsafe <;> simp

theorem firstUnsafeMember_eq_none {members : Members} :
    firstUnsafeMember members = none ↔ ∀ row ∈ members, row.2.Strict := by
  induction members with
  | nil => simp [firstUnsafeMember]
  | cons row members ih =>
    obtain ⟨key, v⟩ := row
    rw [List.forall_mem_cons, ← ih, firstUnsafeMember, Strict]
    cases v.firstUnsafe <;> simp

theorem strict_arr {items : List Json} : (Json.arr items).Strict ↔ ∀ v ∈ items, v.Strict := by
  unfold Strict
  rw [firstUnsafe]
  exact firstUnsafeItem_eq_none

theorem strict_obj {members : Members} :
    (Json.obj members).Strict ↔ ∀ row ∈ members, row.2.Strict := by
  unfold Strict
  rw [firstUnsafe]
  exact firstUnsafeMember_eq_none

@[simp] theorem strict_str (s : String) : (Json.str s).Strict := by
  simp [Strict, firstUnsafe]

theorem strict_ofStrings (items : List String) : (ofStrings items).Strict := by
  rw [ofStrings, strict_arr, List.forall_mem_map]
  exact fun s _ => strict_str s

/-! ## Integers -/

/-- An integer of at most 53 bits and a sign. -/
def Safe (n : Int) : Prop := -maxSafeInteger ≤ n ∧ n ≤ maxSafeInteger

theorem int?_eq_some {n k : Int} : (Json.int n).int? = some k ↔
    n = k ∧ Int64.minValue.toInt ≤ n ∧ n ≤ Int64.maxValue.toInt := by
  rw [int?, Option.ite_none_right_eq_some, Option.some.injEq, and_comm]

theorem int?_of_safe {n : Int} (h : Safe n) : (Json.int n).int? = some n := by
  obtain ⟨h₁, h₂⟩ := h
  have hmin : Int64.minValue.toInt = -9223372036854775808 := by decide
  have hmax : Int64.maxValue.toInt = 9223372036854775807 := by decide
  unfold maxSafeInteger at h₁ h₂
  rw [int?, if_pos (by rw [hmin, hmax]; omega)]

theorem strict_int_iff {n : Int} : (Json.int n).Strict ↔ Safe n := by
  unfold Strict
  constructor
  · intro h
    rw [firstUnsafe, isSafeInteger] at h
    cases hn : (Json.int n).int? with
    | none => simp [hn] at h
    | some k =>
      obtain ⟨rfl, -⟩ := int?_eq_some.mp hn
      simpa [hn, Safe] using h
  · intro h
    rw [firstUnsafe, isSafeInteger, int?_of_safe h]
    simp [h.1, h.2]

theorem strict_int {n : Int} (h : Safe n) : (Json.int n).Strict := strict_int_iff.mpr h

/-! ## Members -/

theorem strict_ofList {rows : List (String × Json)} (h : ∀ row ∈ rows, row.2.Strict) :
    (Json.obj (Table.ofList rows)).Strict :=
  strict_obj.mpr fun row hrow => h row (Table.mem_of_mem_ofList hrow)

theorem Strict.insert {members : Members} {v : Json} (h : (Json.obj members).Strict)
    (hv : v.Strict) (key : String) : (Json.obj (Table.insert key v members)).Strict := by
  rw [strict_obj] at h ⊢
  intro row hrow
  rcases Table.mem_insert hrow with rfl | hrow
  · exact hv
  · exact h row hrow

theorem Strict.erase {members : Members} (h : (Json.obj members).Strict) (key : String) :
    (Json.obj (Table.erase key members)).Strict := by
  rw [strict_obj] at h ⊢
  exact fun row hrow => h row (List.mem_filter.mp hrow).1

theorem Strict.find? {members : Members} (h : (Json.obj members).Strict) {key : String} {v : Json}
    (hv : Table.find? key members = some v) : v.Strict :=
  strict_obj.mp h _ (Table.mem_of_find? hv)

end Homeserver.Json
