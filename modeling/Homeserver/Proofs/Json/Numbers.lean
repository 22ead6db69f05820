/-
The numbers in a value, and the one that a value is refused for. A number stands in a value under
the steps that lead to it from the outside, and numbers are in the order of their steps: items by
their indices, members by their keys. A value is accepted iff each of its numbers is an integer of
at most 53 bits, and else it is refused for the first of the others.

The proof follows the steps of the refusal. Each of them leads into the first item or member that is
not strict, so what stands before it is passed, and what stands behind it comes later.
-/
import Homeserver.Proofs.Json.RoundTrip
import Homeserver.Proofs.Json.Strict
import Mathlib.Algebra.Group.Nat.Defs
import Mathlib.Data.List.Lex

namespace Homeserver.Json

/-! ## Numbers and where they stand -/

/-- A number stands in a value under these steps. -/
inductive HasNumber : Json → List Step → Json → Prop
  | int (n : Int) : HasNumber (.int n) [] (.int n)
  | double (x : Double) : HasNumber (.double x) [] (.double x)
  | item {items : List Json} {i : Nat} {v n : Json} {path : List Step} (hv : items[i]? = some v)
      (hn : HasNumber v path n) : HasNumber (.arr items) (.item i :: path) n
  | member {members : Members} {key : String} {v n : Json} {path : List Step}
      (hv : (key, v) ∈ members) (hn : HasNumber v path n) :
      HasNumber (.obj members) (.member key :: path) n

/-- The number is an integer of at most 53 bits and a sign. -/
def IsSmall (number : Json) : Prop := ∃ n : Int, number = .int n ∧ n.natAbs ≤ 2 ^ 53 - 1

/-- A number in a value that a strict value may not hold. -/
def Offends (v : Json) (path : List Step) (number : Json) : Prop :=
  v.HasNumber path number ∧ ¬ number.IsSmall

/-- Items come in the order of their indices, and members in the order of their keys. -/
def Step.Before : Step → Step → Prop
  | .item i, .item j => i < j
  | .member k, .member l => Key.before k l = true
  | _, _ => False

instance : Std.Asymm Step.Before where
  asymm a b hab hba := by
    cases a <;> cases b
    case item.item => exact Nat.lt_asymm hab hba
    case member.member k l =>
      have hself : Key.before k k = true := StrictKey.trans hab hba
      rw [StrictKey.irrefl] at hself
      cases hself
    all_goals exact hab

/-- The place of the first number comes before that of the second one in the text of a value. -/
def PathBefore (p q : List Step) : Prop := List.Lex Step.Before p q

instance : Std.Asymm PathBefore := inferInstanceAs (Std.Asymm (List.Lex Step.Before))

theorem isSmall_int {n : Int} : (Json.int n).IsSmall ↔ Safe n := by
  unfold IsSmall Safe maxSafeInteger
  simp only [Json.int.injEq, exists_eq_left']
  omega

theorem not_isSmall_double (x : Double) : ¬ (Json.double x).IsSmall := by
  rintro ⟨n, hn, -⟩
  cases hn

/-! ## Strict values -/

/-- All numbers in a strict value are integers of at most 53 bits. -/
theorem Strict.isSmall {v n : Json} {path : List Step} (hv : v.Strict) (h : v.HasNumber path n) :
    n.IsSmall := by
  induction h with
  | int n => exact isSmall_int.mpr (strict_int_iff.mp hv)
  | double x => simp [Strict, firstUnsafe] at hv
  | item hitem _ ih => exact ih (strict_arr.mp hv _ (List.mem_of_getElem? hitem))
  | member hmember _ ih => exact ih (strict_obj.mp hv _ hmember)

theorem Strict.not_offends {v n : Json} {path : List Step} (hv : v.Strict) :
    ¬ v.Offends path n := fun h => h.2 (hv.isSmall h.1)

/-! ## The refusal -/

theorem checkStrict_eq_error {v : Json} {e : NotStrict} :
    v.checkStrict = .error e ↔ v.firstUnsafe = some e := by
  unfold checkStrict
  cases v.firstUnsafe <;> simp

/-- The refusal of a list of items is that of the first item that is not strict. -/
theorem firstUnsafeItem_eq_some {items : List Json} {start : Nat} {e : NotStrict}
    (h : firstUnsafeItem start items = some e) :
    ∃ passed v rest inner, items = passed ++ v :: rest ∧ (∀ w ∈ passed, w.Strict) ∧
      v.firstUnsafe = some inner ∧ e = ⟨.item (start + passed.length) :: inner.path, inner.number⟩ := by
  induction items generalizing start with
  | nil => cases h
  | cons v items ih =>
    rw [firstUnsafeItem] at h
    cases hv : v.firstUnsafe with
    | some inner =>
      rw [hv] at h
      cases h
      exact ⟨[], v, items, inner, rfl, List.forall_mem_nil _, hv, rfl⟩
    | none =>
      rw [hv] at h
      obtain ⟨passed, w, rest, inner, rfl, hpassed, hw, rfl⟩ := ih h
      refine ⟨v :: passed, w, rest, inner, rfl, List.forall_mem_cons.mpr ⟨hv, hpassed⟩, hw, ?_⟩
      rw [List.length_cons]
      congr 3
      omega

/-- The refusal of members is that of the first one whose value is not strict. -/
theorem firstUnsafeMember_eq_some {members : Members} {e : NotStrict}
    (h : firstUnsafeMember members = some e) :
    ∃ passed key v rest inner, members = passed ++ (key, v) :: rest ∧
      (∀ row ∈ passed, row.2.Strict) ∧ v.firstUnsafe = some inner ∧
      e = ⟨.member key :: inner.path, inner.number⟩ := by
  induction members with
  | nil => cases h
  | cons row members ih =>
    obtain ⟨key, v⟩ := row
    rw [firstUnsafeMember] at h
    cases hv : v.firstUnsafe with
    | some inner =>
      rw [hv] at h
      cases h
      exact ⟨[], key, v, members, inner, rfl, List.forall_mem_nil _, hv, rfl⟩
    | none =>
      rw [hv] at h
      obtain ⟨passed, l, w, rest, inner, rfl, hpassed, hw, rfl⟩ := ih h
      exact ⟨(key, v) :: passed, l, w, rest, inner, rfl, List.forall_mem_cons.mpr ⟨hv, hpassed⟩, hw,
        rfl⟩

/-- What a value is refused for is the value itself, or inside of an item or of a member. -/
theorem firstUnsafe_cases {v : Json} {e : NotStrict} (h : v.firstUnsafe = some e) :
    (v.HasNumber [] v ∧ ¬ v.IsSmall ∧ e = ⟨[], v⟩) ∨
    (∃ passed w rest inner, v = .arr (passed ++ w :: rest) ∧ (∀ u ∈ passed, u.Strict) ∧
      w.firstUnsafe = some inner ∧ e = ⟨.item passed.length :: inner.path, inner.number⟩) ∨
    (∃ passed key w rest inner, v = .obj (passed ++ (key, w) :: rest) ∧
      (∀ row ∈ passed, row.2.Strict) ∧ w.firstUnsafe = some inner ∧
      e = ⟨.member key :: inner.path, inner.number⟩) := by
  cases v with
  | int n =>
    refine .inl ⟨.int n, fun hn => ?_, ?_⟩
    · rw [strict_int (isSmall_int.mp hn)] at h
      cases h
    · rw [firstUnsafe] at h
      split at h <;> cases h
      rfl
  | double x =>
    rw [firstUnsafe] at h
    cases h
    exact .inl ⟨.double x, not_isSmall_double x, rfl⟩
  | arr items =>
    rw [firstUnsafe] at h
    obtain ⟨passed, w, rest, inner, rfl, hpassed, hw, rfl⟩ := firstUnsafeItem_eq_some h
    exact .inr (.inl ⟨passed, w, rest, inner, rfl, hpassed, hw, by rw [Nat.zero_add]⟩)
  | obj members =>
    rw [firstUnsafe] at h
    obtain ⟨passed, key, w, rest, inner, rfl, hpassed, hw, rfl⟩ := firstUnsafeMember_eq_some h
    exact .inr (.inr ⟨passed, key, w, rest, inner, rfl, hpassed, hw, rfl⟩)
  | _ => simp [firstUnsafe] at h

/-- A value is refused for a number in it. -/
theorem offends_of_firstUnsafe {path : List Step} {v n : Json}
    (h : v.firstUnsafe = some ⟨path, n⟩) : v.Offends path n := by
  induction path generalizing v with
  | nil =>
    obtain ⟨hv, hn, he⟩ | ⟨_, _, _, _, _, _, _, he⟩ | ⟨_, _, _, _, _, _, _, _, he⟩ :=
      firstUnsafe_cases h
    · cases he
      exact ⟨hv, hn⟩
    · cases he
    · cases he
  | cons step path ih =>
    obtain ⟨_, _, he⟩ | ⟨passed, w, rest, inner, rfl, _, hw, he⟩ |
      ⟨passed, key, w, rest, inner, rfl, _, hw, he⟩ := firstUnsafe_cases h
    · cases he
    · cases he
      obtain ⟨hn, hoffends⟩ := ih hw
      exact ⟨.item (by rw [List.getElem?_append_right (Nat.le_refl _), Nat.sub_self]; rfl) hn, hoffends⟩
    · cases he
      obtain ⟨hn, hoffends⟩ := ih hw
      exact ⟨.member (List.mem_append_right _ List.mem_cons_self) hn, hoffends⟩

/-- Behind strict items, a number that a strict value may not hold is in the next item or later. -/
theorem Offends.of_items {passed rest : List Json} {w m : Json} {p : List Step}
    (h : (Json.arr (passed ++ w :: rest)).Offends p m) (hpassed : ∀ u ∈ passed, u.Strict) :
    ∃ step q, p = step :: q ∧ (step = .item passed.length ∧ w.Offends q m ∨
      Step.Before (.item passed.length) step) := by
  obtain ⟨hm, hlarge⟩ := h
  cases hm with
  | @item _ i u _ q hu hm =>
    refine ⟨_, q, rfl, ?_⟩
    rcases Nat.lt_trichotomy i passed.length with hi | rfl | hi
    · rw [List.getElem?_append_left hi] at hu
      exact absurd ⟨hm, hlarge⟩ (hpassed u (List.mem_of_getElem? hu)).not_offends
    · rw [List.getElem?_append_right (Nat.le_refl _), Nat.sub_self] at hu
      cases hu
      exact .inl ⟨rfl, hm, hlarge⟩
    · exact .inr hi

/-- Behind members with strict values, a number that a strict value may not hold is in the value of
the next member or later. -/
theorem Offends.of_members {passed rest : Members} {key : String} {w m : Json} {p : List Step}
    (h : (Json.obj (passed ++ (key, w) :: rest)).Offends p m)
    (hsorted : Table.Sorted (passed ++ (key, w) :: rest)) (hpassed : ∀ row ∈ passed, row.2.Strict) :
    ∃ step q, p = step :: q ∧ (step = .member key ∧ w.Offends q m ∨
      Step.Before (.member key) step) := by
  obtain ⟨hm, hlarge⟩ := h
  cases hm with
  | @member _ l u _ q hu hm =>
    refine ⟨_, q, rfl, ?_⟩
    rcases List.mem_append.mp hu with hu | hu
    · exact absurd ⟨hm, hlarge⟩ (hpassed _ hu).not_offends
    · rcases List.mem_cons.mp hu with he | hu
      · cases he
        exact .inl ⟨rfl, hm, hlarge⟩
      · -- the keys behind the next member are greater than its key
        have hbehind : Table.Sorted ((key, w) :: rest) :=
          List.Pairwise.sublist ((List.sublist_append_right passed _).map Prod.fst) hsorted
        exact .inr ((Table.sorted_cons.mp hbehind).1 _ hu)

theorem before_cons {step : Step} {path q : List Step} {n m : Json}
    (h : (q = path ∧ m = n) ∨ PathBefore path q) :
    (step :: q = step :: path ∧ m = n) ∨ PathBefore (step :: path) (step :: q) :=
  h.imp (fun ⟨hq, hm⟩ => ⟨congrArg (step :: ·) hq, hm⟩) .cons

/-- Every other number that a strict value may not hold comes later. -/
theorem before_of_firstUnsafe {path p : List Step} {v n m : Json} (hv : v.Ordered)
    (h : v.firstUnsafe = some ⟨path, n⟩) (hm : v.Offends p m) :
    (p = path ∧ m = n) ∨ PathBefore path p := by
  induction path generalizing v p with
  | nil =>
    obtain ⟨hself, -, he⟩ | ⟨_, _, _, _, _, _, _, he⟩ | ⟨_, _, _, _, _, _, _, _, he⟩ :=
      firstUnsafe_cases h
    · cases he
      obtain ⟨hm, -⟩ := hm
      cases hself <;> cases hm <;> exact .inl ⟨rfl, rfl⟩
    · cases he
    · cases he
  | cons step path ih =>
    obtain ⟨_, _, he⟩ | ⟨passed, w, rest, inner, rfl, hpassed, hw, he⟩ |
      ⟨passed, key, w, rest, inner, rfl, hpassed, hw, he⟩ := firstUnsafe_cases h
    · cases he
    · cases he
      rw [Ordered, orderedItems_iff] at hv
      obtain ⟨_, q, rfl, ⟨rfl, hin⟩ | hlater⟩ := hm.of_items hpassed
      · exact before_cons (ih (hv w (List.mem_append_right _ List.mem_cons_self)) hw hin)
      · exact .inr (.rel hlater)
    · cases he
      rw [Ordered, orderedMembers_iff] at hv
      obtain ⟨_, q, rfl, ⟨rfl, hin⟩ | hlater⟩ := hm.of_members hv.1 hpassed
      · exact before_cons (ih (hv.2 _ (List.mem_append_right _ List.mem_cons_self)) hw hin)
      · exact .inr (.rel hlater)

/-- The number that comes before all others in a value that a strict value may not hold. -/
structure OffendsFirst (v : Json) (path : List Step) (number : Json) : Prop where
  offends : v.Offends path number
  first : ∀ p m, v.Offends p m → (p = path ∧ m = number) ∨ PathBefore path p

theorem OffendsFirst.unique {v n m : Json} {p q : List Step} (h : v.OffendsFirst p n)
    (h' : v.OffendsFirst q m) : p = q ∧ n = m := by
  rcases h'.first p n h.offends with heq | hqp
  · exact heq
  · rcases h.first q m h'.offends with ⟨rfl, rfl⟩ | hpq
    · exact ⟨rfl, rfl⟩
    · exact absurd hpq (Std.Asymm.asymm _ _ hqp)

theorem offendsFirst_of_firstUnsafe {v n : Json} {path : List Step} (hv : v.Ordered)
    (h : v.firstUnsafe = some ⟨path, n⟩) : v.OffendsFirst path n where
  offends := offends_of_firstUnsafe h
  first := fun _ _ => before_of_firstUnsafe hv h

/-- A value is accepted iff each number in it is an integer of at most 53 bits and a sign. Else it is
refused for the number, and under the steps, that come before all others that a strict value may not
hold. -/
theorem checkStrict_exact {v : Json} (hv : v.Ordered) :
    (v.checkStrict = .ok () ↔ ∀ path number, v.HasNumber path number → number.IsSmall) ∧
    ∀ path number, v.checkStrict = .error ⟨path, number⟩ ↔ v.OffendsFirst path number := by
  constructor
  · rw [checkStrict_ok]
    refine ⟨fun h path number hn => h.isSmall hn, fun hall => ?_⟩
    cases h : v.firstUnsafe with
    | none => exact h
    | some e =>
      obtain ⟨hn, hlarge⟩ := offends_of_firstUnsafe h
      exact absurd (hall _ _ hn) hlarge
  · intro path number
    rw [checkStrict_eq_error]
    refine ⟨offendsFirst_of_firstUnsafe hv, fun hfirst => ?_⟩
    cases h : v.firstUnsafe with
    | none => exact absurd hfirst.offends (Strict.not_offends h)
    | some e =>
      obtain ⟨rfl, rfl⟩ := (offendsFirst_of_firstUnsafe hv h).unique hfirst
      rfl

/-- A value with the least integer of 54 bits inside, before one of 64 bits and a fraction. -/
def oversized : Json :=
  .obj [("a", .arr [.int (-9007199254740991), .obj [("n", .int 9007199254740992)]]),
    ("b", .int 9223372036854775808), ("c", .double ⟨false, 6755399441055744, -52⟩)]

theorem ordered_oversized : oversized.Ordered := by
  simp only [oversized, Ordered, OrderedItems, OrderedMembers, Table.Sorted, and_true, true_and]
  decide

theorem checkStrict_exact_oversized : oversized.Ordered ∧
    oversized.OffendsFirst [.member "a", .item 1, .member "n"] (.int 9007199254740992) ∧
    oversized.checkStrict ≠ .ok () := by
  obtain ⟨haccepted, hrefused⟩ := checkStrict_exact ordered_oversized
  have hfirst : oversized.OffendsFirst [.member "a", .item 1, .member "n"] (.int 9007199254740992) :=
    (hrefused _ _).mp rfl
  exact ⟨ordered_oversized, hfirst,
    fun h => hfirst.offends.2 (haccepted.mp h _ _ hfirst.offends.1)⟩

end Homeserver.Json
