/-
What values the reader makes of texts: every object has its members in order, whatever order the
text has them in, and nothing is nested deeper than the reader goes.
-/
import Homeserver.Proofs.Json.RoundTrip

namespace Homeserver.Json

/-! ## Values that are read -/

/-- A value as the reader makes it when it goes `depth` deep. -/
structure Tidy (depth : Nat) (v : Json) : Prop where
  ordered : v.Ordered
  nested : v.nesting ≤ depth

theorem Tidy.mono {depth deeper : Nat} {v : Json} (h : v.Tidy depth) (hle : depth ≤ deeper) :
    v.Tidy deeper :=
  ⟨h.ordered, Nat.le_trans h.nested hle⟩

theorem tidy_arr {depth : Nat} {items : List Json} (h : ∀ v ∈ items, v.Tidy depth) :
    (Json.arr items).Tidy (depth + 1) where
  ordered := orderedItems_iff.mpr fun v hv => (h v hv).ordered
  nested := Nat.succ_le_succ (nestingItems_le.mpr fun v hv => (h v hv).nested)

theorem tidy_obj {depth : Nat} {members : Members} (hsorted : Table.Sorted members)
    (h : ∀ row ∈ members, row.2.Tidy depth) : (Json.obj members).Tidy (depth + 1) where
  ordered := ⟨hsorted, orderedMembers_iff.mpr fun row hrow => (h row hrow).ordered⟩
  nested := Nat.succ_le_succ (nestingMembers_le.mpr fun row hrow => (h row hrow).nested)

theorem Tidy.get? {depth : Nat} {v w : Json} {key : String} (h : v.Tidy (depth + 1))
    (hw : v.get? key = some w) : w.Tidy depth := by
  cases v with
  | obj members =>
    have hmem := Table.mem_of_find? hw
    exact ⟨orderedMembers_iff.mp h.ordered.2 _ hmem,
      nestingMembers_le.mp (Nat.le_of_succ_le_succ h.nested) _ hmem⟩
  | _ => cases hw

namespace Reader

/-! ## Numbers and words -/

theorem tidy_numberOf {negative : Bool} {ds : List Char} {frac : Option (List Char)}
    {exp : Option Int} {v : Json} (h : numberOf negative ds frac exp = some v) : v.Tidy 0 := by
  unfold numberOf at h
  dsimp only at h
  obtain ⟨-, h⟩ | ⟨-, h⟩ := ite_eq_iff.mp h
  · cases h
    exact ⟨trivial, Nat.le_refl 0⟩
  · obtain ⟨x, -, rfl⟩ := Option.map_eq_some_iff.mp h
    exact ⟨trivial, Nat.le_refl 0⟩

theorem tidy_unsigned {negative : Bool} {s rest : List Char} {v : Json}
    (h : unsigned negative s = some (v, rest)) : v.Tidy 0 := by
  unfold unsigned at h
  obtain ⟨⟨ds, s⟩, -, h⟩ := Option.bind_eq_some_iff.mp h
  obtain ⟨⟨frac, s⟩, -, h⟩ := Option.bind_eq_some_iff.mp h
  obtain ⟨⟨exp, s⟩, -, h⟩ := Option.bind_eq_some_iff.mp h
  obtain ⟨w, hw, h⟩ := Option.bind_eq_some_iff.mp h
  cases h
  exact tidy_numberOf hw

theorem tidy_word {w s rest : List Char} {v v' : Json} (hv : v.Tidy 0)
    (h : word w v s = some (v', rest)) : v'.Tidy 0 := by
  obtain ⟨-, h⟩ := Option.ite_none_right_eq_some.mp h
  cases h
  exact hv

theorem tidy_scalar {s rest : List Char} {v : Json} (h : scalar s = some (v, rest)) : v.Tidy 0 := by
  unfold scalar at h
  split at h
  · exact tidy_word (v := .null) ⟨trivial, Nat.le_refl 0⟩ h
  · exact tidy_word (v := .bool true) ⟨trivial, Nat.le_refl 0⟩ h
  · exact tidy_word (v := .bool false) ⟨trivial, Nat.le_refl 0⟩ h
  · obtain ⟨⟨cs, r⟩, -, h⟩ := Option.map_eq_some_iff.mp h
    cases h
    exact ⟨trivial, Nat.le_refl 0⟩
  · unfold number at h
    split at h <;> exact tidy_unsigned h

/-! ## Arrays and objects -/

section

variable {read : List Char → Option (Json × List Char)} {P : Json → Prop}

/-- What holds of every value that is read holds of every item. -/
theorem forall_items (h : ∀ {s r : List Char} {v : Json}, read s = some (v, r) → P v) {bound : Nat}
    {s rest : List Char} {vs : List Json} (hs : items read bound s = some (vs, rest)) :
    ∀ v ∈ vs, P v := by
  induction bound generalizing s vs with
  | zero => cases hs
  | succ bound ih =>
    unfold items at hs
    split at hs
    · cases hs
    · rename_i v r hv
      split at hs
      · obtain ⟨⟨vs', r'⟩, hvs, hs⟩ := Option.map_eq_some_iff.mp hs
        cases hs
        exact List.forall_mem_cons.mpr ⟨h hv, ih hvs⟩
      · cases hs
        exact List.forall_mem_singleton.mpr (h hv)
      · cases hs

theorem of_member (h : ∀ {s r : List Char} {v : Json}, read s = some (v, r) → P v)
    {s rest : List Char} {row : String × Json} (hs : member read s = some (row, rest)) :
    P row.2 := by
  unfold member at hs
  split at hs
  · split at hs
    · cases hs
    · split at hs
      · obtain ⟨⟨v, r⟩, hv, hs⟩ := Option.map_eq_some_iff.mp hs
        cases hs
        exact h hv
      · cases hs
  · cases hs

theorem forall_members (h : ∀ {s r : List Char} {v : Json}, read s = some (v, r) → P v)
    {bound : Nat} {s rest : List Char} {rows : List (String × Json)}
    (hs : members read bound s = some (rows, rest)) : ∀ row ∈ rows, P row.2 := by
  induction bound generalizing s rows with
  | zero => cases hs
  | succ bound ih =>
    unfold members at hs
    split at hs
    · cases hs
    · rename_i row r hrow
      split at hs
      · obtain ⟨⟨rows', r'⟩, hrows, hs⟩ := Option.map_eq_some_iff.mp hs
        cases hs
        exact List.forall_mem_cons.mpr ⟨of_member h hrow, ih hrows⟩
      · cases hs
        exact List.forall_mem_singleton.mpr (of_member h hrow)
      · cases hs

end

theorem tidy_value {depth : Nat} {s rest : List Char} {v : Json}
    (h : value depth s = some (v, rest)) : v.Tidy depth := by
  induction depth generalizing s rest v with
  | zero =>
    unfold value at h
    split at h
    · cases h
    · cases h
    · exact tidy_scalar h
  | succ depth ih =>
    unfold value at h
    split at h
    · unfold array at h
      split at h
      · cases h
        exact tidy_arr (fun v hv => nomatch hv)
      · obtain ⟨⟨vs, r⟩, hvs, h⟩ := Option.map_eq_some_iff.mp h
        cases h
        exact tidy_arr (forall_items ih hvs)
    · unfold object at h
      split at h
      · cases h
        exact tidy_obj Table.sorted_nil (fun row hrow => nomatch hrow)
      · obtain ⟨⟨rows, r⟩, hrows, h⟩ := Option.map_eq_some_iff.mp h
        cases h
        exact tidy_obj (Table.sorted_ofList rows) fun row hrow =>
          forall_members ih hrows row (Table.mem_of_mem_ofList hrow)
    · exact (tidy_scalar h).mono (Nat.zero_le _)

end Reader

/-- Whatever text is read has its members in order at every level. -/
theorem tidy_of_read? {s : String} {v : Json} (h : read? s = some v) : v.Tidy maxDepth := by
  unfold read? at h
  split at h
  · rename_i w rest hw
    obtain ⟨-, h⟩ := Option.ite_none_right_eq_some.mp h
    cases h
    exact Reader.tidy_value hw
  · cases h

end Homeserver.Json
