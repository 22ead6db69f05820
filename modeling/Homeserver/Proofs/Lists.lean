/-
Lists that are split. What holds at each place of a list, with what stands before the place, is told
by how the list is made, from either of its ends.
-/
namespace Homeserver

variable {α : Type}

theorem append_eq_append_iff_of_sublist {a b c d : List α} (hab : a.Sublist b)
    (hcd : c.Sublist d) : a ++ c = b ++ d ↔ a = b ∧ c = d := by
  refine ⟨fun h => ?_, fun ⟨hab, hcd⟩ => hab ▸ hcd ▸ rfl⟩
  have hlength := congrArg List.length h
  rw [List.length_append, List.length_append] at hlength
  have hle := hab.length_le
  have hle' := hcd.length_le
  exact ⟨hab.eq_of_length (by omega), hcd.eq_of_length (by omega)⟩

/-- An item of a list with one at its head is this or splits the others. -/
theorem forall_split_cons {P : List α → α → Prop} {b : α} {l : List α} :
    (∀ xs a ys, b :: l = xs ++ a :: ys → P xs a) ↔
      P [] b ∧ ∀ xs a ys, l = xs ++ a :: ys → P (b :: xs) a := by
  constructor
  · intro h
    exact ⟨h [] b l rfl, fun xs a ys hl => h (b :: xs) a ys (congrArg (b :: ·) hl)⟩
  · rintro ⟨hhead, htail⟩ xs a ys hl
    cases xs with
    | nil =>
      cases hl
      exact hhead
    | cons x xs =>
      obtain ⟨rfl, hrest⟩ := List.cons.inj hl
      exact htail xs a ys hrest

/-- What holds at each place of a longer list holds at the places before and at the last one. -/
theorem forall_split_concat {P : List α → α → Prop} {l : List α} {a : α} :
    (∀ pre b post, l ++ [a] = pre ++ b :: post → P pre b) ↔
      (∀ pre b post, l = pre ++ b :: post → P pre b) ∧ P l a := by
  constructor
  · intro h
    exact ⟨fun pre b post hl => h pre b (post ++ [a]) (by simp [hl]), h l a [] rfl⟩
  · rintro ⟨h, ha⟩ pre b post hl
    rcases List.eq_nil_or_concat post with rfl | ⟨post, c, rfl⟩
    · obtain ⟨rfl, hb⟩ := List.append_inj' hl rfl
      cases hb; exact ha
    · have hs : l ++ [a] = (pre ++ b :: post) ++ [c] := by
        rw [hl, List.concat_eq_append, List.append_assoc]; rfl
      exact h pre b post (List.append_inj' hs rfl).1

end Homeserver
