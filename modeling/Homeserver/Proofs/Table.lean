/-
Laws of tables. What is found under a key after an insertion or a removal holds for every list of
rows; on tables in increasing order of keys, which both operations keep, what is found under all
keys tells the table.
-/
import Homeserver.Event.Authorisation
import Mathlib.Data.List.Induction
import Mathlib.Tactic.Tauto

namespace Homeserver

/-! ## Orders of keys -/

/-- The order of keys is strict, and of two different keys one comes before the other. -/
class StrictKey (κ : Type) [Key κ] : Prop where
  irrefl : ∀ a : κ, Key.before a a = false
  trans : ∀ {a b c : κ}, Key.before a b = true → Key.before b c = true → Key.before a c = true
  total : ∀ a b : κ, Key.before a b = true ∨ a = b ∨ Key.before b a = true

theorem codepointBefore_irrefl : ∀ s : List Char, codepointBefore s s = false
  | [] => rfl
  | c :: s => by simp [codepointBefore, codepointBefore_irrefl s]

theorem codepointBefore_trans : ∀ {s t u : List Char}, codepointBefore s t = true →
    codepointBefore t u = true → codepointBefore s u = true
  | [], [], _, h, _ => by simp [codepointBefore] at h
  | [], _ :: _, [], _, h => by simp [codepointBefore] at h
  | [], _ :: _, _ :: _, _, _ => rfl
  | _ :: _, [], _, h, _ => by simp [codepointBefore] at h
  | _ :: _, _ :: _, [], _, h => by simp [codepointBefore] at h
  | a :: s, b :: t, c :: u, h₁, h₂ => by
    simp only [codepointBefore, Bool.or_eq_true, decide_eq_true_eq, Bool.and_eq_true,
      beq_iff_eq] at h₁ h₂ ⊢
    rcases h₁ with h₁ | ⟨rfl, h₁⟩
    · rcases h₂ with h₂ | ⟨rfl, -⟩
      · exact .inl (by omega)
      · exact .inl h₁
    · rcases h₂ with h₂ | ⟨rfl, h₂⟩
      · exact .inl h₂
      · exact .inr ⟨rfl, codepointBefore_trans h₁ h₂⟩

theorem codepointBefore_total : ∀ s t : List Char,
    codepointBefore s t = true ∨ s = t ∨ codepointBefore t s = true
  | [], [] => .inr (.inl rfl)
  | [], _ :: _ => .inl rfl
  | _ :: _, [] => .inr (.inr rfl)
  | a :: s, b :: t => by
    simp only [codepointBefore, Bool.or_eq_true, decide_eq_true_eq, Bool.and_eq_true, beq_iff_eq,
      List.cons.injEq]
    rcases Nat.lt_trichotomy a.toNat b.toNat with h | h | h
    · exact .inl (.inl h)
    · have hab : a = b := Char.toNat_inj.mp h
      rcases codepointBefore_total s t with h' | h' | h'
      · exact .inl (.inr ⟨hab, h'⟩)
      · exact .inr (.inl ⟨hab, h'⟩)
      · exact .inr (.inr (.inr ⟨hab.symm, h'⟩))
    · exact .inr (.inr (.inl h))

instance : StrictKey String where
  irrefl a := codepointBefore_irrefl a.toList
  trans h₁ h₂ := codepointBefore_trans h₁ h₂
  total a b := by
    rcases codepointBefore_total a.toList b.toList with h | h | h
    · exact .inl h
    · exact .inr (.inl (String.toList_inj.mp h))
    · exact .inr (.inr h)

theorem StateKey.before_iff (a b : StateKey) : Key.before a b = true ↔
    Key.before a.type b.type = true ∨ a.type = b.type ∧ Key.before a.key b.key = true := by
  show (Key.before a.type b.type || (a.type == b.type && Key.before a.key b.key)) = true ↔ _
  simp only [Bool.or_eq_true, Bool.and_eq_true, beq_iff_eq]

instance : StrictKey StateKey where
  irrefl a := by
    rw [Bool.eq_false_iff, Ne, StateKey.before_iff]
    simp [StrictKey.irrefl]
  trans {a b c} h₁ h₂ := by
    rw [StateKey.before_iff] at h₁ h₂ ⊢
    rcases h₁ with h₁ | ⟨e₁, h₁⟩
    · rcases h₂ with h₂ | ⟨e₂, -⟩
      · exact .inl (StrictKey.trans h₁ h₂)
      · exact .inl (e₂ ▸ h₁)
    · rcases h₂ with h₂ | ⟨e₂, h₂⟩
      · exact .inl (e₁ ▸ h₂)
      · exact .inr ⟨e₁.trans e₂, StrictKey.trans h₁ h₂⟩
  total a b := by
    obtain ⟨t, k⟩ := a
    obtain ⟨t', k'⟩ := b
    simp only [StateKey.before_iff, StateKey.mk.injEq]
    rcases StrictKey.total t t' with h | h | h
    · exact .inl (.inl h)
    · rcases StrictKey.total k k' with h' | h' | h'
      · exact .inl (.inr ⟨h, h'⟩)
      · exact .inr (.inl ⟨h, h'⟩)
      · exact .inr (.inr (.inr ⟨h.symm, h'⟩))
    · exact .inr (.inr (.inl h))

/-! ## Finding -/

namespace Table

variable {κ α : Type} [DecidableEq κ]

@[simp] theorem find?_nil (k : κ) : find? k ([] : Table κ α) = none := rfl

theorem find?_cons (k k' : κ) (v : α) (t : Table κ α) :
    find? k ((k', v) :: t) = if k' = k then some v else find? k t := rfl

theorem find?_filter (p : κ → Bool) (k : κ) (t : Table κ α) :
    find? k (t.filter fun row => p row.1) = if p k = true then find? k t else none := by
  induction t with
  | nil => simp
  | cons row t ih =>
    obtain ⟨l, w⟩ := row
    rw [List.filter_cons, find?_cons]
    by_cases hl : l = k
    · subst hl
      by_cases hp : p l = true <;> simp [hp, find?_cons, ih]
    · by_cases hp : p l = true <;> simp [hp, find?_cons, hl, ih]

theorem find?_erase (k k' : κ) (t : Table κ α) :
    find? k (erase k' t) = if k' = k then none else find? k t := by
  unfold erase
  rw [find?_filter fun l => decide (l ≠ k')]
  by_cases h : k' = k
  · simp [h]
  · simp [h, Ne.symm h]

theorem find?_eq_none {k : κ} {t : Table κ α} : find? k t = none ↔ ∀ row ∈ t, row.1 ≠ k := by
  induction t with
  | nil => simp
  | cons row t ih =>
    obtain ⟨l, w⟩ := row
    rw [find?_cons]
    by_cases h : l = k <;> simp [h, ih]

theorem find?_map {β : Type} (f : α → β) (k : κ) (t : Table κ α) :
    find? k (t.map fun row => (row.1, f row.2)) = (find? k t).map f := by
  induction t with
  | nil => rfl
  | cons row t ih =>
    rw [List.map_cons, find?_cons, find?_cons, ih]
    split <;> rfl

/-- The order of rows does not count when each key has one. -/
theorem find?_perm {k : κ} {s t : Table κ α} (h : s.Perm t) (hkeys : (keys s).Nodup) :
    find? k s = find? k t := by
  induction h with
  | nil => rfl
  | cons row _ ih => rw [find?_cons, find?_cons, ih (List.nodup_cons.mp hkeys).2]
  | swap row next rest =>
    have hne : next.1 ≠ row.1 := fun he =>
      (List.nodup_cons.mp hkeys).1 (he ▸ List.mem_cons_self)
    rw [find?_cons, find?_cons, find?_cons, find?_cons]
    by_cases hk : row.1 = k
    · rw [if_pos hk, if_pos hk, if_neg (hk ▸ hne)]
    · rw [if_neg hk, if_neg hk]
  | trans h _ ih ih' => rw [ih hkeys, ih' ((h.map Prod.fst).nodup hkeys)]

theorem find?_perm_reverse {k : κ} {t : Table κ α} (hkeys : (keys t).Nodup) :
    find? k t.reverse = find? k t :=
  (find?_perm t.reverse_perm.symm hkeys).symm

theorem mem_of_find? {k : κ} {v : α} {t : Table κ α} (h : find? k t = some v) : (k, v) ∈ t := by
  induction t with
  | nil => simp at h
  | cons row t ih =>
    obtain ⟨l, w⟩ := row
    rw [find?_cons] at h
    split at h
    · rename_i hl
      cases h; subst hl; exact List.mem_cons_self
    · exact List.mem_cons_of_mem _ (ih h)

/-! ## Inserting -/

variable [Key κ]

theorem find?_insert (k k' : κ) (v : α) (t : Table κ α) :
    find? k (insert k' v t) = if k' = k then some v else find? k t := by
  induction t with
  | nil => rfl
  | cons row t ih =>
    obtain ⟨l, w⟩ := row
    unfold insert
    split
    · rfl
    · split
      · rename_i h
        subst h
        by_cases hk : k' = k <;> simp [find?_cons, hk]
      · rename_i h
        rw [find?_cons, find?_cons, ih]
        by_cases hl : l = k
        · subst hl; simp [h]
        · simp [hl]

@[simp] theorem find?_insert_self (k : κ) (v : α) (t : Table κ α) :
    find? k (insert k v t) = some v := by rw [find?_insert, if_pos rfl]

theorem find?_insert_of_ne {k k' : κ} (h : k' ≠ k) (v : α) (t : Table κ α) :
    find? k (insert k' v t) = find? k t := by rw [find?_insert, if_neg h]

/-- Of the rows with one key the last one counts. -/
theorem find?_ofList (k : κ) (rows : List (κ × α)) :
    find? k (ofList rows) = find? k rows.reverse := by
  induction rows using List.reverseRecOn with
  | nil => rfl
  | append_singleton rows row ih =>
    have hlast : ofList (rows ++ [row]) = insert row.1 row.2 (ofList rows) := by
      unfold ofList
      rw [List.foldl_append, List.foldl_cons, List.foldl_nil]
    rw [hlast, find?_insert, List.reverse_append, ih]
    rfl

theorem mem_insert {k : κ} {v : α} {t : Table κ α} {row : κ × α} (h : row ∈ insert k v t) :
    row = (k, v) ∨ row ∈ t := by
  induction t with
  | nil => exact .inl (List.mem_singleton.mp h)
  | cons head t ih =>
    obtain ⟨l, w⟩ := head
    unfold insert at h
    split at h
    · exact List.mem_cons.mp h
    · split at h
      · rcases List.mem_cons.mp h with h | h
        · exact .inl h
        · exact .inr (List.mem_cons_of_mem _ h)
      · rcases List.mem_cons.mp h with h | h
        · exact .inr (h ▸ List.mem_cons_self)
        · exact (ih h).imp_right (List.mem_cons_of_mem _)

theorem mem_foldl_insert {rows : List (κ × α)} {t : Table κ α} {row : κ × α}
    (h : row ∈ rows.foldl (fun t row => insert row.1 row.2 t) t) : row ∈ rows ∨ row ∈ t := by
  induction rows generalizing t with
  | nil => exact .inr h
  | cons head rows ih =>
    rcases ih h with h | h
    · exact .inl (List.mem_cons_of_mem _ h)
    · rcases mem_insert h with rfl | h
      · exact .inl List.mem_cons_self
      · exact .inr h

theorem mem_of_mem_ofList {rows : List (κ × α)} {row : κ × α} (h : row ∈ ofList rows) :
    row ∈ rows :=
  (mem_foldl_insert h).resolve_right (fun h => nomatch h)

/-! ## Erasing -/

omit [Key κ] in
theorem erase_comm (k k' : κ) (t : Table κ α) : erase k (erase k' t) = erase k' (erase k t) := by
  unfold erase
  rw [List.filter_filter, List.filter_filter]
  exact List.filter_congr fun row _ => Bool.and_comm _ _

omit [Key κ] in
theorem erase_of_find?_none {k : κ} {t : Table κ α} (h : find? k t = none) : erase k t = t := by
  unfold erase
  induction t with
  | nil => rfl
  | cons row t ih =>
    obtain ⟨l, v⟩ := row
    rw [find?] at h
    split at h
    · cases h
    · next hl => rw [List.filter_cons_of_pos (by simpa using hl), ih h]

/-- What is put under a key that a filter drops does not count for what it keeps. -/
theorem filter_insert {p : κ → Bool} {k : κ} (h : p k = false) (v : α) (t : Table κ α) :
    (insert k v t).filter (fun row => p row.1) = t.filter (fun row => p row.1) := by
  induction t with
  | nil => rw [insert, List.filter_cons_of_neg (by simp [h])]
  | cons row t ih =>
    obtain ⟨l, w⟩ := row
    unfold insert
    split
    · rw [List.filter_cons_of_neg (by simp [h])]
    · split
      · rename_i he
        subst he
        rw [List.filter_cons_of_neg (by simp [h]), List.filter_cons_of_neg (by simp [h])]
      · rw [List.filter_cons, List.filter_cons, ih]

theorem erase_insert (k : κ) (v : α) (t : Table κ α) : erase k (insert k v t) = erase k t :=
  filter_insert (p := fun l => decide (l ≠ k)) (by simp) v t

/-! ## Ordered tables -/

omit [DecidableEq κ] in
theorem sorted_nil : Sorted ([] : Table κ α) := List.Pairwise.nil

omit [DecidableEq κ] in
theorem sorted_cons {k : κ} {v : α} {t : Table κ α} :
    Sorted ((k, v) :: t) ↔ (∀ row ∈ t, Key.before k row.1 = true) ∧ Sorted t := by
  unfold Sorted keys
  rw [List.map_cons, List.pairwise_cons, List.forall_mem_map]

omit [DecidableEq κ] in
theorem Sorted.filter {t : Table κ α} (h : Sorted t) (p : κ × α → Bool) : Sorted (t.filter p) :=
  List.Pairwise.sublist (List.filter_sublist.map _) h

theorem Sorted.erase {t : Table κ α} (h : Sorted t) (k : κ) : Sorted (erase k t) := h.filter _

variable [StrictKey κ]

theorem Sorted.insert {t : Table κ α} (h : Sorted t) (k : κ) (v : α) : Sorted (insert k v t) := by
  induction t with
  | nil => exact sorted_cons.mpr ⟨by simp, sorted_nil⟩
  | cons row t ih =>
    obtain ⟨l, w⟩ := row
    obtain ⟨hl, ht⟩ := sorted_cons.mp h
    unfold Table.insert
    split
    · rename_i hk
      refine sorted_cons.mpr ⟨fun row hrow => ?_, h⟩
      rcases List.mem_cons.mp hrow with rfl | hrow
      · exact hk
      · exact StrictKey.trans hk (hl row hrow)
    · rename_i hk
      split
      · rename_i he
        subst he
        exact sorted_cons.mpr ⟨hl, ht⟩
      · rename_i he
        refine sorted_cons.mpr ⟨fun row hrow => ?_, ih ht⟩
        rcases mem_insert hrow with rfl | hrow
        · -- the new key comes neither before the head nor is it the head's
          rcases StrictKey.total k l with h' | h' | h'
          · exact absurd h' hk
          · exact absurd h' he
          · exact h'
        · exact hl row hrow

theorem sorted_foldl_insert {t : Table κ α} (h : Sorted t) (rows : List (κ × α)) :
    Sorted (rows.foldl (fun t row => Table.insert row.1 row.2 t) t) := by
  induction rows generalizing t with
  | nil => exact h
  | cons row rows ih => exact ih (h.insert row.1 row.2)

theorem sorted_ofList (rows : List (κ × α)) : Sorted (ofList rows) :=
  sorted_foldl_insert sorted_nil rows

omit [DecidableEq κ] in
theorem Sorted.head_notMem {k : κ} {v : α} {t : Table κ α} (h : Sorted ((k, v) :: t)) :
    ∀ row ∈ t, row.1 ≠ k := by
  rintro row hrow rfl
  have := (sorted_cons.mp h).1 row hrow
  rw [StrictKey.irrefl] at this
  cases this

theorem Sorted.find?_of_mem {t : Table κ α} (h : Sorted t) {k : κ} {v : α} (hm : (k, v) ∈ t) :
    find? k t = some v := by
  induction t with
  | nil => cases hm
  | cons row t ih =>
    obtain ⟨l, w⟩ := row
    rcases List.mem_cons.mp hm with hm | hm
    · cases hm; rw [find?_cons, if_pos rfl]
    · rw [find?_cons, if_neg (Ne.symm (h.head_notMem _ hm))]
      exact ih (sorted_cons.mp h).2 hm

omit [DecidableEq κ] in
theorem Sorted.nodup {t : Table κ α} (h : Sorted t) : (keys t).Nodup := by
  refine List.Pairwise.imp (fun {a b} hab he => ?_) h
  rw [he, StrictKey.irrefl] at hab
  cases hab

/-- Two ordered tables with the same values under all keys are one table. -/
theorem Sorted.ext {s t : Table κ α} (hs : Sorted s) (ht : Sorted t)
    (h : ∀ k, find? k s = find? k t) : s = t := by
  induction s generalizing t with
  | nil =>
    cases t with
    | nil => rfl
    | cons row t =>
      have := h row.1
      rw [find?_cons, if_pos rfl] at this
      cases this
  | cons row s ih =>
    obtain ⟨k, v⟩ := row
    cases t with
    | nil =>
      have := h k
      rw [find?_cons, if_pos rfl] at this
      cases this
    | cons row t =>
      obtain ⟨l, w⟩ := row
      obtain ⟨hk, hs'⟩ := sorted_cons.mp hs
      obtain ⟨hl, ht'⟩ := sorted_cons.mp ht
      -- neither head comes before the other, since each is found in the other table
      have hkl : k = l := by
        refine Decidable.byContradiction fun hne => ?_
        have h₁ : (k, v) ∈ (l, w) :: t :=
          mem_of_find? ((h k).symm.trans (by rw [find?_cons, if_pos rfl]))
        have h₂ : (l, w) ∈ (k, v) :: s :=
          mem_of_find? ((h l).trans (by rw [find?_cons, if_pos rfl]))
        rcases List.mem_cons.mp h₁ with h₁ | h₁
        · cases h₁; exact hne rfl
        rcases List.mem_cons.mp h₂ with h₂ | h₂
        · cases h₂; exact hne rfl
        have := StrictKey.trans (hk _ h₂) (hl _ h₁)
        rw [StrictKey.irrefl] at this
        cases this
      subst hkl
      have hv : v = w := by simpa [find?_cons] using h k
      subst hv
      congr 1
      refine ih hs' ht' fun k' => ?_
      by_cases he : k = k'
      · subst he
        rw [find?_eq_none.mpr hs.head_notMem, find?_eq_none.mpr ht.head_notMem]
      · simpa [find?_cons, he] using h k'

/-- An ordered table is made of its rows. -/
theorem ofList_of_sorted {t : Table κ α} (h : Sorted t) : ofList t = t := by
  refine (sorted_ofList t).ext h fun k => ?_
  rw [find?_ofList, find?_perm_reverse h.nodup]

end Table

/-! ## Sets -/

namespace KeySet

variable {κ : Type} [DecidableEq κ]

theorem mem_toList {k : κ} {s : KeySet κ} : k ∈ s.toList ↔ Table.find? k s = some () := by
  induction s with
  | nil => simp [toList, Table.keys]
  | cons row s ih =>
    obtain ⟨l, w⟩ := row
    show k ∈ l :: toList s ↔ _
    rw [List.mem_cons, ih, Table.find?_cons]
    by_cases h : l = k
    · simp [h]
    · simp [h, Ne.symm h]

theorem has_iff {k : κ} {s : KeySet κ} : has k s = true ↔ k ∈ s.toList := by
  rw [mem_toList]
  show (Table.find? k s).isSome = true ↔ _
  cases Table.find? k s <;> simp

theorem mem_remove {k k' : κ} {s : KeySet κ} :
    k ∈ (remove k' s).toList ↔ k ∈ s.toList ∧ k ≠ k' := by
  unfold remove
  rw [mem_toList, mem_toList, Table.find?_erase]
  by_cases h : k' = k
  · simp [h]
  · simp [h, Ne.symm h]

theorem mem_removeAll {k : κ} {items : List κ} {s : KeySet κ} :
    k ∈ (removeAll items s).toList ↔ k ∈ s.toList ∧ k ∉ items := by
  induction items generalizing s with
  | nil => simp [removeAll]
  | cons i items ih =>
    show k ∈ (removeAll items (remove i s)).toList ↔ _
    rw [ih, mem_remove, List.mem_cons, not_or, and_assoc]

variable [Key κ]

theorem mem_add {k k' : κ} {s : KeySet κ} : k ∈ (add k' s).toList ↔ k = k' ∨ k ∈ s.toList := by
  unfold add
  rw [mem_toList, mem_toList, Table.find?_insert]
  by_cases h : k' = k
  · simp [h]
  · simp [h, Ne.symm h]

theorem mem_foldl_add {k : κ} {items : List κ} {s : KeySet κ} :
    k ∈ (items.foldl (fun s i => add i s) s).toList ↔ k ∈ items ∨ k ∈ s.toList := by
  induction items generalizing s with
  | nil => simp
  | cons i items ih => rw [List.foldl_cons, ih, mem_add, List.mem_cons, or_left_comm, or_assoc]

theorem mem_ofList {k : κ} {items : List κ} : k ∈ (ofList items).toList ↔ k ∈ items :=
  mem_foldl_add.trans (or_iff_left List.not_mem_nil)

theorem sorted_removeAll {s : KeySet κ} (h : Table.Sorted s) (items : List κ) :
    Table.Sorted (removeAll items s) := by
  induction items generalizing s with
  | nil => exact h
  | cons i items ih => exact ih (h.erase i)

variable [StrictKey κ]

theorem sorted_add {s : KeySet κ} (h : Table.Sorted s) (k : κ) : Table.Sorted (add k s) :=
  h.insert k ()

/-- Two ordered sets with the same members are one set. -/
theorem ext_of_sorted {s t : KeySet κ} (hs : Table.Sorted s) (ht : Table.Sorted t)
    (h : ∀ k, k ∈ s.toList ↔ k ∈ t.toList) : s = t := by
  refine hs.ext ht fun k => ?_
  have hk := h k
  rw [mem_toList, mem_toList] at hk
  cases hk' : Table.find? k t with
  | some u => exact hk.mpr hk'
  | none =>
    cases hs' : Table.find? k s with
    | none => rfl
    | some u => rw [hk.mp hs'] at hk'; cases hk'

end KeySet

end Homeserver
