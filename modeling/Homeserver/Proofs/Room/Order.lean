/-
The order of events by depth and id. It is linear up to the ids, so what is sorted by it goes from
the root of a graph upwards. Where no two events have one id it is strict, and then the events that
are sorted tell their order: two such lists with the same members are one list.
-/
import Homeserver.Proofs.Table
import Homeserver.Room.Basic
import Mathlib.Data.List.Sort

namespace Homeserver.Room

theorem depthOrder_iff {a b : Event} : depthOrder a b = true ↔
    a.depth < b.depth ∨ a.depth = b.depth ∧ Key.before b.id a.id = false := by
  simp only [depthOrder, Bool.or_eq_true, decide_eq_true_eq, Bool.and_eq_true, beq_iff_eq,
    Bool.not_eq_true']

theorem depth_le_of_depthOrder {a b : Event} (h : depthOrder a b = true) : a.depth ≤ b.depth := by
  rcases depthOrder_iff.mp h with h | ⟨h, -⟩ <;> omega

theorem depthOrder_trans {a b c : Event} (hab : depthOrder a b = true)
    (hbc : depthOrder b c = true) : depthOrder a c = true := by
  rw [depthOrder_iff] at hab hbc ⊢
  rcases hab with hab | ⟨hab, hba⟩
  · left
    rcases hbc with hbc | ⟨hbc, -⟩ <;> omega
  · rcases hbc with hbc | ⟨hbc, hcb⟩
    · left
      omega
    · refine .inr ⟨hab.trans hbc, Bool.eq_false_iff.mpr fun hca => ?_⟩
      rcases StrictKey.total a.id b.id with h | h | h
      · rw [StrictKey.trans hca h] at hcb
        cases hcb
      · rw [← h, hca] at hcb
        cases hcb
      · rw [h] at hba
        cases hba

theorem depthOrder_total (a b : Event) : (depthOrder a b || depthOrder b a) = true := by
  rw [Bool.or_eq_true, depthOrder_iff, depthOrder_iff]
  rcases Int.lt_trichotomy a.depth b.depth with h | h | h
  · exact .inl (.inl h)
  · cases hba : Key.before b.id a.id with
    | false => exact .inl (.inr ⟨h, rfl⟩)
    | true =>
      refine .inr (.inr ⟨h.symm, Bool.eq_false_iff.mpr fun hab => ?_⟩)
      have := StrictKey.trans hba hab
      rw [StrictKey.irrefl] at this
      cases this
  · exact .inr (.inl h)

theorem sortByDepth_perm (l : List Event) : (sortByDepth l).Perm l := List.mergeSort_perm _ _

theorem mem_sortByDepth {l : List Event} {e : Event} : e ∈ sortByDepth l ↔ e ∈ l :=
  (sortByDepth_perm l).mem_iff

theorem nodup_ids_sortByDepth {l : List Event} :
    ((sortByDepth l).map Event.id).Nodup ↔ (l.map Event.id).Nodup :=
  ((sortByDepth_perm l).map Event.id).nodup_iff

theorem pairwise_sortByDepth (l : List Event) :
    (sortByDepth l).Pairwise fun a b => depthOrder a b = true :=
  @List.pairwise_mergeSort Event depthOrder (fun _ _ _ => depthOrder_trans) depthOrder_total l

/-- In what is sorted, a deeper event stands behind one that is less deep. -/
theorem mem_before_of_depth_lt {l pre post : List Event} {e f : Event}
    (h : sortByDepth l = pre ++ e :: post) (hf : f ∈ sortByDepth l) (hlt : f.depth < e.depth) :
    f ∈ pre := by
  have hsorted := pairwise_sortByDepth l
  rw [h] at hf hsorted
  rcases List.mem_append.mp hf with hf | hf
  · exact hf
  · rcases List.mem_cons.mp hf with rfl | hf
    · omega
    · have := (List.pairwise_cons.mp (List.pairwise_append.mp hsorted).2.1).1 f hf
      have := depth_le_of_depthOrder this
      omega

/-! ## The strict order -/

/-- The one event is less deep than the other, or as deep and its id comes first. -/
def Precedes (a b : Event) : Prop :=
  a.depth < b.depth ∨ a.depth = b.depth ∧ Key.before a.id b.id = true

instance : Std.Asymm Precedes where
  asymm a b := by
    rintro (hab | ⟨hab, hid⟩) (hba | ⟨hba, hid'⟩)
    · omega
    · omega
    · omega
    · have := StrictKey.trans hid hid'
      rw [StrictKey.irrefl] at this
      cases this

theorem precedes_of_depthOrder {a b : Event} (h : depthOrder a b = true) (hid : a.id ≠ b.id) :
    Precedes a b := by
  rcases depthOrder_iff.mp h with h | ⟨h, hba⟩
  · exact .inl h
  · rcases StrictKey.total a.id b.id with hab | hab | hab
    · exact .inr ⟨h, hab⟩
    · exact absurd hab hid
    · rw [hba] at hab
      cases hab

theorem pairwise_precedes {l : List Event} (h : l.Pairwise fun a b => depthOrder a b = true)
    (hn : (l.map Event.id).Nodup) : l.Pairwise Precedes :=
  (h.and (List.pairwise_map.mp hn)).imp fun hab => precedes_of_depthOrder hab.1 hab.2

/-- In a list that is in order, the events before one are those that precede it. -/
theorem mem_before_iff_precedes {l pre post : List Event} {e f : Event} (h : l.Pairwise Precedes)
    (hl : l = pre ++ e :: post) (hf : f ∈ l) : f ∈ pre ↔ Precedes f e := by
  subst hl
  obtain ⟨-, hpost, hpre⟩ := List.pairwise_append.mp h
  constructor
  · exact fun hf => hpre f hf e List.mem_cons_self
  · intro hlt
    rcases List.mem_append.mp hf with hf | hf
    · exact hf
    · rcases List.mem_cons.mp hf with rfl | hf
      · exact absurd hlt (Std.Asymm.asymm _ _ hlt)
      · exact absurd hlt (Std.Asymm.asymm _ _ ((List.pairwise_cons.mp hpost).1 f hf))

end Homeserver.Room
