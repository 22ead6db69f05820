/-
Paths into values: the members that lead from a value to one inside it. What is set under a path is
found there, and what is found under any other path stays, unless the one leads through the other.
-/
import Homeserver.Proofs.Table

namespace Homeserver.Json

/-! ## Looking into values -/

theorem string?_eq_some {v : Json} {s : String} : v.string? = some s ↔ v = .str s := by
  cases v <;> simp [string?]

theorem bind_string?_eq_some {v : Option Json} {s : String} :
    v.bind Json.string? = some s ↔ v = some (.str s) := by
  simp only [Option.bind_eq_some_iff, string?_eq_some, exists_eq_right]

/-! ## Setting a value inside a value -/

/-- The value in which these members lead to another value; members that are missing are made. -/
def setPath (new : Json) : List String → Json → Json
  | [], _ => new
  | key :: rest, v => .obj (Table.insert key (setPath new rest ((v.get? key).getD .null)) v.membersD)

theorem get?_eq_find? (v : Json) (key : String) : v.get? key = Table.find? key v.membersD := by
  cases v <;> rfl

theorem path?_append (v : Json) (p q : List String) :
    v.path? (p ++ q) = (v.path? p).bind (·.path? q) := by
  induction p generalizing v with
  | nil => rfl
  | cons key p ih =>
    rw [List.cons_append, path?, path?, Option.bind_assoc]
    congr 1
    funext w
    exact ih w

theorem path?_setPath_self (new : Json) (p : List String) (v : Json) :
    (setPath new p v).path? p = some new := by
  induction p generalizing v with
  | nil => rfl
  | cons key p ih =>
    rw [setPath, path?, get?, Table.find?_insert_self, Option.bind_some, ih]

/-- What other members lead to stays. -/
theorem path?_setPath_of_incomparable (new : Json) {p q : List String} (hpq : ¬ p <+: q)
    (hqp : ¬ q <+: p) (v : Json) : (setPath new p v).path? q = v.path? q := by
  induction p generalizing q v with
  | nil => exact absurd List.nil_prefix hpq
  | cons key p ih =>
    cases q with
    | nil => exact absurd List.nil_prefix hqp
    | cons l q =>
      rw [setPath, path?, path?, get?]
      by_cases hl : key = l
      · subst hl
        rw [List.cons_prefix_cons] at hpq hqp
        rw [Table.find?_insert_self, Option.bind_some,
          ih (fun h => hpq ⟨rfl, h⟩) (fun h => hqp ⟨rfl, h⟩)]
        cases v.get? key with
        | some w => rfl
        | none =>
          cases q with
          | nil => exact absurd ⟨rfl, List.nil_prefix⟩ hqp
          | cons _ _ => rfl
      · rw [Table.find?_insert_of_ne hl, ← get?_eq_find?]

/-- All members on the way to a value that is set are there. -/
theorem path?_setPath_isSome (new : Json) {p q : List String} (h : q <+: p) (v : Json) :
    ((setPath new p v).path? q).isSome = true := by
  obtain ⟨rest, rfl⟩ := h
  have hself := path?_setPath_self new (q ++ rest) v
  rw [path?_append, Option.bind_eq_some_iff] at hself
  obtain ⟨w, hw, -⟩ := hself
  rw [hw, Option.isSome_some]

end Homeserver.Json
