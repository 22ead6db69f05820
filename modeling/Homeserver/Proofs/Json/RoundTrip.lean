/-
The canonical text of a value is read as that value, if its numbers are integers of 64 bits, its
members are in order and it is nested no deeper than what is read.
-/
import Homeserver.Json.Canonical
import Homeserver.Json.Reader
import Homeserver.Proofs.Table
import Mathlib.Tactic.SplitIfs

namespace Homeserver.Json

/-! ## Values with a text of their own -/

mutual

/-- Every number in the value is an integer of 64 bits, with or without a sign. -/
def Integral : Json → Prop
  | .int n => Int64.minValue.toInt ≤ n ∧ n < UInt64.size
  | .double _ => False
  | .arr items => IntegralItems items
  | .obj members => IntegralMembers members
  | _ => True

def IntegralItems : List Json → Prop
  | [] => True
  | v :: rest => Integral v ∧ IntegralItems rest

def IntegralMembers : List (String × Json) → Prop
  | [] => True
  | (_, v) :: rest => Integral v ∧ IntegralMembers rest

end

mutual

/-- How deep arrays and objects are nested in the value. -/
def nesting : Json → Nat
  | .arr items => nestingItems items + 1
  | .obj members => nestingMembers members + 1
  | _ => 0

def nestingItems : List Json → Nat
  | [] => 0
  | v :: rest => max (nesting v) (nestingItems rest)

def nestingMembers : List (String × Json) → Nat
  | [] => 0
  | (_, v) :: rest => max (nesting v) (nestingMembers rest)

end

section Items

variable {items : List Json} {members : Members} {depth : Nat}

theorem orderedItems_iff : OrderedItems items ↔ ∀ v ∈ items, v.Ordered := by
  induction items with
  | nil => simp [OrderedItems]
  | cons v items ih => rw [List.forall_mem_cons, OrderedItems, ih]

theorem orderedMembers_iff : OrderedMembers members ↔ ∀ row ∈ members, row.2.Ordered := by
  induction members with
  | nil => simp [OrderedMembers]
  | cons row members ih => rw [List.forall_mem_cons, OrderedMembers, ih]

theorem integralItems_iff : IntegralItems items ↔ ∀ v ∈ items, v.Integral := by
  induction items with
  | nil => simp [IntegralItems]
  | cons v items ih => rw [List.forall_mem_cons, IntegralItems, ih]

theorem integralMembers_iff : IntegralMembers members ↔ ∀ row ∈ members, row.2.Integral := by
  induction members with
  | nil => simp [IntegralMembers]
  | cons row members ih => rw [List.forall_mem_cons, IntegralMembers, ih]

theorem nestingItems_le : nestingItems items ≤ depth ↔ ∀ v ∈ items, v.nesting ≤ depth := by
  induction items with
  | nil => simp [nestingItems]
  | cons v items ih => rw [List.forall_mem_cons, nestingItems, Nat.max_le, ih]

theorem nestingMembers_le :
    nestingMembers members ≤ depth ↔ ∀ row ∈ members, row.2.nesting ≤ depth := by
  induction members with
  | nil => simp [nestingMembers]
  | cons row members ih => rw [List.forall_mem_cons, nestingMembers, Nat.max_le, ih]

end Items

namespace Reader

open Canonical

/-! ## Texts -/

theorem hexValue_hexDigit : ∀ n < 16, hexValue (hexDigit n) = some n := by decide

/-- A character below U+0020 is read from the escape of its number. -/
theorem text_unit {c : Char} (h : c.toNat < 32) (rest : List Char) :
    text .plain (['\\', 'u', '0', '0', hexDigit (c.toNat / 16), hexDigit (c.toNat % 16)] ++ rest) =
      (text .plain rest).map (fun (cs, r) => (c :: cs, r)) := by
  have hhigh := hexValue_hexDigit (c.toNat / 16) (by omega)
  have hlow := hexValue_hexDigit (c.toNat % 16) (by omega)
  have hvalue : 16 * (c.toNat / 16) + c.toNat % 16 = c.toNat := by omega
  have hend : unitEnd none c.toNat = some (.inl c) := by
    have hhalf : isHigh c.toNat = false ∧ isLow c.toNat = false := by
      constructor <;> simp only [isHigh, isLow, Bool.and_eq_false_iff, decide_eq_false_iff_not] <;>
        omega
    simp only [unitEnd, hhalf.1, hhalf.2, Char.ofNat_toNat]
    rfl
  have hzero : hexValue '0' = some 0 := rfl
  simp [text, hzero, hhigh, hlow, hvalue, hend]

theorem text_escape (c : Char) (rest : List Char) :
    text .plain (escape c ++ rest) = (text .plain rest).map (fun (cs, r) => (c :: cs, r)) := by
  unfold escape
  split_ifs with hquote hslash hn hr ht hb hf hlow
  · subst c; simp [text, escaped]
  · subst c; simp [text, escaped]
  · subst c; simp [text, escaped]
  · subst c; simp [text, escaped]
  · subst c; simp [text, escaped]
  · subst c; simp [text, escaped]
  · subst c; simp [text, escaped]
  · exact text_unit hlow rest
  · simp [text, hquote, hslash, hlow]

/-- The text between the quotes of a quoted text is the quoted one. -/
theorem text_quoted (s rest : List Char) :
    text .plain (s.flatMap escape ++ '"' :: rest) = some (s, rest) := by
  induction s with
  | nil => simp [text]
  | cons c s ih => rw [List.flatMap_cons, List.append_assoc, text_escape, ih]; rfl

/-! ## Numbers -/

/-- A text that continues no number before it. -/
def EndsNumber (rest : List Char) : Prop :=
  ∀ c ∈ rest.head?, c.isDigit = false ∧ c ≠ '.' ∧ c ≠ 'e' ∧ c ≠ 'E'

theorem isDigit_toDigits (n : Nat) : ∀ c ∈ Nat.toDigits 10 n, c.isDigit = true :=
  fun _ hc => Nat.isDigit_of_mem_toDigits (by decide) (by decide) hc

theorem digits_append {ds rest : List Char} (hds : ∀ c ∈ ds, c.isDigit = true)
    (hrest : EndsNumber rest) : digits (ds ++ rest) = (ds, rest) := by
  unfold digits
  rw [List.takeWhile_append_of_pos hds, List.dropWhile_append_of_pos hds]
  cases rest with
  | nil => simp
  | cons c rest =>
    have hc := (hrest c (by simp)).1
    simp [hc]

/-- Only zero is written with a zero in front. -/
theorem head_toDigits {n : Nat} {ds : List Char} (h : Nat.toDigits 10 n = '0' :: ds) : ds = [] := by
  induction n using Nat.strongRecOn generalizing ds with
  | ind n ih =>
    by_cases hn : n < 10
    · rw [Nat.toDigits_of_lt_base hn] at h
      exact (List.cons.inj h).2.symm
    · rw [Nat.toDigits_of_base_le (by decide) (by omega)] at h
      -- the first digit is that of the tenth part, which would be zero
      cases hhead : Nat.toDigits 10 (n / 10) with
      | nil => exact absurd hhead Nat.toDigits_ne_nil
      | cons d rest =>
        rw [hhead] at h
        obtain ⟨rfl, -⟩ := List.cons.inj h
        have hrest := ih _ (by omega) hhead
        have hzero : n / 10 = 0 := by
          have hvalue := Nat.ofDigitChars_ten_toDigits (n := n / 10)
          rw [hhead, hrest] at hvalue
          simpa [Nat.ofDigitChars] using hvalue.symm
        omega

theorem wholePart_toDigits {n : Nat} {rest : List Char} (hrest : EndsNumber rest) :
    wholePart (Nat.toDigits 10 n ++ rest) = some (Nat.toDigits 10 n, rest) := by
  unfold wholePart
  rw [digits_append (isDigit_toDigits n) hrest]
  split
  · next h => exact absurd (congrArg Prod.fst h) Nat.toDigits_ne_nil
  · next h => exact absurd (head_toDigits (congrArg Prod.fst h)) (List.cons_ne_nil _ _)
  · rfl

theorem natural_toDigits (n : Nat) : natural (Nat.toDigits 10 n) = n := by
  have h := Nat.ofDigitChars_ten_toDigits (n := n)
  rwa [Nat.ofDigitChars_eq_foldl] at h

theorem unsigned_toDigits (negative : Bool) {n : Nat} {rest : List Char}
    (hn : if negative then 0 < n ∧ n ≤ UInt64.size / 2 else n < UInt64.size)
    (hrest : EndsNumber rest) :
    unsigned negative (Nat.toDigits 10 n ++ rest) =
      some (.int (if negative then -(n : Int) else n), rest) := by
  have hfraction : fractionPart rest = some (none, rest) := by
    unfold fractionPart
    split
    · next r => exact absurd rfl (hrest '.' (by simp)).2.1
    · rfl
  have hexponent : exponentPart rest = some (none, rest) := by
    cases rest with
    | nil => rfl
    | cons c rest =>
      have hc := (hrest c (by simp)).2.2
      unfold exponentPart
      exact if_neg (not_or.mpr hc)
  have hnumber : numberOf negative (Nat.toDigits 10 n) none none =
      some (.int (if negative then -(n : Int) else n)) := by
    unfold numberOf
    rw [natural_toDigits]
    exact if_pos ⟨rfl, rfl, hn⟩
  unfold unsigned
  rw [wholePart_toDigits hrest]
  simp only [Option.bind_eq_bind, Option.bind_some, hfraction, hexponent, hnumber]
  rfl

theorem digit_ne {c : Char} (h : c.isDigit = true) :
    c ≠ '-' ∧ c ≠ 'n' ∧ c ≠ 't' ∧ c ≠ 'f' ∧ c ≠ '"' ∧ c ≠ '[' ∧ c ≠ '{' ∧ isBlank c = false := by
  refine ⟨?_, ?_, ?_, ?_, ?_, ?_, ?_, ?_⟩
  iterate 7 (rintro rfl; revert h; decide)
  unfold isBlank
  simp only [Bool.or_eq_false_iff, decide_eq_false_iff_not]
  refine ⟨⟨⟨?_, ?_⟩, ?_⟩, ?_⟩ <;> (rintro rfl; revert h; decide)

/-! ## Values -/

theorem scalar_number {c : Char} {s : List Char} (hc : c = '-' ∨ c.isDigit = true) :
    scalar (c :: s) = number (c :: s) := by
  unfold scalar
  split
  iterate 4
    next h =>
      obtain ⟨rfl, -⟩ := List.cons.inj h
      exact absurd hc (by decide)
  rfl

/-- An integer is read by its sign and its digits. -/
theorem scalar_integer {n : Int} (hn : Int64.minValue.toInt ≤ n ∧ n < UInt64.size)
    {rest : List Char} (hrest : EndsNumber rest) :
    scalar (integer n ++ rest) = some (.int n, rest) := by
  have hmin : Int64.minValue.toInt = -9223372036854775808 := by decide
  have hsize : UInt64.size = 18446744073709551616 := by decide
  rw [hmin, hsize] at hn
  unfold integer
  split
  · next hneg =>
    have hread := unsigned_toDigits true (n := n.natAbs)
      (by rw [if_pos rfl, hsize]; omega) hrest
    rw [List.cons_append, scalar_number (.inl rfl)]
    show unsigned true _ = _
    rw [hread, if_pos rfl, show -(n.natAbs : Int) = n by omega]
  · next hpos =>
    -- without a sign the number is told apart by its first digit
    have hread := unsigned_toDigits false (n := n.natAbs)
      (by rw [if_neg (by decide), hsize]; omega) hrest
    rw [if_neg (by decide), show (n.natAbs : Int) = n by omega] at hread
    cases hds : Nat.toDigits 10 n.natAbs with
    | nil => exact absurd hds Nat.toDigits_ne_nil
    | cons d ds =>
      have hd := isDigit_toDigits n.natAbs d (by rw [hds]; exact List.mem_cons_self)
      rw [List.cons_append, scalar_number (.inr hd), ← hread, hds, List.cons_append]
      unfold number
      split
      · next h => exact absurd (List.cons.inj h).1 (digit_ne hd).1
      · rfl

/-- A text starts with a character that starts a value other than an array or object. -/
theorem value_scalar {c : Char} {s : List Char}
    (hc : c ≠ '[' ∧ c ≠ '{' ∧ isBlank c = false) (depth : Nat) :
    value depth (c :: s) = scalar (c :: s) := by
  have hskip : skip (c :: s) = c :: s := List.dropWhile_cons_of_neg (by simp [hc.2.2])
  cases depth with
  | zero =>
    unfold value
    rw [hskip]
    split
    · next h => exact absurd (List.cons.inj h).1 hc.1
    · next h => exact absurd (List.cons.inj h).1 hc.2.1
    · rfl
  | succ depth =>
    unfold value
    rw [hskip]
    split
    · next h => exact absurd (List.cons.inj h).1 hc.1
    · next h => exact absurd (List.cons.inj h).1 hc.2.1
    · rfl

theorem value_integer {n : Int} (hn : Int64.minValue.toInt ≤ n ∧ n < UInt64.size)
    {rest : List Char} (hrest : EndsNumber rest) (depth : Nat) :
    value depth (integer n ++ rest) = some (.int n, rest) := by
  rw [← scalar_integer hn hrest]
  unfold integer
  split
  · exact value_scalar (by decide) depth
  · cases hds : Nat.toDigits 10 n.natAbs with
    | nil => exact absurd hds Nat.toDigits_ne_nil
    | cons d ds =>
      have hd := digit_ne (isDigit_toDigits n.natAbs d (by rw [hds]; exact List.mem_cons_self))
      exact value_scalar ⟨hd.2.2.2.2.2.1, hd.2.2.2.2.2.2⟩ depth

theorem value_quote (s : String) (rest : List Char) (depth : Nat) :
    value depth (quote s.toList ++ rest) = some (.str s, rest) := by
  have hread : text .plain (s.toList.flatMap escape ++ ['"'] ++ rest) = some (s.toList, rest) := by
    rw [List.append_assoc]
    exact text_quoted _ _
  unfold quote
  rw [List.cons_append, value_scalar (by decide)]
  unfold scalar
  simp only [hread, Option.map_some, String.ofList_toList]

/-- A value other than a floating point number starts with no blank and no closing bracket. -/
theorem write_start {v : Json} (hv : v.Integral) :
    ∃ c cs, write v = c :: cs ∧ isBlank c = false ∧ c ≠ ']' := by
  cases v with
  | null => exact ⟨_, _, rfl, by decide, by decide⟩
  | bool b => cases b <;> exact ⟨_, _, rfl, by decide, by decide⟩
  | int n =>
    rw [write]
    unfold integer
    split
    · exact ⟨_, _, rfl, by decide, by decide⟩
    · cases hds : Nat.toDigits 10 n.natAbs with
      | nil => exact absurd hds Nat.toDigits_ne_nil
      | cons d ds =>
        have hd := isDigit_toDigits n.natAbs d (by rw [hds]; exact List.mem_cons_self)
        refine ⟨d, ds, rfl, (digit_ne hd).2.2.2.2.2.2.2, ?_⟩
        rintro rfl
        exact absurd hd (by decide)
  | double x => rw [Integral] at hv; exact hv.elim
  | str s => exact ⟨_, _, by rw [write]; rfl, by decide, by decide⟩
  | arr items => exact ⟨_, _, by rw [write], by decide, by decide⟩
  | obj members => exact ⟨_, _, by rw [write], by decide, by decide⟩

theorem writeItems_cons (v w : Json) (vs : List Json) :
    writeItems (v :: w :: vs) = write v ++ ',' :: writeItems (w :: vs) := by
  rw [writeItems]
  exact fun h => nomatch h

theorem writeMembers_cons (k : String) (v : Json) (row : String × Json)
    (rows : List (String × Json)) :
    writeMembers ((k, v) :: row :: rows) =
      quote k.toList ++ ':' :: (write v ++ ',' :: writeMembers (row :: rows)) := by
  rw [writeMembers]
  exact fun h => nomatch h

theorem length_le_writeItems : ∀ vs : List Json, vs.length ≤ (writeItems vs).length
  | [] => Nat.zero_le _
  | [v] => by rw [writeItems]; simp
  | v :: w :: vs => by
    have h := length_le_writeItems (w :: vs)
    rw [writeItems_cons]
    simp only [List.length_cons, List.length_append] at h ⊢
    omega

theorem length_le_writeMembers :
    ∀ rows : List (String × Json), rows.length ≤ (writeMembers rows).length
  | [] => Nat.zero_le _
  | [(k, v)] => by rw [writeMembers]; simp only [List.length_cons, List.length_append]; omega
  | (k, v) :: row :: rows => by
    have h := length_le_writeMembers (row :: rows)
    rw [writeMembers_cons]
    simp only [List.length_cons, List.length_append] at h ⊢
    omega

theorem endsNumber_cons {c : Char} (h : c.isDigit = false ∧ c ≠ '.' ∧ c ≠ 'e' ∧ c ≠ 'E')
    (rest : List Char) : EndsNumber (c :: rest) := by
  rintro d hd
  cases hd
  exact h

theorem writeItems_start {v : Json} {vs : List Json} (hv : IntegralItems (v :: vs)) :
    ∃ c cs, writeItems (v :: vs) = c :: cs ∧ isBlank c = false ∧ c ≠ ']' := by
  rw [IntegralItems] at hv
  obtain ⟨c, cs, hc, hstart⟩ := write_start hv.1
  cases vs with
  | nil => exact ⟨c, _, by rw [writeItems, hc]; rfl, hstart⟩
  | cons w vs => exact ⟨c, _, by rw [writeItems_cons, hc]; rfl, hstart⟩

theorem writeMembers_start (row : String × Json) (rows : List (String × Json)) :
    ∃ cs, writeMembers (row :: rows) = '"' :: cs := by
  cases rows with
  | nil => exact ⟨_, by rw [writeMembers]; rfl⟩
  | cons next rows => exact ⟨_, by rw [writeMembers_cons]; rfl⟩

theorem skip_cons {c : Char} (h : isBlank c = false) (s : List Char) : skip (c :: s) = c :: s :=
  List.dropWhile_cons_of_neg (by simp [h])

theorem member_quote {read : List Char → Option (Json × List Char)} (k : String)
    (s : List Char) :
    member read (quote k.toList ++ ':' :: s) = (read s).map (fun (v, r) => ((k, v), r)) := by
  have hread : text .plain (k.toList.flatMap escape ++ ['"'] ++ ':' :: s) =
      some (k.toList, ':' :: s) := by
    rw [List.append_assoc]
    exact text_quoted _ _
  unfold member quote
  rw [List.cons_append, skip_cons (by decide)]
  simp only [hread, skip_cons (c := ':') (by decide), String.ofList_toList]

theorem array_of_items {read : List Char → Option (Json × List Char)} {c : Char}
    {s r : List Char} {vs : List Json} (hc : isBlank c = false ∧ c ≠ ']')
    (h : items read (c :: s).length (c :: s) = some (vs, r)) :
    array read (c :: s) = some (.arr vs, r) := by
  unfold array
  rw [skip_cons hc.1]
  split
  · next hs => exact absurd (List.cons.inj hs).1 hc.2
  · rw [h]; rfl

theorem object_of_members {read : List Char → Option (Json × List Char)} {s r : List Char}
    {rows : List (String × Json)} (hrows : Table.Sorted rows)
    (h : members read ('"' :: s).length ('"' :: s) = some (rows, r)) :
    object read ('"' :: s) = some (.obj rows, r) := by
  unfold object
  rw [skip_cons (by decide)]
  split
  · next hs => exact absurd (List.cons.inj hs).1 (by decide)
  · rw [h]
    show some (Json.obj (Table.ofList rows), r) = _
    rw [Table.ofList_of_sorted hrows]

mutual

/-- The text of a value is read as that value, whatever follows. -/
theorem value_write : ∀ (v : Json) (rest : List Char) {depth : Nat}, v.Ordered → v.Integral →
    v.nesting ≤ depth → EndsNumber rest → value depth (write v ++ rest) = some (v, rest)
  | .null, rest, depth, _, _, _, _ => by
    rw [write]
    exact value_scalar (by decide) depth
  | .bool true, rest, depth, _, _, _, _ => by
    rw [write]
    exact value_scalar (by decide) depth
  | .bool false, rest, depth, _, _, _, _ => by
    rw [write]
    exact value_scalar (by decide) depth
  | .int n, rest, depth, _, hv, _, hrest => by
    rw [Integral] at hv
    rw [write]
    exact value_integer hv hrest depth
  | .double x, _, _, _, hv, _, _ => by
    rw [Integral] at hv
    exact hv.elim
  | .str s, rest, depth, _, _, _, _ => by
    rw [write]
    exact value_quote s rest depth
  | .arr [], rest, depth, _, _, hdepth, _ => by
    rw [nesting] at hdepth
    obtain ⟨depth, rfl⟩ := Nat.exists_eq_add_of_le' hdepth
    rfl
  | .arr (v :: vs), rest, depth, ho, hv, hdepth, _ => by
    rw [Ordered] at ho
    rw [Integral] at hv
    rw [nesting] at hdepth
    obtain ⟨below, rfl⟩ := Nat.exists_eq_add_of_le' (Nat.le_of_add_left_le hdepth)
    -- as many items are read as the text has characters, and each item has one
    have hbound : (v :: vs).length ≤ (writeItems (v :: vs) ++ rest).length := by
      rw [List.length_append]
      exact Nat.le_add_right_of_le (length_le_writeItems _)
    have hread := items_write (v :: vs) rest (List.cons_ne_nil _ _) hbound ho hv
      (show _ ≤ below by omega)
    obtain ⟨c, cs, hc, hstart⟩ := writeItems_start hv
    rw [hc] at hread
    rw [write, hc]
    exact array_of_items hstart hread
  | .obj [], rest, depth, _, _, hdepth, _ => by
    rw [nesting] at hdepth
    obtain ⟨depth, rfl⟩ := Nat.exists_eq_add_of_le' hdepth
    rfl
  | .obj (row :: rows), rest, depth, ho, hv, hdepth, _ => by
    rw [Ordered] at ho
    rw [Integral] at hv
    rw [nesting] at hdepth
    obtain ⟨below, rfl⟩ := Nat.exists_eq_add_of_le' (Nat.le_of_add_left_le hdepth)
    have hbound : (row :: rows).length ≤ (writeMembers (row :: rows) ++ rest).length := by
      rw [List.length_append]
      exact Nat.le_add_right_of_le (length_le_writeMembers _)
    have hread := members_write (row :: rows) rest (List.cons_ne_nil _ _) hbound ho.2 hv
      (show _ ≤ below by omega)
    obtain ⟨cs, hc⟩ := writeMembers_start row rows
    rw [hc] at hread
    rw [write, hc]
    exact object_of_members ho.1 hread

theorem items_write : ∀ (vs : List Json) (rest : List Char) {depth bound : Nat}, vs ≠ [] →
    vs.length ≤ bound → OrderedItems vs → IntegralItems vs → nestingItems vs ≤ depth →
    items (value depth) bound (writeItems vs ++ rest) = some (vs, rest)
  | [], _, _, _, hne, _, _, _, _ => absurd rfl hne
  | [v], rest, depth, 0, _, hbound, ho, hv, hdepth => absurd hbound (by simp)
  | [v], rest, depth, bound + 1, _, hbound, ho, hv, hdepth => by
    rw [nestingItems, Nat.max_le] at hdepth
    have hread : value depth (write v ++ ([']'] ++ rest)) = some (v, ']' :: rest) :=
      value_write v _ ho.1 hv.1 hdepth.1 (endsNumber_cons (by decide) rest)
    rw [writeItems, List.append_assoc, items, hread]
    rfl
  | v :: w :: vs, rest, depth, 0, _, hbound, ho, hv, hdepth => absurd hbound (by simp)
  | v :: w :: vs, rest, depth, bound + 1, _, hbound, ho, hv, hdepth => by
    rw [nestingItems, Nat.max_le] at hdepth
    have hread := value_write v (',' :: (writeItems (w :: vs) ++ rest)) ho.1 hv.1
      hdepth.1 (endsNumber_cons (by decide) _)
    have hitems := items_write (w :: vs) rest (List.cons_ne_nil _ _)
      (Nat.le_of_succ_le_succ hbound) ho.2 hv.2 hdepth.2
    rw [writeItems_cons, List.append_assoc, List.cons_append, items, hread]
    show (items (value depth) bound (writeItems (w :: vs) ++ rest)).map _ = _
    rw [hitems]
    rfl

theorem members_write : ∀ (rows : List (String × Json)) (rest : List Char) {depth bound : Nat},
    rows ≠ [] → rows.length ≤ bound → OrderedMembers rows → IntegralMembers rows →
    nestingMembers rows ≤ depth →
    members (value depth) bound (writeMembers rows ++ rest) = some (rows, rest)
  | [], _, _, _, hne, _, _, _, _ => absurd rfl hne
  | [(k, v)], rest, depth, 0, _, hbound, ho, hv, hdepth => absurd hbound (by simp)
  | [(k, v)], rest, depth, bound + 1, _, hbound, ho, hv, hdepth => by
    rw [nestingMembers, Nat.max_le] at hdepth
    have hread : value depth (write v ++ (['}'] ++ rest)) = some (v, '}' :: rest) :=
      value_write v _ ho.1 hv.1 hdepth.1 (endsNumber_cons (by decide) rest)
    rw [writeMembers, List.append_assoc, List.cons_append, List.append_assoc, members, member_quote,
      hread]
    rfl
  | (k, v) :: row :: rows, rest, depth, 0, _, hbound, ho, hv, hdepth => absurd hbound (by simp)
  | (k, v) :: row :: rows, rest, depth, bound + 1, _, hbound, ho, hv, hdepth => by
    rw [nestingMembers, Nat.max_le] at hdepth
    have hread := value_write v (',' :: (writeMembers (row :: rows) ++ rest)) ho.1 hv.1
      hdepth.1 (endsNumber_cons (by decide) _)
    have hmembers := members_write (row :: rows) rest (List.cons_ne_nil _ _)
      (Nat.le_of_succ_le_succ hbound) ho.2 hv.2 hdepth.2
    rw [writeMembers_cons, List.append_assoc, List.cons_append, List.append_assoc, List.cons_append,
      members, member_quote, hread]
    show (members (value depth) bound (writeMembers (row :: rows) ++ rest)).map _ = _
    rw [hmembers]
    rfl

end

end Reader

/-! ## Readable values -/

/-- The value has a text that is read as it, with arrays and objects nested at most `depth` deep. -/
structure Readable (depth : Nat) (v : Json) : Prop where
  ordered : v.Ordered
  integral : v.Integral
  nested : v.nesting ≤ depth

/-- The canonical text of a value is read as that value. -/
theorem Readable.read?_canonical {v : Json} (h : v.Readable maxDepth) :
    read? v.canonical = some v := by
  have hread := Reader.value_write v [] h.ordered h.integral h.nested (by rintro c ⟨⟩)
  rw [List.append_nil] at hread
  unfold read? canonical
  rw [String.toList_ofList, hread]
  rfl

theorem Readable.mono {v : Json} {depth deeper : Nat} (h : v.Readable depth)
    (hle : depth ≤ deeper) : v.Readable deeper :=
  ⟨h.ordered, h.integral, Nat.le_trans h.nested hle⟩

@[simp] theorem readable_str (depth : Nat) (s : String) : (Json.str s).Readable depth :=
  ⟨trivial, trivial, Nat.zero_le _⟩

@[simp] theorem readable_bool (depth : Nat) (b : Bool) : (Json.bool b).Readable depth :=
  ⟨trivial, trivial, Nat.zero_le _⟩

theorem readable_int {n : Int} (h : Int64.minValue.toInt ≤ n ∧ n < UInt64.size) (depth : Nat) :
    (Json.int n).Readable depth :=
  ⟨trivial, h, Nat.zero_le _⟩

theorem readable_items {depth : Nat} {items : List Json} :
    (OrderedItems items ∧ IntegralItems items ∧ nestingItems items ≤ depth) ↔
      ∀ v ∈ items, v.Readable depth := by
  rw [orderedItems_iff, integralItems_iff, nestingItems_le]
  exact ⟨fun ⟨ho, hi, hn⟩ v hv => ⟨ho v hv, hi v hv, hn v hv⟩,
    fun h => ⟨fun v hv => (h v hv).ordered, fun v hv => (h v hv).integral,
      fun v hv => (h v hv).nested⟩⟩

theorem readable_arr {depth : Nat} {items : List Json} :
    (Json.arr items).Readable (depth + 1) ↔ ∀ v ∈ items, v.Readable depth := by
  rw [← readable_items]
  exact ⟨fun h => ⟨h.ordered, h.integral, Nat.le_of_succ_le_succ h.nested⟩,
    fun h => ⟨h.1, h.2.1, Nat.succ_le_succ h.2.2⟩⟩

theorem readable_members {depth : Nat} {members : Members} :
    (OrderedMembers members ∧ IntegralMembers members ∧ nestingMembers members ≤ depth) ↔
      ∀ row ∈ members, row.2.Readable depth := by
  rw [orderedMembers_iff, integralMembers_iff, nestingMembers_le]
  exact ⟨fun ⟨ho, hi, hn⟩ row hrow => ⟨ho row hrow, hi row hrow, hn row hrow⟩,
    fun h => ⟨fun row hrow => (h row hrow).ordered, fun row hrow => (h row hrow).integral,
      fun row hrow => (h row hrow).nested⟩⟩

theorem readable_obj {depth : Nat} {members : Members} :
    (Json.obj members).Readable (depth + 1) ↔
      Table.Sorted members ∧ ∀ row ∈ members, row.2.Readable depth := by
  rw [← readable_members]
  exact ⟨fun h => ⟨h.ordered.1, h.ordered.2, h.integral, Nat.le_of_succ_le_succ h.nested⟩,
    fun h => ⟨⟨h.1, h.2.1⟩, h.2.2.1, Nat.succ_le_succ h.2.2.2⟩⟩

theorem readable_ofStrings (depth : Nat) (items : List String) :
    (ofStrings items).Readable (depth + 1) := by
  rw [ofStrings, readable_arr, List.forall_mem_map]
  exact fun s _ => readable_str depth s

theorem readable_object {depth : Nat} (rows : List (String × Json))
    (h : ∀ row ∈ rows, row.2.Readable depth) : (object rows).Readable (depth + 1) :=
  readable_obj.mpr ⟨Table.sorted_ofList rows, fun row hrow => h row (Table.mem_of_mem_ofList hrow)⟩

theorem Readable.insert {depth : Nat} {members : Members} {v : Json}
    (h : (Json.obj members).Readable (depth + 1)) (hv : v.Readable depth) (key : String) :
    (Json.obj (Table.insert key v members)).Readable (depth + 1) := by
  rw [readable_obj] at h ⊢
  refine ⟨h.1.insert key v, fun row hrow => ?_⟩
  rcases Table.mem_insert hrow with rfl | hrow
  · exact hv
  · exact h.2 row hrow

theorem Readable.erase {depth : Nat} {members : Members}
    (h : (Json.obj members).Readable (depth + 1)) (key : String) :
    (Json.obj (Table.erase key members)).Readable (depth + 1) := by
  rw [readable_obj] at h ⊢
  exact ⟨h.1.erase key, fun row hrow => h.2 row (List.mem_filter.mp hrow).1⟩

theorem Readable.find? {depth : Nat} {members : Members}
    (h : (Json.obj members).Readable (depth + 1)) {key : String} {v : Json}
    (hv : Table.find? key members = some v) : v.Readable depth :=
  (readable_obj.mp h).2 _ (Table.mem_of_find? hv)

end Homeserver.Json
