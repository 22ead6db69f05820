/-
Canonical texts: at every level the keys stand in increasing order, nothing outside of quotes is
blank, and each value has a text of its own, in whatever order its members were supplied.
-/
import Homeserver.Proofs.Json.RoundTrip

namespace Homeserver

namespace Json

/-! ## The order in which members are supplied -/

mutual

/-- The value that is held when the members of its objects are supplied one after the other: they
are kept in the order of their keys, and of those with one key the last one counts. -/
def arranged : Json → Json
  | .arr items => .arr (arrangedItems items)
  | .obj members => object (arrangedMembers members)
  | v => v

def arrangedItems : List Json → List Json
  | [] => []
  | v :: rest => arranged v :: arrangedItems rest

def arrangedMembers : List (String × Json) → List (String × Json)
  | [] => []
  | (k, v) :: rest => (k, arranged v) :: arrangedMembers rest

end

theorem arrangedMembers_eq (members : List (String × Json)) :
    arrangedMembers members = members.map fun row => (row.1, row.2.arranged) := by
  induction members with
  | nil => rfl
  | cons row members ih => rw [arrangedMembers, ih, List.map_cons]

mutual

theorem readable_arranged : ∀ (v : Json) {depth : Nat}, v.Integral → v.nesting ≤ depth →
    v.arranged.Readable depth
  | .null, _, _, _ => ⟨trivial, trivial, Nat.zero_le _⟩
  | .bool b, _, _, _ => readable_bool _ b
  | .int _, _, hv, _ => readable_int hv _
  | .double _, _, hv, _ => hv.elim
  | .str s, _, _, _ => readable_str _ s
  | .arr items, depth, hv, hdepth => by
    rw [Integral] at hv
    rw [nesting] at hdepth
    obtain ⟨below, rfl⟩ := Nat.exists_eq_add_of_le' (Nat.le_of_add_left_le hdepth)
    rw [arranged, readable_arr]
    exact readable_arrangedItems items hv (Nat.le_of_succ_le_succ hdepth)
  | .obj members, depth, hv, hdepth => by
    rw [Integral] at hv
    rw [nesting] at hdepth
    obtain ⟨below, rfl⟩ := Nat.exists_eq_add_of_le' (Nat.le_of_add_left_le hdepth)
    rw [arranged]
    exact readable_object _ (readable_arrangedMembers members hv (Nat.le_of_succ_le_succ hdepth))

theorem readable_arrangedItems : ∀ (items : List Json) {depth : Nat}, IntegralItems items →
    nestingItems items ≤ depth → ∀ v ∈ arrangedItems items, v.Readable depth
  | [], _, _, _ => by simp [arrangedItems]
  | v :: items, depth, hv, hdepth => by
    rw [IntegralItems] at hv
    rw [nestingItems, Nat.max_le] at hdepth
    rw [arrangedItems, List.forall_mem_cons]
    exact ⟨readable_arranged v hv.1 hdepth.1, readable_arrangedItems items hv.2 hdepth.2⟩

theorem readable_arrangedMembers : ∀ (members : List (String × Json)) {depth : Nat},
    IntegralMembers members → nestingMembers members ≤ depth →
    ∀ row ∈ arrangedMembers members, row.2.Readable depth
  | [], _, _, _ => by simp [arrangedMembers]
  | (k, v) :: members, depth, hv, hdepth => by
    rw [IntegralMembers] at hv
    rw [nestingMembers, Nat.max_le] at hdepth
    rw [arrangedMembers, List.forall_mem_cons]
    exact ⟨readable_arranged v hv.1 hdepth.1, readable_arrangedMembers members hv.2 hdepth.2⟩

end

mutual

/-- Members that are in order stay as they are. -/
theorem arranged_of_ordered : ∀ (v : Json), v.Ordered → v.arranged = v
  | .null, _ => rfl
  | .bool _, _ => rfl
  | .int _, _ => rfl
  | .double _, _ => rfl
  | .str _, _ => rfl
  | .arr items, h => by
    rw [Ordered] at h
    rw [arranged, arrangedItems_of_ordered items h]
  | .obj members, h => by
    rw [Ordered] at h
    rw [arranged, arrangedMembers_of_ordered members h.2, object, Table.ofList_of_sorted h.1]

theorem arrangedItems_of_ordered : ∀ (items : List Json), OrderedItems items →
    arrangedItems items = items
  | [], _ => rfl
  | v :: items, h => by
    rw [OrderedItems] at h
    rw [arrangedItems, arranged_of_ordered v h.1, arrangedItems_of_ordered items h.2]

theorem arrangedMembers_of_ordered : ∀ (members : List (String × Json)),
    OrderedMembers members → arrangedMembers members = members
  | [], _ => rfl
  | (k, v) :: members, h => by
    rw [OrderedMembers] at h
    rw [arrangedMembers, arranged_of_ordered v h.1, arrangedMembers_of_ordered members h.2]

end

/-- Objects are one value when the same values are held under all keys, in whatever order the
members were supplied. -/
theorem arranged_obj_eq_iff {a b : List (String × Json)} :
    (Json.obj a).arranged = (Json.obj b).arranged ↔ ∀ key,
      (Table.find? key a.reverse).map arranged = (Table.find? key b.reverse).map arranged := by
  have hfind : ∀ (rows : List (String × Json)) (key : String),
      Table.find? key (Table.ofList (arrangedMembers rows)) =
        (Table.find? key rows.reverse).map arranged := by
    intro rows key
    rw [Table.find?_ofList, arrangedMembers_eq, ← List.map_reverse, Table.find?_map]
  rw [arranged, arranged, object, object, Json.obj.injEq]
  constructor
  · intro h key
    rw [← hfind, ← hfind, h]
  · intro h
    refine Table.Sorted.ext (Table.sorted_ofList _) (Table.sorted_ofList _) fun key => ?_
    rw [hfind, hfind, h]

/-- Members with different keys may be supplied in any order. -/
theorem arranged_perm {a b : List (String × Json)} (h : a.Perm b)
    (hkeys : (Table.keys a).Nodup) : (Json.obj a).arranged = (Json.obj b).arranged := by
  refine arranged_obj_eq_iff.mpr fun key => ?_
  rw [Table.find?_perm_reverse hkeys, Table.find?_perm h hkeys,
    Table.find?_perm_reverse ((h.map Prod.fst).nodup hkeys)]

/-! ## The form of a text -/

namespace Canonical

/-- Texts without blanks between their tokens, in which keys are in increasing order. -/
inductive Form : List Char → Prop
  | literal {t : List Char}
      (h : t ∈ [['n', 'u', 'l', 'l'], ['t', 'r', 'u', 'e'], ['f', 'a', 'l', 's', 'e']]) : Form t
  | integer (n : Int) : Form (integer n)
  | quote (s : List Char) : Form (quote s)
  | array {items : List (List Char)} (h : ∀ item ∈ items, Form item) :
      Form ('[' :: ([','].intercalate items ++ [']']))
  | object {members : List (List Char × List Char)}
      (hkeys : members.Pairwise fun a b => codepointBefore a.1 b.1 = true)
      (h : ∀ row ∈ members, Form row.2) :
      Form ('{' :: ([','].intercalate (members.map fun row =>
        Canonical.quote row.1 ++ ':' :: row.2) ++ ['}']))

theorem writeItems_eq (items : List Json) :
    writeItems items = [','].intercalate (items.map write) ++ [']'] := by
  match items with
  | [] => rfl
  | [v] => simp [writeItems]
  | v :: w :: vs =>
    have ih := writeItems_eq (w :: vs)
    rw [Reader.writeItems_cons, ih]
    simp [List.intercalate]

theorem writeMembers_eq (members : List (String × Json)) :
    writeMembers members = [','].intercalate ((members.map fun row =>
      (row.1.toList, write row.2)).map fun row => quote row.1 ++ ':' :: row.2) ++ ['}'] := by
  match members with
  | [] => rfl
  | [(k, v)] => simp [writeMembers]
  | (k, v) :: row :: rows =>
    have ih := writeMembers_eq (row :: rows)
    rw [Reader.writeMembers_cons, ih]
    simp [List.intercalate]

mutual

theorem form_write : ∀ (v : Json), v.Ordered → v.Integral → Form (write v)
  | .null, _, _ => .literal (by decide)
  | .bool true, _, _ => .literal (by decide)
  | .bool false, _, _ => .literal (by decide)
  | .int n, _, _ => .integer n
  | .double _, _, hv => hv.elim
  | .str s, _, _ => .quote s.toList
  | .arr items, ho, hv => by
    rw [write, writeItems_eq]
    exact .array (List.forall_mem_map.mpr (form_writeItems items ho hv))
  | .obj members, ho, hv => by
    rw [write, writeMembers_eq]
    refine .object ?_ (List.forall_mem_map.mpr (form_writeMembers members ho.2 hv))
    rw [List.pairwise_map]
    exact List.pairwise_map.mp ho.1

theorem form_writeItems : ∀ (items : List Json), OrderedItems items → IntegralItems items →
    ∀ v ∈ items, Form (write v)
  | [], _, _ => by simp
  | v :: items, ho, hv =>
    List.forall_mem_cons.mpr ⟨form_write v ho.1 hv.1, form_writeItems items ho.2 hv.2⟩

theorem form_writeMembers : ∀ (members : List (String × Json)), OrderedMembers members →
    IntegralMembers members → ∀ row ∈ members, Form (write row.2)
  | [], _, _ => by simp
  | (_, v) :: members, ho, hv =>
    List.forall_mem_cons.mpr ⟨form_write v ho.1 hv.1, form_writeMembers members ho.2 hv.2⟩

end

/-! ## Blanks -/

/-- Where a reader of a text stands. -/
inductive Place where
  | outside
  | inside
  /-- Inside of quotes and after a backslash. -/
  | escaped

/-- The part of a text outside of quotes. -/
def unquoted : Place → List Char → List Char
  | _, [] => []
  | .outside, c :: rest =>
    if c = '"' then unquoted .inside rest else c :: unquoted .outside rest
  | .inside, c :: rest =>
    if c = '"' then unquoted .outside rest
    else if c = '\\' then unquoted .escaped rest
    else unquoted .inside rest
  | .escaped, _ :: rest => unquoted .inside rest

theorem unquoted_inside {c : Char} (h : c ≠ '"' ∧ c ≠ '\\') (rest : List Char) :
    unquoted .inside (c :: rest) = unquoted .inside rest := by
  rw [unquoted, if_neg h.1, if_neg h.2]

theorem hexDigit_ne : ∀ n < 16, hexDigit n ≠ '"' ∧ hexDigit n ≠ '\\' := by decide

theorem unquoted_escape (c : Char) (rest : List Char) :
    unquoted .inside (escape c ++ rest) = unquoted .inside rest := by
  unfold escape
  split_ifs with hquote hslash hn hr ht hb hf hlow
  -- all but the last two are a backslash and one character
  iterate 7 rfl
  · have hhigh := hexDigit_ne (c.toNat / 16) (by omega)
    have hlow := hexDigit_ne (c.toNat % 16) (by omega)
    show unquoted .inside (_ :: _ :: rest) = _
    rw [unquoted_inside hhigh, unquoted_inside hlow]
  · exact unquoted_inside ⟨hquote, hslash⟩ rest

theorem unquoted_quote (s rest : List Char) :
    unquoted .outside (quote s ++ rest) = unquoted .outside rest := by
  have hinside : unquoted .inside (s.flatMap escape ++ '"' :: rest) = unquoted .outside rest := by
    induction s with
    | nil => rfl
    | cons c s ih => rw [List.flatMap_cons, List.append_assoc, unquoted_escape, ih]
  rw [← hinside]
  unfold quote
  rw [List.cons_append, List.append_assoc]
  rfl

/-- Whatever follows the text, nothing of it that stands outside of quotes is blank. -/
def Compact (t : List Char) : Prop :=
  ∃ visible, (∀ c ∈ visible, Reader.isBlank c = false) ∧
    ∀ rest, unquoted .outside (t ++ rest) = visible ++ unquoted .outside rest

theorem compact_nil : Compact [] := ⟨[], by simp, fun _ => rfl⟩

theorem compact_quote (s : List Char) : Compact (quote s) :=
  ⟨[], by simp, fun rest => unquoted_quote s rest⟩

theorem Compact.append {s t : List Char} (hs : Compact s) (ht : Compact t) : Compact (s ++ t) := by
  obtain ⟨u, hu, hreads⟩ := hs
  obtain ⟨w, hw, hreads'⟩ := ht
  refine ⟨u ++ w, fun c hc => (List.mem_append.mp hc).elim (hu c) (hw c), fun rest => ?_⟩
  rw [List.append_assoc, hreads, hreads', List.append_assoc]

theorem Compact.cons {c : Char} {t : List Char} (hc : c ≠ '"' ∧ Reader.isBlank c = false)
    (ht : Compact t) : Compact (c :: t) :=
  Compact.append ⟨[c], by simp [hc.2], fun rest => by
    rw [List.singleton_append, unquoted, if_neg hc.1]; rfl⟩ ht

theorem compact_of_forall {t : List Char} (h : ∀ c ∈ t, c ≠ '"' ∧ Reader.isBlank c = false) :
    Compact t := by
  induction t with
  | nil => exact compact_nil
  | cons c t ih =>
    rw [List.forall_mem_cons] at h
    exact .cons h.1 (ih h.2)

theorem compact_intercalate {parts : List (List Char)} (h : ∀ part ∈ parts, Compact part) :
    Compact ([','].intercalate parts) := by
  match parts with
  | [] => exact compact_nil
  | [part] => simpa using h
  | part :: next :: rest =>
    rw [List.forall_mem_cons] at h
    have hrest := compact_intercalate h.2
    have hsplit : [','].intercalate (part :: next :: rest) =
        part ++ ',' :: [','].intercalate (next :: rest) := by simp [List.intercalate]
    rw [hsplit]
    exact h.1.append (.cons (by decide) hrest)

theorem compact_integer (n : Int) : Compact (integer n) := by
  have hdigits : Compact (Nat.toDigits 10 n.natAbs) := by
    refine compact_of_forall fun c hc => ?_
    have hc := Reader.isDigit_toDigits _ c hc
    refine ⟨?_, (Reader.digit_ne hc).2.2.2.2.2.2.2⟩
    rintro rfl
    exact absurd hc (by decide)
  unfold integer
  split
  · exact .cons (by decide) hdigits
  · exact hdigits

theorem compact_literal : ∀ t ∈ [['n', 'u', 'l', 'l'], ['t', 'r', 'u', 'e'],
    ['f', 'a', 'l', 's', 'e']], Compact t := by
  have hplain : ∀ t ∈ [['n', 'u', 'l', 'l'], ['t', 'r', 'u', 'e'], ['f', 'a', 'l', 's', 'e']],
      ∀ c ∈ t, c ≠ '"' ∧ Reader.isBlank c = false := by simp [Reader.isBlank]
  exact fun t ht => compact_of_forall (hplain t ht)

theorem Form.compact {t : List Char} (h : Form t) : Compact t := by
  have hclose : Compact [']'] ∧ Compact ['}'] :=
    ⟨compact_of_forall (by simp [Reader.isBlank]), compact_of_forall (by simp [Reader.isBlank])⟩
  induction h with
  | literal h => exact compact_literal _ h
  | integer n => exact compact_integer n
  | quote s => exact compact_quote s
  | array h ih => exact .cons (by decide) ((compact_intercalate ih).append hclose.1)
  | object hkeys h ih =>
    refine .cons (by decide) (.append (compact_intercalate ?_) hclose.2)
    rw [List.forall_mem_map]
    exact fun row hrow => (compact_quote row.1).append (.cons (by decide) (ih row hrow))

theorem Compact.unquoted {t : List Char} (h : Compact t) :
    ∀ c ∈ unquoted .outside t, Reader.isBlank c = false := by
  obtain ⟨visible, hvisible, hreads⟩ := h
  have hall := hreads []
  rw [List.append_nil] at hall
  rw [hall]
  simpa [Canonical.unquoted] using hvisible

/-! ## One text for each value -/

/-- The texts of two values are different, however deep these are nested. -/
theorem write_inj {v w : Json} (hv : v.Ordered ∧ v.Integral) (hw : w.Ordered ∧ w.Integral)
    (h : write v = write w) : v = w := by
  have hend : Reader.EndsNumber [] := by rintro c ⟨⟩
  have hread := Reader.value_write v [] hv.1 hv.2 (Nat.le_max_left _ w.nesting) hend
  rw [h, Reader.value_write w [] hw.1 hw.2 (Nat.le_max_right _ _) hend] at hread
  exact (congrArg Prod.fst (Option.some.inj hread)).symm

end Canonical

/-- The bytes of a canonical text tell the value. -/
theorem canonicalBytes_inj {v w : Json} (hv : v.Ordered ∧ v.Integral)
    (hw : w.Ordered ∧ w.Integral) : v.canonicalBytes = w.canonicalBytes ↔ v = w := by
  constructor
  · intro h
    have htext : v.canonical = w.canonical :=
      String.toByteArray_inj.mp (ByteArray.ext (Array.toList_inj.mp h))
    exact Canonical.write_inj hv hw (by simpa [canonical] using congrArg String.toList htext)
  · rintro rfl
    rfl

/-- A value of integers that is nested no deeper than what is read has a canonical text in which
keys are in order and blanks stand in quotes only. The text is read as the value, and two values
have the same bytes iff they are the same when the order in which their members were supplied does
not count. -/
theorem canonical_faithful {v : Json} (hv : v.Integral) (hdepth : v.nesting ≤ maxDepth) :
    read? v.arranged.canonical = some v.arranged ∧ (v.Ordered → v.arranged = v) ∧
    Canonical.Form v.arranged.canonical.toList ∧
    (∀ c ∈ Canonical.unquoted .outside v.arranged.canonical.toList, Reader.isBlank c = false) ∧
    ∀ w : Json, w.Integral → w.nesting ≤ maxDepth →
      (v.arranged.canonicalBytes = w.arranged.canonicalBytes ↔ v.arranged = w.arranged) := by
  have hreadable := readable_arranged v hv hdepth
  have hform : Canonical.Form v.arranged.canonical.toList := by
    unfold canonical
    rw [String.toList_ofList]
    exact Canonical.form_write _ hreadable.ordered hreadable.integral
  refine ⟨hreadable.read?_canonical, arranged_of_ordered v, hform, hform.compact.unquoted, ?_⟩
  intro w hw hdepth'
  have hreadable' := readable_arranged w hw hdepth'
  exact canonicalBytes_inj ⟨hreadable.ordered, hreadable.integral⟩
    ⟨hreadable'.ordered, hreadable'.integral⟩

/-- Two members are read back in order, and in either order they have the same bytes. -/
theorem canonical_faithful_swapped :
    read? (Json.obj [("b", .int 1), ("a", .arr [.str "\""])]).arranged.canonical =
        some (.obj [("a", .arr [.str "\""]), ("b", .int 1)]) ∧
      (Json.obj [("b", .int 1), ("a", .arr [.str "\""])]).arranged.canonicalBytes =
        (Json.obj [("a", .arr [.str "\""]), ("b", .int 1)]).arranged.canonicalBytes := by
  have hsafe : Int64.minValue.toInt ≤ 1 ∧ 1 < (UInt64.size : Int) := by decide
  obtain ⟨hread, -, -, -, hsame⟩ := canonical_faithful
    (v := .obj [("b", .int 1), ("a", .arr [.str "\""])])
    ⟨hsafe, ⟨trivial, trivial⟩, trivial⟩ (by decide)
  refine ⟨hread, (hsame (.obj [("a", .arr [.str "\""]), ("b", .int 1)])
    ⟨⟨trivial, trivial⟩, hsafe, trivial⟩ (by decide)).mpr ?_⟩
  exact arranged_perm (List.Perm.swap _ _ _) (by decide)

end Json

end Homeserver
