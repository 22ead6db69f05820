/-
Paths and queries read back: the segments that extend a URL are the pieces of the path of a request
for it, and stand for the texts that were put there; and so do the pairs of its query.
-/
import Homeserver.Net.PathPattern
import Homeserver.Net.Target
import Homeserver.Net.Url
import Homeserver.Proofs.Net.Percent
import Mathlib.Data.List.TakeWhile

namespace Homeserver

/-! ## Pieces of a text -/

namespace Text

theorem splitAll_cons_self (c : Char) (s : List Char) :
    splitAll c (c :: s) = [] :: splitAll c s := by
  unfold splitAll
  rw [List.foldr_cons, if_pos rfl]

theorem splitAll_cons_of_ne {c d : Char} (h : d ≠ c) {s p : List Char} {ps : List (List Char)}
    (hs : splitAll c s = p :: ps) : splitAll c (d :: s) = (d :: p) :: ps := by
  unfold splitAll at hs ⊢
  rw [List.foldr_cons, if_neg h, hs]

theorem splitAll_append {c : Char} {q : List Char} (h : c ∉ q) {s p : List Char}
    {ps : List (List Char)} (hs : splitAll c s = p :: ps) :
    splitAll c (q ++ s) = (q ++ p) :: ps := by
  induction q with
  | nil => exact hs
  | cons d q ih =>
    rw [List.mem_cons, not_or] at h
    exact splitAll_cons_of_ne (Ne.symm h.1) (ih h.2)

theorem splitAll_intercalate {c : Char} {items : List (List Char)} (hne : items ≠ [])
    (h : ∀ p ∈ items, c ∉ p) : splitAll c ([c].intercalate items) = items := by
  induction items with
  | nil => exact absurd rfl hne
  | cons p items ih =>
    rw [List.forall_mem_cons] at h
    cases items with
    | nil =>
      rw [List.intercalate_singleton]
      have hs := splitAll_append h.1 (s := []) rfl
      rwa [List.append_nil] at hs
    | cons q items =>
      rw [List.intercalate_cons_cons, List.append_assoc]
      have hs := splitAll_append h.1 (splitAll_cons_self c ([c].intercalate (q :: items)))
      rwa [ih (List.cons_ne_nil _ _) h.2, List.append_nil] at hs

theorem mem_intercalate {c d : Char} {items : List (List Char)} (h : d ∈ [c].intercalate items) :
    d = c ∨ ∃ p ∈ items, d ∈ p := by
  induction items with
  | nil => cases h
  | cons p items ih =>
    cases items with
    | nil =>
      rw [List.intercalate_singleton] at h
      exact .inr ⟨p, List.mem_singleton.mpr rfl, h⟩
    | cons q items =>
      rw [List.intercalate_cons_cons, List.mem_append, List.mem_append, List.mem_singleton] at h
      rcases h with (h | h) | h
      · exact .inr ⟨p, List.mem_cons_self, h⟩
      · exact .inl h
      · exact (ih h).imp_right fun ⟨t, ht, hd⟩ => ⟨t, List.mem_cons_of_mem _ ht, hd⟩

theorem splitFirst_append {c : Char} {p : List Char} (h : c ∉ p) (s : List Char) :
    splitFirst c (p ++ c :: s) = some (p, s) := by
  induction p with
  | nil => exact if_pos rfl
  | cons d p ih =>
    rw [List.mem_cons, not_or] at h
    rw [List.cons_append, splitFirst, if_neg (Ne.symm h.1), ih h.2]
    rfl

theorem splitFirst_eq_none {c : Char} {s : List Char} (h : c ∉ s) : splitFirst c s = none := by
  induction s with
  | nil => rfl
  | cons d s ih =>
    rw [List.mem_cons, not_or] at h
    rw [splitFirst, if_neg (Ne.symm h.1), ih h.2]
    rfl

end Text

/-! ## Queries -/

namespace Form

theorem toNat_of_isAlphanum {c : Char} (h : c.isAlphanum = true) : 48 ≤ c.toNat ∧ c.toNat < 123 := by
  unfold Char.isAlphanum Char.isAlpha Char.isUpper Char.isLower Char.isDigit at h
  simp only [Bool.or_eq_true, Bool.and_eq_true, decide_eq_true_eq, ge_iff_le,
    UInt32.le_iff_toNat_le] at h
  have hle : 48 ≤ c.val.toNat ∧ c.val.toNat ≤ 122 := by
    rcases h with (h | h) | h <;> exact ⟨Nat.le_trans (by decide) h.1, Nat.le_trans h.2 (by decide)⟩
  exact ⟨hle.1, Nat.lt_succ_of_le hle.2⟩

theorem isKept_bounds {c : Char} (h : isKept c = true) :
    c.toNat < 128 ∧ c ≠ '%' ∧ c ≠ '+' ∧ c ≠ ' ' ∧ c ≠ '&' ∧ c ≠ '#' := by
  unfold isKept at h
  simp only [Bool.or_eq_true, decide_eq_true_eq] at h
  rcases h with (((h | rfl) | rfl) | rfl) | rfl
  · have hbounds := toNat_of_isAlphanum h
    refine ⟨by omega, ?_, ?_, ?_, ?_, ?_⟩ <;> (rintro rfl; exact absurd hbounds (by decide))
  all_goals decide

/-- What decoding makes of a part before it reads percent encoding: spaces for plus signs. -/
def spaced (s : List Char) : List Char := s.map (fun c => if c = '+' then ' ' else c)

/-- A spaced part is percent encoded, but that it keeps spaces. -/
theorem spaced_encodePart (s : List Char) :
    spaced (s.flatMap encodeChar) = Percent.encode (fun c => isKept c || c = ' ') s := by
  induction s with
  | nil => rfl
  | cons c s ih =>
    have hchar : spaced (encodeChar c) = Percent.encodeChar (fun c => isKept c || c = ' ') c := by
      unfold encodeChar Percent.encodeChar
      by_cases hspace : c = ' '
      · subst hspace; decide
      · cases hkept : isKept c with
        | true =>
          obtain ⟨-, -, hplus, -⟩ := isKept_bounds hkept
          simp [spaced, hspace, hplus, hkept]
        | false =>
          -- no byte is encoded with a plus sign
          have hbyte : ∀ b : UInt8, spaced (Percent.encodeByte b) = Percent.encodeByte b := by
            intro b
            have hlt := b.toNat_lt
            have hdigit : ∀ n < 16, Percent.digit n ≠ '+' := by decide
            simp [spaced, Percent.encodeByte, hdigit (b.toNat / 16) (by omega),
              hdigit (b.toNat % 16) (by omega)]
          rw [if_neg hspace, if_neg Bool.false_ne_true, if_neg (by simp [hspace, hkept])]
          unfold spaced at hbyte ⊢
          rw [List.map_flatMap]
          simp only [hbyte]
    unfold spaced at ih hchar ⊢
    rw [List.flatMap_cons, List.map_append, ih, hchar]
    rfl

/-- A part of a query in ASCII is read back. -/
theorem decodePart_encodePart {s : String} (h : Percent.isAscii s = true) :
    decodePart (encodePart s) = s := by
  have hkeep : Percent.Keepable (fun c => isKept c || c = ' ') := by
    intro c hc
    rcases Bool.or_eq_true_iff.mp hc with hc | hc
    · exact ⟨(isKept_bounds hc).1, (isKept_bounds hc).2.1⟩
    · rw [of_decide_eq_true hc]; decide
  have hspaced : (encodePart s).map (fun c => if c = '+' then ' ' else c) =
      Percent.encode (fun c => isKept c || c = ' ') s.toList := spaced_encodePart s.toList
  unfold decodePart
  rw [hspaced, Percent.decode_encode hkeep, Percent.lossyText_ascii (Percent.isAscii_iff.mp h),
    String.ofList_toList]

theorem mem_encodePart {s : String} {c : Char} (h : c ∈ encodePart s) :
    c ≠ '&' ∧ c ≠ '=' ∧ c ≠ '#' := by
  obtain ⟨d, -, hd⟩ := List.mem_flatMap.mp h
  unfold encodeChar at hd
  split at hd
  · rw [List.mem_singleton.mp hd]; decide
  · have hmem : c ∈ Percent.encode isKept [d] := by
      rw [Percent.encode, List.flatMap_singleton]; exact hd
    rcases Percent.mem_encode hmem with hk | rfl | ⟨n, hn, rfl⟩
    · obtain ⟨-, -, -, -, hamp, hhash⟩ := isKept_bounds hk
      refine ⟨hamp, ?_, hhash⟩
      rintro rfl
      exact absurd hk (by decide)
    · decide
    · have hdigit : ∀ n < 16, Percent.digit n ≠ '&' ∧ Percent.digit n ≠ '=' ∧
          Percent.digit n ≠ '#' := by decide
      exact hdigit n hn

/-- No fragment starts in a query. -/
theorem hash_not_mem_encode (pairs : List (String × String)) : '#' ∉ encode pairs := by
  intro hc
  rcases Text.mem_intercalate hc with hc | ⟨_, hp, hc⟩
  · cases hc
  · obtain ⟨pair, -, rfl⟩ := List.mem_map.mp hp
    rcases List.mem_append.mp hc with hc | hc
    · exact (mem_encodePart hc).2.2 rfl
    · rcases List.mem_cons.mp hc with hc | hc
      · cases hc
      · exact (mem_encodePart hc).2.2 rfl

theorem decodePair_encodePair {pair : String × String} (h₁ : Percent.isAscii pair.1 = true)
    (h₂ : Percent.isAscii pair.2 = true) : decodePair (encodePair pair) = pair := by
  unfold decodePair encodePair
  rw [Text.splitFirst_append fun hc => (mem_encodePart hc).2.1 rfl]
  show (decodePart (encodePart pair.1), decodePart (encodePart pair.2)) = _
  rw [decodePart_encodePart h₁, decodePart_encodePart h₂]

/-- A query of pairs in ASCII is read back. -/
theorem decode_encode {pairs : List (String × String)}
    (h : ∀ pair ∈ pairs, Percent.isAscii pair.1 = true ∧ Percent.isAscii pair.2 = true) :
    decode (encode pairs) = pairs := by
  cases pairs with
  | nil => decide
  | cons pair pairs =>
    generalize hall : pair :: pairs = all at h
    have hne : all.map encodePair ≠ [] := by rw [← hall]; exact List.cons_ne_nil _ _
    -- neither part of a pair holds what stands between pairs
    have hsplit : Text.splitAll '&' (encode all) = all.map encodePair := by
      refine Text.splitAll_intercalate hne (List.forall_mem_map.mpr fun pair _ hamp => ?_)
      rcases List.mem_append.mp hamp with hamp | hamp
      · exact (mem_encodePart hamp).1 rfl
      · rcases List.mem_cons.mp hamp with hamp | hamp
        · cases hamp
        · exact (mem_encodePart hamp).1 rfl
    have hfilter : (all.map encodePair).filter (fun s => !s.isEmpty) = all.map encodePair := by
      refine List.filter_eq_self.mpr (List.forall_mem_map.mpr fun pair _ => ?_)
      unfold encodePair
      simp
    unfold decode
    rw [hsplit, hfilter, List.map_map]
    exact (List.map_congr_left fun pair hp =>
      decodePair_encodePair (h pair hp).1 (h pair hp).2).trans (List.map_id all)

end Form

/-! ## Segments -/

namespace Url

/-- A text as a segment of a path. -/
def encodeSegment (special : Bool) (t : String) : List Char :=
  Percent.encode (keepsInSegment special) t.toList

/-- A text that makes a segment of its own: no character of it is ignored, and it is not written as
dots. -/
structure IsSegment (special : Bool) (t : String) : Prop where
  nonempty : t.toList ≠ []
  heeded : ∀ c ∈ t.toList, isIgnored c = false
  single : isSingleDot (encodeSegment special t) = false
  double : isDoubleDot (encodeSegment special t) = false

instance (special : Bool) (t : String) : Decidable (IsSegment special t) :=
  decidable_of_iff (t.toList ≠ [] ∧ t.toList.all (fun c => !isIgnored c) = true ∧
      isSingleDot (encodeSegment special t) = false ∧ isDoubleDot (encodeSegment special t) = false)
    ⟨fun h => ⟨h.1, by simpa using h.2.1, h.2.2.1, h.2.2.2⟩,
      fun h => ⟨h.1, by simpa using h.2, h.3, h.4⟩⟩

theorem keepsInSegment_bounds {special : Bool} {c : Char} (h : keepsInSegment special c = true) :
    c.toNat < 128 ∧ c ≠ '%' ∧ c ≠ '/' ∧ c ≠ '?' ∧ c ≠ '#' := by
  unfold keepsInSegment isVisibleBut at h
  simp only [Bool.and_eq_true, decide_eq_true_eq, Bool.not_eq_true'] at h
  obtain ⟨⟨-, hlt⟩, hexcluded⟩ := h
  refine ⟨by omega, ?_, ?_, ?_, ?_⟩ <;> (rintro rfl; revert hexcluded; cases special <;> decide)

theorem keepable_keepsInSegment (special : Bool) : Percent.Keepable (keepsInSegment special) :=
  fun _ h => ⟨(keepsInSegment_bounds h).1, (keepsInSegment_bounds h).2.1⟩

theorem mem_encodeSegment {special : Bool} {t : String} {c : Char}
    (h : c ∈ encodeSegment special t) : c ≠ '/' ∧ c ≠ '?' ∧ c ≠ '#' := by
  rcases Percent.mem_encode h with hk | rfl | ⟨n, hn, rfl⟩
  · exact (keepsInSegment_bounds hk).2.2
  · decide
  · have hdigit : ∀ n < 16, Percent.digit n ≠ '/' ∧ Percent.digit n ≠ '?' ∧
        Percent.digit n ≠ '#' := by decide
    exact hdigit n hn

theorem IsSegment.encode_ne_nil {special : Bool} {t : String} (h : IsSegment special t) :
    encodeSegment special t ≠ [] :=
  Percent.encode_ne_nil h.nonempty

theorem extendSegment_of_isSegment {special : Bool} {t : String} (h : IsSegment special t)
    (path : List (List Char)) : extendSegment special path t =
      (if path = [[]] then [] else path) ++ [encodeSegment special t] := by
  have hfilter : t.toList.filter (fun c => !isIgnored c) = t.toList :=
    List.filter_eq_self.mpr fun c hc => by rw [h.heeded c hc]; rfl
  -- what is dots is also written as dots
  have hdots : (decide (t.toList = ['.']) || decide (t.toList = ['.', '.'])) = false := by
    rw [Bool.or_eq_false_iff, decide_eq_false_iff_not, decide_eq_false_iff_not]
    constructor
    · intro ht
      have hsingle := h.single
      unfold encodeSegment at hsingle
      rw [ht] at hsingle
      revert hsingle
      cases special <;> decide
    · intro ht
      have hdouble := h.double
      unfold encodeSegment at hdouble
      rw [ht] at hdouble
      revert hdouble
      cases special <;> decide
  unfold extendSegment
  simp only [hfilter, hdots, Bool.false_eq_true, if_false]
  unfold addSegment
  rw [if_neg (by rw [← encodeSegment, h.double]; decide),
    if_neg (by rw [← encodeSegment, h.single]; decide)]
  rfl

theorem foldl_extendSegment {special : Bool} {texts : List String}
    (h : ∀ t ∈ texts, IsSegment special t) {path : List (List Char)} (hpath : path ≠ [[]]) :
    texts.foldl (extendSegment special) path = path ++ texts.map (encodeSegment special) := by
  induction texts generalizing path with
  | nil => exact (List.append_nil _).symm
  | cons t texts ih =>
    rw [List.forall_mem_cons] at h
    -- only an empty segment that stands alone is replaced
    have hnext : path ++ [encodeSegment special t] ≠ [[]] := by
      intro he
      have hlast := congrArg List.getLast? he
      rw [List.getLast?_concat] at hlast
      exact h.1.encode_ne_nil (Option.some.inj hlast)
    rw [List.foldl_cons, extendSegment_of_isSegment h.1, if_neg hpath, ih h.2 hnext,
      List.append_assoc, List.map_cons, List.singleton_append]

/-- Texts extend the root of a server by their segments. -/
theorem extend?_root {u : Url} (hpath : u.path = .segments [[]]) {texts : List String}
    (hne : texts ≠ []) (h : ∀ t ∈ texts, IsSegment (isSpecial u.scheme) t) :
    u.extend? texts =
      some { u with path := .segments (texts.map (encodeSegment (isSpecial u.scheme))) } := by
  cases texts with
  | nil => exact absurd rfl hne
  | cons t texts =>
    rw [List.forall_mem_cons] at h
    have hfirst : [encodeSegment (isSpecial u.scheme) t] ≠ [[]] :=
      fun he => h.1.encode_ne_nil (List.singleton_inj.mp he)
    have hfold : (t :: texts).foldl (extendSegment (isSpecial u.scheme)) [[]] =
        (t :: texts).map (encodeSegment (isSpecial u.scheme)) := by
      rw [List.foldl_cons, extendSegment_of_isSegment h.1, if_pos rfl, List.nil_append,
        foldl_extendSegment h.2 hfirst]
      rfl
    unfold extend?
    rw [hpath]
    simp only [List.getLast?_singleton, List.length_singleton, ne_eq, not_true, decide_false,
      Bool.and_false, Bool.false_eq_true, if_false, hfold]

end Url

/-! ## Targets -/

namespace Target

theorem ofPath_append {path : List Char} (h : '?' ∉ path) (query : Option (List Char)) :
    ofPath (path ++ (query.map (fun q => '?' :: q)).getD []) = { path, query } := by
  unfold ofPath
  cases query with
  | none =>
    rw [Option.map_none, Option.getD_none, List.append_nil, Text.splitFirst_eq_none h]
  | some q =>
    rw [Option.map_some, Option.getD_some, Text.splitFirst_append h]

/-- The target of a URL is read as its path and its query. -/
theorem ofText_target {u : Url} {items : List (List Char)} (hpath : u.path = .segments items)
    (hne : items ≠ []) (h : ∀ s ∈ items, '?' ∉ s ∧ '#' ∉ s)
    (hquery : ∀ q, u.query = some q → '#' ∉ q) :
    ofText u.target = { path := u.pathText, query := u.query } := by
  have htext : u.pathText = items.flatMap (fun s => '/' :: s) := by
    unfold Url.pathText
    rw [hpath]
  have hfree : ∀ c, c ≠ '/' → (∀ s ∈ items, c ∉ s) → c ∉ u.pathText := by
    intro c hslash hc hmem
    rw [htext] at hmem
    obtain ⟨s, hs, hmem⟩ := List.mem_flatMap.mp hmem
    rcases List.mem_cons.mp hmem with he | hmem
    · exact hslash he
    · exact hc s hs hmem
  -- there is no fragment to cut off
  have hwritten : u.target.toList.takeWhile (· ≠ '#') =
      u.pathText ++ (u.query.map (fun q => '?' :: q)).getD [] := by
    unfold Url.target
    rw [String.toList_ofList, List.takeWhile_eq_self_iff]
    intro c hc
    refine decide_eq_true ?_
    rintro rfl
    rcases List.mem_append.mp hc with hc | hc
    · exact hfree '#' (by decide) (fun s hs => (h s hs).2) hc
    · cases hq : u.query with
      | none => rw [hq] at hc; cases hc
      | some q =>
        rw [hq] at hc
        rcases List.mem_cons.mp hc with hc | hc
        · cases hc
        · exact hquery q hq hc
  have hhead : (u.pathText ++ (u.query.map (fun q => '?' :: q)).getD []).head? = some '/' := by
    rw [htext]
    cases items with
    | nil => exact absurd rfl hne
    | cons s items => rfl
  unfold ofText
  dsimp only
  rw [hwritten, if_pos (.inl hhead), ofPath_append (hfree '?' (by decide) fun s hs => (h s hs).1)]

end Target

/-! ## Patterns -/

namespace PathPattern

open Url (IsSegment encodeSegment)

/-- The pieces of a path are its segments. -/
theorem pieces?_pathText {u : Url} {items : List (List Char)} (hpath : u.path = .segments items)
    (hne : items ≠ []) (h : ∀ s ∈ items, '/' ∉ s) : pieces? u.pathText = some items := by
  have htext : ∀ (s : List Char) (rest : List (List Char)),
      (s :: rest).flatMap (fun s => '/' :: s) = '/' :: ['/'].intercalate (s :: rest) := by
    intro s rest
    induction rest generalizing s with
    | nil => simp
    | cons t rest ih => rw [List.flatMap_cons, ih, List.intercalate_cons_cons]; simp
  cases items with
  | nil => exact absurd rfl hne
  | cons s rest =>
    unfold Url.pathText
    rw [hpath]
    simp only [htext, pieces?]
    rw [Text.splitAll_intercalate hne h]

/-- A pattern matches the segments of its words and of a text for each parameter. -/
theorem matchPieces_encoded {p : PathPattern} {special : Bool} {texts : List String}
    (h : ∀ t ∈ texts, IsSegment special t)
    (hwords : (texts.take p.words.length).map (encodeSegment special) = p.words.map String.toList)
    (hlength : (texts.drop p.words.length).length = p.parameters.length) :
    p.matchPieces (texts.map (encodeSegment special)) =
      some ((texts.drop p.words.length).map (encodeSegment special)) := by
  have hvalues : ((texts.drop p.words.length).map (encodeSegment special)).all
      (fun v => !v.isEmpty) = true := by
    rw [List.all_eq_true]
    refine List.forall_mem_map.mpr fun t ht => ?_
    have hne := (h t (List.mem_of_mem_drop ht)).encode_ne_nil
    cases hv : encodeSegment special t with
    | nil => exact absurd hv hne
    | cons c s => rfl
  unfold matchPieces
  rw [← List.map_drop, ← List.map_take]
  exact if_pos ⟨hwords, by rw [List.length_map, hlength], hvalues⟩

/-- The encoded texts stand for the texts. -/
theorem decode_encoded (special : Bool) {names texts : List String}
    (hlength : texts.length = names.length) :
    decode names (texts.map (encodeSegment special)) = .ok texts := by
  induction names generalizing texts with
  | nil => rw [List.length_eq_zero_iff.mp hlength]; rfl
  | cons name names ih =>
    cases texts with
    | nil => cases hlength
    | cons t texts =>
      have htext : Percent.text? (Percent.decode (Percent.bytes (encodeSegment special t))) =
          some t := by
        unfold encodeSegment
        rw [Percent.decode_encode (Url.keepable_keepsInSegment special), Percent.text?_bytes,
          String.ofList_toList]
      rw [List.map_cons, decode, htext]
      simp only [ih (Nat.succ.inj hlength)]
      rfl

end PathPattern

end Homeserver
