/-
Texts of JSON pointers: a pointer leads where its reference tokens lead, whatever characters the
tokens are made of, because an escaped token holds no slash and is read back as it was.
-/
import Homeserver.Json.Pointer

namespace Homeserver.Json

namespace Pointer

/-! ## Escapes -/

theorem unescape_cons {c : Char} (h : c ≠ '~') (rest : List Char) :
    unescape (c :: rest) = c :: unescape rest := by
  rw [unescape]
  · exact fun _ hc => absurd hc h
  · exact fun _ hc => absurd hc h

theorem unescape_escape (token : List Char) : unescape (escape token) = token := by
  unfold escape
  induction token with
  | nil => rfl
  | cons c token ih =>
    rw [List.flatMap_cons]
    by_cases htilde : c = '~'
    · rw [if_pos htilde, htilde]
      exact congrArg _ ih
    · by_cases hslash : c = '/'
      · rw [if_neg htilde, if_pos hslash, hslash]
        exact congrArg _ ih
      · rw [if_neg htilde, if_neg hslash, List.singleton_append, unescape_cons htilde, ih]

theorem slash_notMem_escape (token : List Char) : '/' ∉ escape token := by
  unfold escape
  intro h
  obtain ⟨c, -, hc⟩ := List.mem_flatMap.mp h
  split at hc
  · simp at hc
  · split at hc
    · simp at hc
    · rename_i hslash
      exact hslash (List.mem_singleton.mp hc).symm

/-! ## Pieces -/

theorem pieces_slash (text : List Char) : pieces ('/' :: text) = [] :: pieces text := rfl

theorem pieces_cons {c : Char} (h : c ≠ '/') {text p : List Char} {rest : List (List Char)}
    (hp : pieces text = p :: rest) : pieces (c :: text) = (c :: p) :: rest := by
  unfold pieces at hp ⊢
  rw [List.foldr_cons, if_neg h, hp]

/-- What stands before a slash is a piece of its own. -/
theorem pieces_append {token : List Char} (h : '/' ∉ token) {text p : List Char}
    {rest : List (List Char)} (hp : pieces text = p :: rest) :
    pieces (token ++ text) = (token ++ p) :: rest := by
  induction token with
  | nil => exact hp
  | cons c token ih =>
    rw [List.mem_cons, not_or] at h
    exact pieces_cons (Ne.symm h.1) (ih h.2)

/-- The pieces of a pointer behind its first slash are its tokens. -/
theorem pieces_tokens (token : String) (tokens : List String) :
    pieces (escape token.toList ++ tokens.flatMap fun token => '/' :: escape token.toList) =
      (token :: tokens).map fun token => escape token.toList := by
  induction tokens generalizing token with
  | nil =>
    rw [List.flatMap_nil, pieces_append (slash_notMem_escape _) rfl, List.append_nil]
    rfl
  | cons next tokens ih =>
    rw [List.flatMap_cons, List.cons_append,
      pieces_append (slash_notMem_escape _) (pieces_slash _), List.append_nil, ih]
    rfl

theorem tokens?_text (tokens : List String) : tokens? (text tokens).toList = some tokens := by
  unfold text
  rw [String.toList_ofList]
  cases tokens with
  | nil => rfl
  | cons token tokens =>
    rw [List.flatMap_cons, List.cons_append, tokens?, pieces_tokens, List.map_map]
    have hread : ((fun p => String.ofList (unescape p)) ∘ fun token : String => escape token.toList) =
        id := by
      funext token
      rw [Function.comp_apply, unescape_escape, String.ofList_toList, id]
    rw [hread, List.map_id]

end Pointer

theorem pointer?_text (v : Json) (tokens : List String) :
    v.pointer? (Pointer.text tokens) = v.walk? tokens := by
  unfold pointer?
  rw [Pointer.tokens?_text, Option.bind_some]

/-- Tokens lead to what is found under them as keys of objects. -/
theorem walk?_of_path? {keys : List String} {v w : Json} (h : v.path? keys = some w) :
    v.walk? keys = some w := by
  induction keys generalizing v with
  | nil => exact h
  | cons key keys ih =>
    obtain ⟨u, hu, hw⟩ := Option.bind_eq_some_iff.mp h
    cases v with
    | obj members => exact Option.bind_eq_some_iff.mpr ⟨u, hu, ih hw⟩
    | _ => cases hu

end Homeserver.Json
