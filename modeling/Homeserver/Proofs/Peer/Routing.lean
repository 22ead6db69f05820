/-
The routes of bundles. No path fits two of the stock routes, so of the registered ones at most one
serves a request, and looking it up does not depend on the order in which they stand. Hence only the
set of registered bundles counts, not the order in which they were registered nor how often.
-/
import Homeserver.Peer.Answer
import Homeserver.Peer.Endpoint
import Mathlib.Data.List.Pairwise

namespace Homeserver

/-! ## Paths that fit two patterns -/

namespace PathPattern

/-- Two patterns that some path may fit: they have as many pieces, and the words of the one start
those of the other. -/
def Overlaps (p q : PathPattern) : Prop :=
  p.words.length + p.parameters.length = q.words.length + q.parameters.length ∧
    (p.words <+: q.words ∨ q.words <+: p.words)

instance (p q : PathPattern) : Decidable (p.Overlaps q) :=
  inferInstanceAs (Decidable (_ ∧ _))

theorem Overlaps.symm {p q : PathPattern} (h : p.Overlaps q) : q.Overlaps p :=
  ⟨h.1.symm, h.2.symm⟩

/-- Pieces that fit a pattern start with its words and are as many as it asks for. -/
theorem matchPieces_some {p : PathPattern} {pieces values : List (List Char)}
    (h : p.matchPieces pieces = some values) :
    p.words.map String.toList <+: pieces ∧
      p.words.length + p.parameters.length = pieces.length := by
  unfold matchPieces at h
  obtain ⟨⟨hwords, hlength, -⟩, -⟩ := Option.ite_none_right_eq_some.mp h
  have hle := congrArg List.length hwords
  rw [List.length_take, List.length_map] at hle
  rw [List.length_drop] at hlength
  exact ⟨hwords ▸ List.take_prefix _ _, by omega⟩

theorem prefix_of_map_toList {l l' : List String}
    (h : l.map String.toList <+: l'.map String.toList) : l <+: l' := by
  have hid : String.ofList ∘ String.toList = id := funext fun _ => String.ofList_toList
  have hmap := h.map String.ofList
  rwa [List.map_map, List.map_map, hid, List.map_id, List.map_id] at hmap

theorem overlaps_of_match? {p q : PathPattern} {path : List Char} {v w : List (List Char)}
    (hp : p.match? path = some v) (hq : q.match? path = some w) : p.Overlaps q := by
  obtain ⟨pieces, hpieces, hp⟩ := Option.bind_eq_some_iff.mp hp
  obtain ⟨pieces', hpieces', hq⟩ := Option.bind_eq_some_iff.mp hq
  cases hpieces.symm.trans hpieces'
  obtain ⟨hpre, hlength⟩ := matchPieces_some hp
  obtain ⟨hpre', hlength'⟩ := matchPieces_some hq
  exact ⟨hlength.trans hlength'.symm,
    (List.prefix_or_prefix_of_prefix hpre hpre').imp prefix_of_map_toList prefix_of_map_toList⟩

end PathPattern

/-! ## Stock routes -/

/-- A route that stands in some bundle. -/
def Route.Stock (r : Route) : Prop := ∃ b : Bundle, r ∈ b.routes

namespace Route.Stock

variable {r s : Route} {path : List Char} {v w : List (List Char)}

theorem pairwise_not_overlaps :
    (Bundle.all.flatMap Bundle.routes).Pairwise fun r s => ¬ r.path.Overlaps s.path := by
  decide

theorem mem_all (h : r.Stock) : r ∈ Bundle.all.flatMap Bundle.routes := by
  obtain ⟨b, hb⟩ := h
  exact List.mem_flatMap.mpr ⟨b, by cases b <;> decide, hb⟩

theorem eq_of_overlaps (hr : r.Stock) (hs : s.Stock) (h : r.path.Overlaps s.path) : r = s := by
  by_contra hne
  have hsymm : Std.Symm fun r s : Route => ¬ r.path.Overlaps s.path :=
    ⟨fun _ _ h hs => h hs.symm⟩
  exact pairwise_not_overlaps.forall hr.mem_all hs.mem_all hne h

theorem eq_of_path (hr : r.Stock) (hs : s.Stock) (h : r.path = s.path) : r = s :=
  eq_of_overlaps hr hs (h ▸ ⟨rfl, .inl List.prefix_rfl⟩)

/-- At most one of the stock routes fits a path. -/
theorem eq_of_match? (hr : r.Stock) (hs : s.Stock) (hv : r.path.match? path = some v)
    (hw : s.path.match? path = some w) : r = s :=
  eq_of_overlaps hr hs (PathPattern.overlaps_of_match? hv hw)

end Route.Stock

/-! ## Registered routes -/

namespace Routes

variable {rs : Routes} {r s : Route}

theorem mem_register (hrs : ∀ s ∈ rs, s.Stock) (hr : r.Stock) :
    s ∈ rs.register r ↔ s ∈ rs ∨ s = r := by
  unfold register
  rw [List.mem_append, List.mem_singleton, List.mem_filter]
  constructor
  · rintro (⟨hs, -⟩ | hs)
    · exact .inl hs
    · exact .inr hs
  · rintro (hs | hs)
    · by_cases hpath : s.path = r.path
      · -- the route that is replaced is the same
        exact .inr ((hrs s hs).eq_of_path hr hpath)
      · left
        refine ⟨hs, ?_⟩
        simp [hpath]
    · exact .inr hs

theorem mem_foldl_register {l : List Route} (hrs : ∀ s ∈ rs, s.Stock) (hl : ∀ s ∈ l, s.Stock) :
    s ∈ l.foldl register rs ↔ s ∈ rs ∨ s ∈ l := by
  induction l generalizing rs with
  | nil => simp
  | cons r l ih =>
    obtain ⟨hr, hl⟩ := List.forall_mem_cons.mp hl
    have hrs' : ∀ s ∈ rs.register r, s.Stock := by
      intro s hs
      rcases (mem_register hrs hr).mp hs with hs | rfl
      · exact hrs s hs
      · exact hr
    rw [List.foldl_cons, ih hrs' hl, mem_register hrs hr, List.mem_cons, or_assoc]

/-- The registered routes are those of the bundles. -/
theorem mem_ofBundles {bs : List Bundle} : r ∈ ofBundles bs ↔ ∃ b ∈ bs, r ∈ b.routes := by
  have hflat : ofBundles bs = (bs.flatMap Bundle.routes).foldl register [] := List.foldl_flatMap.symm
  have hstock : ∀ s ∈ bs.flatMap Bundle.routes, s.Stock := by
    intro s hs
    obtain ⟨b, -, hb⟩ := List.mem_flatMap.mp hs
    exact ⟨b, hb⟩
  rw [hflat, mem_foldl_register (by simp) hstock, List.mem_flatMap]
  simp

theorem stock_ofBundles {bs : List Bundle} : ∀ s ∈ ofBundles bs, s.Stock := by
  intro s hs
  obtain ⟨b, -, hb⟩ := mem_ofBundles.mp hs
  exact ⟨b, hb⟩

/-! ## Looking up -/

variable {method : String} {path : List Char} {values : List (List Char)}

theorem find?_eq_none : rs.find? method path = none ↔
    ∀ r ∈ rs, ¬ (r.serves method = true ∧ (r.path.match? path).isSome = true) := by
  unfold find?
  rw [List.findSome?_eq_none_iff]
  refine forall_congr' fun r => forall_congr' fun _ => ?_
  cases r.serves method <;> cases r.path.match? path <;> simp

/-- Of stock routes the one is found that serves the method and fits the path, wherever it stands. -/
theorem find?_eq_some (hrs : ∀ s ∈ rs, s.Stock) : rs.find? method path = some (r, values) ↔
    r ∈ rs ∧ r.serves method = true ∧ r.path.match? path = some values := by
  have hfound : ∀ {s w}, rs.find? method path = some (s, w) →
      s ∈ rs ∧ s.serves method = true ∧ s.path.match? path = some w := by
    intro s w h
    obtain ⟨s', hs', h⟩ := List.exists_of_findSome?_eq_some h
    obtain ⟨hserves, h⟩ := Option.ite_none_right_eq_some.mp h
    obtain ⟨w', hw', h⟩ := Option.map_eq_some_iff.mp h
    cases h
    exact ⟨hs', hserves, hw'⟩
  refine ⟨hfound, fun ⟨hr, hserves, hvalues⟩ => ?_⟩
  cases hfind : rs.find? method path with
  | none => exact absurd ⟨hserves, by rw [hvalues]; rfl⟩ (find?_eq_none.mp hfind r hr)
  | some found =>
    obtain ⟨s, w⟩ := found
    obtain ⟨hs, -, hw⟩ := hfound hfind
    cases (hrs r hr).eq_of_match? (hrs s hs) hvalues hw
    cases hvalues.symm.trans hw
    rfl

/-- Only which bundles are registered counts for the route that serves a request. -/
theorem find?_ofBundles_congr {bs bs' : List Bundle} (h : ∀ b, b ∈ bs' ↔ b ∈ bs) (method : String)
    (path : List Char) : (ofBundles bs').find? method path = (ofBundles bs).find? method path := by
  refine Option.ext fun found => ?_
  rw [find?_eq_some stock_ofBundles, find?_eq_some stock_ofBundles, mem_ofBundles, mem_ofBundles]
  simp only [h]

end Routes

/-! ## Requests that a bundle serves -/

/-- One of the routes of the bundle serves the method and fits the path. -/
def Bundle.serves (b : Bundle) (q : Inbound) : Bool :=
  b.routes.any fun r => r.serves q.method && (r.path.match? q.path).isSome

/-- No route is found for the requests that no registered bundle serves. -/
theorem Routes.find?_ofBundles_eq_none {bs : List Bundle} {q : Inbound} :
    (ofBundles bs).find? q.method q.path = none ↔ bs.any (·.serves q) = false := by
  rw [find?_eq_none]
  unfold Bundle.serves
  simp only [List.any_eq_false, Bool.not_eq_true, mem_ofBundles, Bool.and_eq_true]
  exact ⟨fun h b hb r hr => h r ⟨b, hb, hr⟩, fun h r ⟨b, hb, hr⟩ => h b hb r hr⟩

end Homeserver
