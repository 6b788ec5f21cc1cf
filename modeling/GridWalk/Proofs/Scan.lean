import GridWalk.Proofs.Itinerary
import GridWalk.Route.Compile

/-!
# The scan of a text

The walker that scans a text is determined by the part of the text behind it, as
long as that part ends no walk. `walker` reads its position, its step count and its
recorded visits off that part, and `walk_append` says that the scan of a text passes
through it. What remains are the ways to end a walk: at the end of the text, at a
visit that repeats the distances of an earlier one, or at a visit to the origin.
-/

namespace GridWalk.Itinerary

/-! ### From characters to commands -/

/-- The commands of a text that starts at a byte position, with their positions. -/
def waypoints (position : ℕ) : List Char → List Waypoint
  | [] => []
  | c :: rest =>
    ((Command.ofChar? c).map (Waypoint.mk · position)).toList ++
      waypoints (position + c.utf8Size) rest

section
variable (position : ℕ) (rest : List Char)

theorem waypoints_visit : waypoints position ('$' :: rest) =
    ⟨.visit, position⟩ :: waypoints (position + '$'.utf8Size) rest :=
  rfl

theorem waypoints_move {c : Char} {d : Direction} (h : Command.ofChar? c = some (.move d)) :
    waypoints position (c :: rest) =
      ⟨.move d, position⟩ :: waypoints (position + c.utf8Size) rest := by
  rw [waypoints, h]
  rfl

theorem waypoints_comment {c : Char} (h : Command.ofChar? c = none) :
    waypoints position (c :: rest) = waypoints (position + c.utf8Size) rest := by
  rw [waypoints, h]
  rfl

end

/-- The lexemes of a text mark exactly its commands. -/
theorem filterMap_waypoint?_scan (position : ℕ) (text : List Char) :
    (scan [] position text).lexemes.filterMap Lexeme.waypoint? = waypoints position text := by
  induction text generalizing position with
  | nil => rfl
  | cons c rest ih =>
    simp only [scan, Token.ofChar?_eq, waypoints]
    rw [lexemes_scan, List.filterMap_append, ih]
    cases Command.ofChar? c with
    | none => rfl
    | some k => rfl

/-- Every text has a reading as a sequence of commands. -/
theorem waypoints?_eq (r : Route) : r.waypoints? = some (waypoints 0 r.text.toList) := by
  have hw := filterMap_waypoint?_scan 0 r.text.toList
  simp only [Route.waypoints?, Rule.parse?, rest_scan, List.isEmpty_nil, ite_true, Option.map_some,
    List.cons_append, Option.some.injEq]
  rw [List.filterMap_cons_none rfl, List.filterMap_append, hw]
  exact List.append_nil _

/-- A route whose walk comes home compiles to its visits. -/
theorem compile_of_walk {r : Route} {visits : List Visit} {trailing : Option ℕ}
    (h : walk (waypoints 0 r.text.toList) = .home visits trailing) (config : Config) :
    r.compile config =
      .ok ⟨.ofList (visits.map Visit.instruction) config, (trailing.map r.trailing).toList⟩ := by
  rw [Route.compile, waypoints?_eq]
  simp only [h]

/-- Commentary only moves the commands behind it on. -/
theorem waypoints_append_of_comment {comment : List Char} (h : IsComment comment)
    (position : ℕ) (rest : List Char) :
    waypoints position (comment ++ rest) = waypoints (position + size comment) rest := by
  induction comment generalizing position with
  | nil => rfl
  | cons c comment ih =>
    have hc := (comment_char (h c List.mem_cons_self)).1
    rw [List.cons_append, waypoints_comment _ _ hc, size_cons, ← Nat.add_assoc]
    exact ih (fun d hd => h d (List.mem_cons_of_mem c hd)) _

/-! ### The walker behind a text -/

/-- The visit that a walk makes behind a text. -/
def visit (p : List Char) : Visit where
  index := (awayStops p).length + 1
  point := .ofSite (destination p)
  steps := .ofNat (stride p)
  offset := size p

/-- The walker that has scanned a text. -/
def walker (p : List Char) : Walker where
  position := .ofSite (destination p)
  steps := .ofNat (stride p)
  visits := ((stops p).map visit).reverse

/-- No visit of a text ends the walk: all are away from the origin and at different distances
from it. -/
structure UnderWay (p : List Char) : Prop where
  /-- No visit is at the origin. -/
  away : ∀ q ∈ stops p, destination q ≠ 0
  /-- No two visits are at the same distances. -/
  distinct : ((stops p).map fun q => (destination q).distances).Nodup

theorem underWay_nil : UnderWay [] := ⟨by simp [stops], by simp [stops]⟩

/-- Only visits end a walk. -/
theorem underWay_append_singleton {p : List Char} {c : Char} (hc : c ≠ '$') :
    UnderWay (p ++ [c]) ↔ UnderWay p := by
  have hs := stops_append_of_ne p hc
  constructor
  · rintro ⟨ha, hd⟩
    rw [hs] at ha hd
    exact ⟨ha, hd⟩
  · rintro ⟨ha, hd⟩
    rw [← hs] at ha hd
    exact ⟨ha, hd⟩

/-- A visit keeps a walk under way when it is away from the origin and repeats no distances. -/
theorem underWay_append_visit {p : List Char} :
    UnderWay (p ++ ['$']) ↔ UnderWay p ∧ destination p ≠ 0 ∧
      ∀ q ∈ stops p, (destination q).distances ≠ (destination p).distances := by
  have hs := stops_append_visit p
  constructor
  · rintro ⟨ha, hd⟩
    rw [hs] at ha hd
    rw [List.map_append, List.nodup_append'] at hd
    refine ⟨⟨fun q hq => ha q (List.mem_append_left _ hq), hd.1⟩, ha p (by simp), ?_⟩
    intro q hq he
    exact hd.2.2 (List.mem_map_of_mem hq) (by simp [he])
  · rintro ⟨⟨ha, hd⟩, hp, hne⟩
    refine ⟨?_, ?_⟩
    · rw [hs]
      intro q hq
      rcases List.mem_append.1 hq with hq | hq
      · exact ha q hq
      · rwa [List.mem_singleton.1 hq]
    · rw [hs, List.map_append, List.nodup_append']
      refine ⟨hd, List.nodup_singleton _, ?_⟩
      intro k hk hp'
      obtain ⟨q, hq, rfl⟩ := List.mem_map.1 hk
      exact hne q hq (by simpa using hp')

/-- The part of a text before its last character is under way when the text is. -/
theorem UnderWay.of_append_singleton {p : List Char} {c : Char} (h : UnderWay (p ++ [c])) :
    UnderWay p := by
  by_cases hc : c = '$'
  · subst hc
    exact (underWay_append_visit.1 h).1
  · exact (underWay_append_singleton hc).1 h

/-- Under way, all visits count. -/
theorem UnderWay.awayStops_eq {p : List Char} (h : UnderWay p) : awayStops p = stops p :=
  List.filter_eq_self.2 fun q hq => decide_eq_true (h.away q hq)

/-- The walker behind a text visits as the text says. -/
theorem UnderWay.walker_visit {p : List Char} (h : UnderWay p) :
    (walker p).visit (size p) = visit p := by
  simp [Walker.visit, walker, visit, h.awayStops_eq]

theorem walker_append_move {p : List Char} {c : Char} {d : Direction}
    (hm : isMove c = true) (hv : c ≠ '$') (hd : Point.ofSite (displacement c) = d.delta) :
    walker (p ++ [c]) = (walker p).go d := by
  have hs := stops_append_of_ne p hv
  have hn : moves [c] = 1 := by simp [moves, hm]
  simp only [walker, Walker.go, hs, destination_append, destination_singleton, Point.ofSite_add, hd,
    stride_append_singleton p hv, hn, UInt64.ofNat_add]
  rfl

theorem walker_append_comment {p : List Char} {c : Char} (hc : isCommand c = false) :
    walker (p ++ [c]) = walker p := by
  obtain ⟨hd, _, hs, ht⟩ := append_comment (isComment_singleton.2 hc) p
  simp only [walker, hd, hs, ht]

theorem walker_append_visit (p : List Char) :
    walker (p ++ ['$']) = (walker p).record (visit p) := by
  have hd : displacement '$' = 0 := rfl
  simp only [walker, Walker.record, stops_append_visit, destination_append, destination_singleton,
    hd, add_zero, stride_append_visit, List.map_append, List.map_singleton, List.reverse_append,
    List.reverse_singleton, List.singleton_append]
  rfl

/-! ### The scan passes through the walkers of the parts -/

/-- Within range, a visit is at the exact site. -/
theorem site_visit {p : List Char} (hp : InRange p) : (visit p).point.site = destination p :=
  Point.site_ofSite (inRange_destination hp)

theorem inRange_visit {p : List Char} (hp : InRange p) : (visit p).point.site.InRange := by
  rw [site_visit hp]
  exact inRange_destination hp

/-- Within range, the radii of two visits agree exactly when their distances do. -/
theorem radii_visit_eq_iff {p q : List Char} (hp : InRange p) (hq : InRange q) :
    (visit q).point.radii = (visit p).point.radii ↔
      (destination q).distances = (destination p).distances := by
  rw [Point.radii_eq_iff (inRange_visit hq) (inRange_visit hp), site_visit hq, site_visit hp]

/-- A visit within range is at the origin exactly when the walk is. -/
theorem point_visit_eq_origin_iff {p : List Char} (hp : InRange p) :
    (visit p).point = .origin ↔ destination p = 0 := by
  rw [Point.eq_origin_iff, site_visit hp]

/-- A visit at new distances has no rival. -/
theorem rival?_walker_eq_none {p : List Char} (hp : InRange p)
    (h : ∀ q ∈ stops p, (destination q).distances ≠ (destination p).distances) :
    (walker p).rival? (visit p) = none := by
  rw [Walker.rival?, List.find?_eq_none]
  intro u hu
  obtain ⟨q, hq, rfl⟩ := List.mem_map.1 (List.mem_reverse.1 hu)
  have hm := hp.of_mem_stops hq
  rw [beq_iff_eq, radii_visit_eq_iff hp hm]
  exact h q hq

/-- Under way, the rival of a visit is the one earlier visit at its distances. -/
theorem rival?_walker_eq_some {p q : List Char} (hp : InRange p) (h : UnderWay p)
    (hq : q ∈ stops p) (he : (destination q).distances = (destination p).distances) :
    (walker p).rival? (visit p) = some (visit q) := by
  cases hf : (walker p).rival? (visit p) with
  | none =>
    have hm := hp.of_mem_stops hq
    have hno := List.find?_eq_none.1 hf (visit q) (List.mem_reverse.2 (List.mem_map_of_mem hq))
    rw [beq_iff_eq, radii_visit_eq_iff hp hm] at hno
    exact absurd he hno
  | some u =>
    obtain ⟨q', hq', rfl⟩ := List.mem_map.1 (List.mem_reverse.1 (List.mem_of_find?_eq_some hf))
    have hm := hp.of_mem_stops hq'
    have he' := List.find?_some hf
    rw [beq_iff_eq, radii_visit_eq_iff hp hm] at he'
    rw [List.inj_on_of_nodup_map h.distinct hq' hq (he'.trans he.symm)]

/-- One character takes the walker of a text to the walker of the longer text. -/
theorem follow_walker_cons {p : List Char} {c : Char} (hp : InRange p)
    (h : UnderWay (p ++ [c])) (rest : List Char) :
    (walker p).follow (waypoints (size p) (c :: rest)) =
      (walker (p ++ [c])).follow (waypoints (size (p ++ [c])) rest) := by
  rw [size_append, size_singleton]
  rcases char_cases c with ⟨d, hk, hm, hv, hd⟩ | rfl | ⟨hk, hc, _⟩
  · rw [waypoints_move _ _ hk, walker_append_move hm hv hd, Walker.follow]
  · obtain ⟨hu, hne, hnew⟩ := underWay_append_visit.1 h
    have ho : (visit p).point ≠ .origin := by rwa [Ne, point_visit_eq_origin_iff hp]
    rw [waypoints_visit, Walker.follow]
    simp only [hu.walker_visit, rival?_walker_eq_none hp hnew, ho, ite_false]
    rw [walker_append_visit]
  · rw [waypoints_comment _ _ hk, walker_append_comment hc]

/-- The scan of a text passes through the walker of every part that keeps it under way. -/
theorem walk_append {p : List Char} (hp : InRange p) (h : UnderWay p) (rest : List Char) :
    walk (waypoints 0 (p ++ rest)) = (walker p).follow (waypoints (size p) rest) := by
  induction p using List.reverseRecOn generalizing rest with
  | nil => rfl
  | append_singleton p c ih =>
    have hm : InRange p := hp.of_append
    rw [List.append_assoc, List.singleton_append, ih hm h.of_append_singleton,
      follow_walker_cons hm h]

/-! ### How walks end -/

/-- A text that stays under way is lost at its end. -/
theorem walk_of_underWay {text : List Char} (hm : InRange text) (h : UnderWay text) :
    walk (waypoints 0 text) = .lost (.ofSite (destination text)) := by
  have hw := walk_append hm h []
  rw [List.append_nil] at hw
  rw [hw]
  rfl

/-- A visit that repeats the distances of an earlier one clashes with it. -/
theorem walk_of_repeat {p q : List Char} (hp : InRange p) (h : UnderWay p)
    (hq : q ∈ stops p) (he : (destination q).distances = (destination p).distances)
    (rest : List Char) : walk (waypoints 0 (p ++ '$' :: rest)) = .clash (visit q) (visit p) := by
  rw [walk_append hp h, waypoints_visit, Walker.follow]
  simp only [h.walker_visit, rival?_walker_eq_some hp h hq he]

/-- Under way, no earlier visit is at the distances of the origin. -/
theorem UnderWay.distances_ne_of_home {p : List Char} (h : UnderWay p) (h0 : destination p = 0) :
    ∀ q ∈ stops p, (destination q).distances ≠ (destination p).distances := by
  intro q hq he
  exact h.away q hq ((Site.eq_zero_iff_of_distances_eq he).2 h0)

/-- A visit to the origin leaves the rest to the next command. -/
theorem walk_of_home {home : List Char} (hm : InRange home) (h : UnderWay home)
    (h0 : destination home = 0) (rest : List Char) :
    walk (waypoints 0 (home ++ '$' :: rest)) =
      (walker home).arrive (visit home) (waypoints (size (home ++ ['$'])) rest) := by
  rw [walk_append hm h, waypoints_visit, Walker.follow, size_append, size_singleton]
  have ho : (visit home).point = .origin := (point_visit_eq_origin_iff hm).2 h0
  simp only [h.walker_visit, rival?_walker_eq_none hm (h.distances_ne_of_home h0), ho, ite_true]

/-- At home, commentary is passed over. -/
theorem arrive_append_comment (home : List Char) {comment : List Char} (hc : IsComment comment)
    (rest : List Char) :
    (walker home).arrive (visit home) (waypoints (size (home ++ ['$'])) (comment ++ rest)) =
      (walker home).arrive (visit home) (waypoints (size (home ++ '$' :: comment)) rest) := by
  have hs : size (home ++ '$' :: comment) = size (home ++ ['$']) + size comment := by
    rw [List.append_cons, size_append]
  rw [waypoints_append_of_comment hc, hs]

/-- The visits of a walker, the first one first. -/
theorem reverse_visits_walker (p : List Char) :
    (walker p).visits.reverse = (stops p).map visit :=
  List.reverse_reverse _

/-- The visit behind commentary that follows a visit to the origin repeats that visit. -/
theorem visit_append_home {home comment : List Char} (h0 : destination home = 0)
    (hc : IsComment comment) :
    visit (home ++ '$' :: comment) =
      { visit home with steps := 0, offset := size (home ++ '$' :: comment) } := by
  obtain ⟨hdest, _, hstride, hstops⟩ := append_comment hc (home ++ ['$'])
  have hd := destination_append_visit home
  have ha : awayStops (home ++ ['$'] ++ comment) = awayStops home := by
    rw [awayStops, hstops, stops_append_visit, List.filter_append]
    simp [awayStops, h0]
  rw [List.append_cons]
  simp only [visit, ha, hdest, hd, hstride, stride_append_visit]
  rfl

/-- How the walk of a text ends, in terms of the text alone. -/
inductive Ends : List Char → Outcome → Prop
  /-- No visit ends the walk. -/
  | lost {text} : UnderWay text → Ends text (.lost (.ofSite (destination text)))
  /-- A visit repeats the distances of an earlier one. -/
  | clash {p q rest} : UnderWay p → q ∈ stops p →
      (destination q).distances = (destination p).distances →
      Ends (p ++ '$' :: rest) (.clash (visit q) (visit p))
  /-- Only commentary follows the visit to the origin. -/
  | home {home rest} : UnderWay home → destination home = 0 → IsComment rest →
      Ends (home ++ '$' :: rest) (.home ((stops home).map visit) none)
  /-- A move follows the visit to the origin. -/
  | trailing {home comment c rest} : UnderWay home → destination home = 0 → IsComment comment →
      isMove c = true → Ends (home ++ '$' :: (comment ++ c :: rest))
        (.home ((stops home).map visit) (some (size (home ++ '$' :: comment))))
  /-- A second visit follows the visit to the origin. -/
  | twice {home comment rest} : UnderWay home → destination home = 0 → IsComment comment →
      Ends (home ++ '$' :: (comment ++ '$' :: rest))
        (.clash (visit home) (visit (home ++ '$' :: comment)))

/-- A text is read to the end of its walk. -/
theorem Ends.walk_eq {text : List Char} {o : Outcome} (h : Ends text o)
    (hm : InRange text) : walk (waypoints 0 text) = o := by
  cases h with
  | lost hu => exact walk_of_underWay hm hu
  | clash hu hq he => exact walk_of_repeat hm.of_append hu hq he _
  | @home home rest hu h0 hc =>
    have ha := arrive_append_comment home hc []
    rw [List.append_nil] at ha
    rw [walk_of_home hm.of_append hu h0, ha, waypoints, Walker.arrive, reverse_visits_walker]
  | @trailing home comment c rest hu h0 hc hmove =>
    rw [walk_of_home hm.of_append hu h0, arrive_append_comment home hc]
    rcases char_cases c with ⟨d, hk, _⟩ | rfl | ⟨_, hcc, _⟩
    · rw [waypoints_move _ _ hk, Walker.arrive, reverse_visits_walker]
    · simp [isMove] at hmove
    · simp [isCommand, hmove] at hcc
  | @twice home comment rest hu h0 hc =>
    rw [walk_of_home hm.of_append hu h0, arrive_append_comment home hc, waypoints_visit,
      Walker.arrive, visit_append_home h0 hc]

/-- A text stays under way or has a first visit that ends its walk. -/
theorem underWay_or_exists_stop (text : List Char) :
    UnderWay text ∨ ∃ p rest, text = p ++ '$' :: rest ∧ UnderWay p ∧ ¬ UnderWay (p ++ ['$']) := by
  induction text using List.reverseRecOn with
  | nil => exact Or.inl underWay_nil
  | append_singleton text c ih =>
    rcases ih with hu | ⟨p, rest, rfl, hu, hn⟩
    · by_cases hc : UnderWay (text ++ [c])
      · exact Or.inl hc
      · have hv : c = '$' := by
          by_contra hne
          exact hc ((underWay_append_singleton hne).2 hu)
        subst hv
        exact Or.inr ⟨text, [], rfl, hu, hc⟩
    · exact Or.inr ⟨p, rest ++ [c], by simp, hu, hn⟩

/-- After a visit to the origin, the next command decides. -/
theorem exists_ends_of_home {home : List Char} (hu : UnderWay home) (h0 : destination home = 0)
    (rest : List Char) :
    ∃ o, Ends (home ++ '$' :: rest) o ∧ (rest.find? isCommand ≠ some '$' →
      ∃ trailing, o = .home ((stops home).map visit) trailing) := by
  rcases command_cases rest with ⟨hc, _⟩ | ⟨comment, c, after, rfl, hc, hmove, _⟩ |
    ⟨comment, after, rfl, hc, hf⟩
  · exact ⟨_, .home hu h0 hc, fun _ => ⟨_, rfl⟩⟩
  · exact ⟨_, .trailing hu h0 hc hmove, fun _ => ⟨_, rfl⟩⟩
  · exact ⟨_, .twice hu h0 hc, fun hne => absurd hf hne⟩

/-- Every walk ends. -/
theorem exists_ends (text : List Char) : ∃ o, Ends text o := by
  rcases underWay_or_exists_stop text with hu | ⟨p, rest, rfl, hu, hn⟩
  · exact ⟨_, .lost hu⟩
  · by_cases h0 : destination p = 0
    · obtain ⟨o, ho, _⟩ := exists_ends_of_home hu h0 rest
      exact ⟨o, ho⟩
    · have hq : ∃ q ∈ stops p, (destination q).distances = (destination p).distances := by
        by_contra hno
        push Not at hno
        exact hn (underWay_append_visit.2 ⟨hu, h0, hno⟩)
      obtain ⟨q, hq, he⟩ := hq
      exact ⟨_, .clash hu hq he⟩

end GridWalk.Itinerary
