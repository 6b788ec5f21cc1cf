import GridWalk.Proofs.Compilation

/-!
# What an error says

A text that does not compile repeats distances or never visits the origin, and its
error tells which. An error about repeated distances is about the earliest visit that
repeats any. It names that visit and the one it repeats by their places in the text,
their points and their numbers among the visits away from the origin. An error about a
walk that never comes home names the point at which the whole text ends.
-/

namespace GridWalk.Itinerary

/-- A visit is reached when no move lies between an earlier visit to the origin and it: such a
move ends the scan. -/
def Reached (text p : List Char) : Prop :=
  p ∈ stops text ∧ ∀ home ∈ stops p, destination home = 0 → moves p = moves home

/-- The visit behind a text is at the distances of an earlier visit. -/
def Repeats (p : List Char) : Prop :=
  ∃ q ∈ stops p, (destination q).distances = (destination p).distances

instance (text p : List Char) : Decidable (Reached text p) :=
  inferInstanceAs (Decidable (p ∈ stops text ∧ ∀ home ∈ stops p, _))

instance (p : List Char) : Decidable (Repeats p) :=
  inferInstanceAs (Decidable (∃ q ∈ stops p, _))

/-- Visits at different distances do not repeat each other. -/
theorem not_repeats_of_nodup {text p : List Char}
    (h : ((stops text).map fun q => (destination q).distances).Nodup) (hp : p ∈ stops text) :
    ¬ Repeats p := by
  rintro ⟨q, hq, he⟩
  have hqp : q = p := List.inj_on_of_nodup_map h (stops_trans hq hp) hp he
  have hlt := size_lt_of_mem_stops hq
  rw [hqp] at hlt
  exact lt_irrefl _ hlt

/-- The label of one byte at a stop lies on a `$`. -/
theorem slice_stop {name text : String} {p : List Char} (h : p ∈ stops text.toList) :
    Route.slice ⟨name, text⟩ ⟨size p, 1⟩ = "$" := by
  obtain ⟨rest, ht⟩ := mem_stops.1 h
  have hs : text = String.ofList p ++ ("$" ++ String.ofList rest) := by
    rw [← @String.ofList_toList text, ht, String.ofList_append]
    exact congrArg _ (@String.ofList_append ['$'] rest)
  have he : text.toByteArray.extract (size p) (size p + 1) = "$".toByteArray := by
    rw [hs, String.toByteArray_append, String.toByteArray_append]
    exact (ByteArray.extract_append_size_add (i := 0)).trans (ByteArray.extract_append_eq_left rfl)
  rw [Route.slice, String.toUTF8_eq_toByteArray, he, String.fromUTF8?, dif_pos "$".isValidUTF8]
  rfl

/-- Two visits `u` and `v` are what the text says about its earliest repeated visit, which stands
behind `p` and repeats the one behind `q`. -/
structure NamesRepeat (r : Route) (u v : Visit) (q p : List Char) : Prop where
  /-- The second visit is reached. -/
  reached : Reached r.text.toList p
  /-- The first visit comes before it. -/
  earlier : q ∈ stops p
  /-- Both are at the same distances. -/
  level : (destination q).distances = (destination p).distances
  /-- No reached visit before the second one repeats distances. -/
  earliest : ∀ p', Reached r.text.toList p' → Repeats p' → p.length ≤ p'.length
  /-- The visits are named by the bytes before them. -/
  offsets : u.offset = size q ∧ v.offset = size p
  /-- They are named in their order. -/
  ordered : u.offset < v.offset
  /-- One byte at each place is a `$`. -/
  marks : r.slice ⟨u.offset, 1⟩ = "$" ∧ r.slice ⟨v.offset, 1⟩ = "$"
  /-- The points are where the walk stands. -/
  sites : u.point.site = destination q ∧ v.point.site = destination p
  /-- The numbers count the visits away from the origin up to each. -/
  indices : u.index = 1 + (awayStops q).length ∧ v.index = 1 + (awayStops p).length
  /-- The distances are those of both points. -/
  radii : u.point.radii = v.point.radii ∧
    (v.point.radii.chebyshev.toNat, v.point.radii.manhattan.toNat) = (destination p).distances
  /-- Away from the origin, the numbers differ. -/
  away : destination p ≠ 0 → u.index < v.index
  /-- At the origin, they agree. -/
  home : destination p = 0 → u.index = v.index ∧ u.point = .origin ∧ v.point = .origin

/-- A clash is between the earliest visit that repeats distances and the one it repeats. -/
theorem Ends.exists_repeat {text : List Char} {u v : Visit} (h : Ends text (.clash u v)) :
    ∃ q p, u = visit q ∧ v = visit p ∧ Reached text p ∧ q ∈ stops p ∧
      (destination q).distances = (destination p).distances ∧
      ((stops p).map fun q => (destination q).distances).Nodup ∧
      (destination p = 0 → (visit q).index = (visit p).index) := by
  cases h with
  | @clash p q rest hu hq he =>
    refine ⟨q, p, rfl, rfl, ⟨mem_stops.2 ⟨rest, rfl⟩, ?_⟩, hq, he, hu.distinct, ?_⟩
    · intro home hhome h0
      exact absurd h0 (hu.away home hhome)
    · intro h0
      exact absurd ((Site.eq_zero_iff_of_distances_eq he).2 h0) (hu.away q hq)
  | @twice home comment rest hu h0 hc =>
    obtain ⟨hdest, hmoves, _, hstops⟩ := append_comment hc (home ++ ['$'])
    have hd : destination (home ++ ['$']) = 0 := by rw [destination_append_visit, h0]
    have hmv : moves (home ++ ['$']) = moves home := by
      rw [moves_append]
      rfl
    rw [stops_append_visit] at hstops
    rw [← List.append_cons] at hdest hmoves hstops
    have hin : home ++ '$' :: comment ∈ stops (home ++ '$' :: (comment ++ '$' :: rest)) :=
      mem_stops.2 ⟨rest, by simp⟩
    refine ⟨home, home ++ '$' :: comment, rfl, rfl, ⟨hin, ?_⟩, ?_, ?_, ?_, ?_⟩
    · intro home' hhome' h0'
      rw [hstops] at hhome'
      rcases List.mem_append.1 hhome' with hin | heq
      · exact absurd h0' (hu.away home' hin)
      · rw [List.mem_singleton.1 heq, hmoves, hmv]
    · rw [hstops]
      exact List.mem_append_right _ (List.mem_singleton_self _)
    · rw [hdest, hd, h0]
    · rw [hstops, List.map_append, List.nodup_append']
      refine ⟨hu.distinct, List.nodup_singleton _, ?_⟩
      intro k hk hk'
      obtain ⟨q, hq, rfl⟩ := List.mem_map.1 hk
      exact hu.distances_ne_of_home h0 q hq (by simpa using hk')
    · intro _
      rw [visit_append_home h0 hc]

/-- A walk that is lost stays under way to the end of its text. -/
theorem Ends.underWay_of_lost {text : List Char} {finish : Point} (h : Ends text (.lost finish)) :
    UnderWay text ∧ finish = .ofSite (destination text) := by
  cases h with
  | lost hu => exact ⟨hu, rfl⟩

/-- Within range, the radii of a visit are its exact distances. -/
theorem radii_visit {p : List Char} (hm : InRange p) :
    ((visit p).point.radii.chebyshev.toNat, (visit p).point.radii.manhattan.toNat) =
      (destination p).distances := by
  have hr := inRange_visit hm
  rw [Point.toNat_chebyshev_radii hr, Point.toNat_manhattan_radii hr, site_visit hm]

/-- The visits of a clash are those of the earliest repetition. -/
theorem exists_namesRepeat (name : String) {text : String} {u v : Visit}
    (hm : InRange text.toList) (h : Ends text.toList (.clash u v)) :
    ∃ q p, NamesRepeat ⟨name, text⟩ u v q p := by
  obtain ⟨q, p, rfl, rfl, hr, hq, he, hd, hi⟩ := h.exists_repeat
  have hmp : InRange p := hm.of_mem_stops hr.1
  have hmq : InRange q := hmp.of_mem_stops hq
  refine ⟨q, p, hr, hq, he, ?_, ⟨rfl, rfl⟩, size_lt_of_mem_stops hq,
    ⟨slice_stop (stops_trans hq hr.1), slice_stop hr.1⟩,
    ⟨site_visit hmq, site_visit hmp⟩, ⟨Nat.add_comm _ _, Nat.add_comm _ _⟩,
    ⟨(radii_visit_eq_iff hmp hmq).2 he, radii_visit hmp⟩, ?_, ?_⟩
  · intro p' hr' hrep
    rcases stops_trichotomy hr.1 hr'.1 with rfl | hlater | hbefore
    · exact le_rfl
    · obtain ⟨rest, rfl⟩ := mem_stops.1 hlater
      simp
    · exact absurd hrep (not_repeats_of_nodup hd hbefore)
  · intro hne
    have hqne : destination q ≠ 0 := fun h0 => hne ((Site.eq_zero_iff_of_distances_eq he).1 h0)
    exact Nat.succ_lt_succ (length_awayStops_lt hq hqne)
  · intro h0
    exact ⟨hi h0,
      (point_visit_eq_origin_iff hmq).2 ((Site.eq_zero_iff_of_distances_eq he).2 h0),
      (point_visit_eq_origin_iff hmp).2 h0⟩

/-- A text that does not compile has an error about its earliest repeated visit if a reached visit
repeats distances, and else an error about where it ends, and then it never visits the origin. -/
theorem compile_error_repeat_or_lost (name text : String) (config : Config) (e : CompileError)
    (hm : InRange text.toList)
    (he : Route.compile ⟨name, text⟩ config = .error e) :
    ((∃ p, Reached text.toList p ∧ Repeats p) →
      ∃ u v q p, e = .clash ⟨name, text⟩ u v ∧ NamesRepeat ⟨name, text⟩ u v q p ∧
        e.diagnostic.labels =
          [⟨"first visited here", u.offset, 1⟩, ⟨"conflicting visit", v.offset, 1⟩]) ∧
    ((¬ ∃ p, Reached text.toList p ∧ Repeats p) →
      ∃ finish, e = .lost ⟨name, text⟩ finish ∧ finish.site = destination text.toList ∧
        (∀ p ∈ stops text.toList, destination p ≠ 0) ∧
        e.diagnostic.labels = [⟨"source ends here", text.utf8ByteSize, 0⟩]) := by
  obtain ⟨o, ho⟩ := exists_ends text.toList
  rw [compile_eq_of_ends ho hm] at he
  cases o with
  | clash u v =>
    obtain rfl := Except.error.inj he
    obtain ⟨q, p, hn⟩ := exists_namesRepeat name hm ho
    constructor
    · intro _
      exact ⟨u, v, q, p, rfl, hn, rfl⟩
    · intro hno
      exact absurd ⟨p, hn.reached, q, hn.earlier, hn.level⟩ hno
  | lost finish =>
    obtain rfl := Except.error.inj he
    obtain ⟨hu, rfl⟩ := ho.underWay_of_lost
    constructor
    · rintro ⟨p, hp, hrep⟩
      exact absurd hrep (not_repeats_of_nodup hu.distinct hp.1)
    · intro _
      exact ⟨_, rfl, Point.site_ofSite (inRange_destination hm), hu.away, rfl⟩
  | home visits trailing => exact absurd he (by simp)

/-- Two visits that mirror each other at the origin, behind a character of two bytes. -/
theorem compile_error_repeat_or_lost_mirrored :
    InRange "éDW$ASAS$".toList ∧
    ∃ e u v q p, Route.compile ⟨"r", "éDW$ASAS$"⟩ {} = .error e ∧
      e = .clash ⟨"r", "éDW$ASAS$"⟩ u v ∧ NamesRepeat ⟨"r", "éDW$ASAS$"⟩ u v q p := by
  have hm : InRange "éDW$ASAS$".toList := by decide
  have he : Route.compile ⟨"r", "éDW$ASAS$"⟩ {} =
      .error (.clash ⟨"r", "éDW$ASAS$"⟩ ⟨1, ⟨1, 1⟩, 2, 4⟩ ⟨2, ⟨-1, -1⟩, 4, 9⟩) := by decide
  have hp : Reached "éDW$ASAS$".toList "éDW$ASAS".toList ∧ Repeats "éDW$ASAS".toList := by decide
  obtain ⟨u, v, q, p, hc, hn, _⟩ :=
    (compile_error_repeat_or_lost "r" "éDW$ASAS$" {} _ hm he).1 ⟨_, hp⟩
  exact ⟨hm, _, u, v, q, p, he, hc, hn⟩

end GridWalk.Itinerary
