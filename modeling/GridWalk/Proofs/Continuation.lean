import GridWalk.Proofs.CompileErrors
import GridWalk.Proofs.Realization

/-!
# Text that goes on

What text behind another text can change depends on how the walk of the first text ends. A clash
stays a clash, and a move behind the visit to the origin stays the place from where on everything
is ignored. Where only commentary follows the visit to the origin, the next command decides. A walk
that is lost can be led home from where it ends: by any text without visits that returns to the
origin and one visit there.
-/

namespace GridWalk.Itinerary

/-! ### Longer texts -/

/-- A clash stays a clash. -/
theorem Ends.append_clash {text : List Char} {u v : Visit} (h : Ends text (.clash u v))
    (rest : List Char) : Ends (text ++ rest) (.clash u v) := by
  cases h with
  | clash hu hq he =>
    rw [List.append_assoc, List.cons_append]
    exact .clash hu hq he
  | twice hu h0 hc =>
    rw [List.append_assoc, List.cons_append, List.append_assoc, List.cons_append]
    exact .twice hu h0 hc

/-- What is ignored from a place on is ignored from there on in a longer text. -/
theorem Ends.append_trailing {text : List Char} {visits : List Visit} {offset : ℕ}
    (h : Ends text (.home visits (some offset))) (rest : List Char) :
    Ends (text ++ rest) (.home visits (some offset)) := by
  cases h with
  | trailing hu h0 hc hmove =>
    rw [List.append_assoc, List.cons_append, List.append_assoc, List.cons_append]
    exact .trailing hu h0 hc hmove

section
variable {text comment : List Char} {visits : List Visit}

/-- More commentary behind the visit to the origin changes nothing. -/
theorem Ends.append_comment (h : Ends text (.home visits none)) (hc : IsComment comment) :
    Ends (text ++ comment) (.home visits none) := by
  cases h with
  | home hu h0 hrest =>
    rw [List.append_assoc, List.cons_append]
    exact .home hu h0 (isComment_append.2 ⟨hrest, hc⟩)

/-- Where only commentary follows the visit to the origin, a move behind it is the first one. -/
theorem Ends.append_move (h : Ends text (.home visits none)) (hc : IsComment comment) {c : Char}
    (hmove : isMove c = true) (rest : List Char) :
    Ends (text ++ (comment ++ c :: rest)) (.home visits (some (size (text ++ comment)))) := by
  cases h with
  | @home home old hu h0 hold =>
    have hends : Ends (home ++ '$' :: (old ++ comment ++ c :: rest)) _ :=
      .trailing hu h0 (isComment_append.2 ⟨hold, hc⟩) hmove
    simpa only [List.append_assoc, List.cons_append] using hends

/-- Where only commentary follows the visit to the origin, a visit behind it is the second one. -/
theorem Ends.append_visit (h : Ends text (.home visits none)) (hc : IsComment comment)
    (rest : List Char) :
    ∃ home ∈ stops text, destination home = 0 ∧ Ends (text ++ (comment ++ '$' :: rest))
      (.clash (visit home) { visit home with steps := 0, offset := size (text ++ comment) }) := by
  cases h with
  | @home home old hu h0 hold =>
    have hcomment := isComment_append.2 ⟨hold, hc⟩
    have hends : Ends (home ++ '$' :: (old ++ comment ++ '$' :: rest)) _ := .twice hu h0 hcomment
    rw [visit_append_home h0 hcomment] at hends
    refine ⟨home, mem_stops.2 ⟨old, rfl⟩, h0, ?_⟩
    simpa only [List.append_assoc, List.cons_append] using hends

/-- What is ignored is part of the text. -/
theorem Ends.trailing_le {offset : ℕ} (h : Ends text (.home visits (some offset))) :
    offset ≤ size text := by
  cases h with
  | @trailing home comment c rest hu h0 hc hmove =>
    have hs : home ++ '$' :: (comment ++ c :: rest) = home ++ '$' :: comment ++ c :: rest := by
      simp
    rw [hs, size_append (home ++ '$' :: comment)]
    exact Nat.le_add_right _ _

end

/-! ### What compiling the longer text gives -/

/-- The walk of a text that compiles comes home, and a warning tells where it is left. -/
theorem exists_ends_of_compile {name text : String} {config : Config} {c : Compilation}
    (hm : InRange text.toList) (h : Route.compile ⟨name, text⟩ config = .ok c) :
    ∃ visits trailing, Ends text.toList (.home visits trailing) ∧
      c.program = .ofList (visits.map Visit.instruction) config ∧
      c.warnings = (trailing.map (Route.trailing ⟨name, text⟩)).toList := by
  obtain ⟨o, ho⟩ := exists_ends text.toList
  rw [compile_eq_of_ends ho hm] at h
  cases o with
  | clash u v => cases h
  | lost finish => cases h
  | home visits trailing =>
    cases h
    exact ⟨visits, trailing, ho, rfl, rfl⟩

/-- A text whose walk is left at some place compiles with one warning, about all that follows. -/
theorem compile_of_trailing {name text : String} {visits : List Visit} {offset : ℕ}
    (hm : InRange text.toList) (h : Ends text.toList (.home visits (some offset)))
    (config : Config) :
    ∃ length, offset + length = text.utf8ByteSize ∧
      Route.compile ⟨name, text⟩ config =
        .ok ⟨.ofList (visits.map Visit.instruction) config, [⟨⟨name, text⟩, offset, length⟩]⟩ := by
  have hle := h.trailing_le
  rw [size_toList] at hle
  exact ⟨text.utf8ByteSize - offset, Nat.add_sub_cancel' hle, compile_eq_of_ends h hm config⟩

section
variable {name s t : String} {config : Config}

/-- The error about a clash stays as it is. -/
theorem compile_append_of_clash (hm : InRange (s ++ t).toList) {r : Route}
    {u v : Visit} (h : Route.compile ⟨name, s⟩ config = .error (.clash r u v)) :
    Route.compile ⟨name, s ++ t⟩ config = .error (.clash ⟨name, s ++ t⟩ u v) := by
  obtain ⟨o, ho⟩ := exists_ends s.toList
  rw [compile_eq_of_ends ho hm.of_toList_append] at h
  cases o with
  | lost finish => cases h
  | home visits trailing => cases h
  | clash u' v' =>
    cases h
    have hlonger := ho.append_clash t.toList
    rw [← String.toList_append] at hlonger
    exact compile_eq_of_ends hlonger hm config

/-- A warning goes on to the new end. -/
theorem compile_append_of_warning (hm : InRange (s ++ t).toList) {c : Compilation}
    {w : Warning} (h : Route.compile ⟨name, s⟩ config = .ok c) (hw : w ∈ c.warnings) :
    ∃ length, w.span.offset + length = (s ++ t).utf8ByteSize ∧
      Route.compile ⟨name, s ++ t⟩ config =
        .ok ⟨c.program, [⟨⟨name, s ++ t⟩, w.span.offset, length⟩]⟩ := by
  obtain ⟨visits, trailing, ho, hp, hwarnings⟩ := exists_ends_of_compile hm.of_toList_append h
  rw [hwarnings] at hw
  cases trailing with
  | none => cases hw
  | some offset =>
    obtain rfl := List.mem_singleton.1 hw
    have hlonger := ho.append_trailing t.toList
    rw [← String.toList_append] at hlonger
    rw [hp]
    exact compile_of_trailing hm hlonger config

/-- Only commentary follows the visit to the origin in a text that compiles without a warning. -/
theorem exists_ends_of_no_warning {c : Compilation} (hm : InRange s.toList)
    (h : Route.compile ⟨name, s⟩ config = .ok c) (hw : c.warnings = []) :
    ∃ visits, Ends s.toList (.home visits none) ∧
      c.program = .ofList (visits.map Visit.instruction) config := by
  obtain ⟨visits, trailing, ho, hp, hwarnings⟩ := exists_ends_of_compile hm h
  cases trailing with
  | none => exact ⟨visits, ho, hp⟩
  | some offset =>
    rw [hwarnings] at hw
    cases hw

/-- Where there is no warning, a visit as the next command is an error about the origin. -/
theorem compile_append_visit (hm : InRange (s ++ t).toList) {visits : List Visit}
    (h : Ends s.toList (.home visits none)) {comment rest : List Char}
    (ht : t.toList = comment ++ '$' :: rest) (hc : IsComment comment) :
    ∃ u v, Route.compile ⟨name, s ++ t⟩ config = .error (.clash ⟨name, s ++ t⟩ u v) ∧
      u.point = .origin ∧ v.point = .origin ∧ u.index = v.index ∧
      u.offset < s.utf8ByteSize ∧ v.offset = s.utf8ByteSize + size comment := by
  obtain ⟨home, hhome, h0, hlonger⟩ := h.append_visit hc rest
  rw [← ht, ← String.toList_append, size_append, size_toList] at hlonger
  have hmhome := hm.of_toList_append.of_mem_stops hhome
  have hpoint : (visit home).point = .origin := (point_visit_eq_origin_iff hmhome).2 h0
  have hbefore := size_lt_of_mem_stops hhome
  rw [size_toList] at hbefore
  exact ⟨_, _, compile_eq_of_ends hlonger hm config, hpoint, hpoint, rfl, hbefore, rfl⟩

end

/-- What text behind a text changes. An error about repeated distances stays as it is. A warning
goes on to the new end. Where there is neither, commentary changes nothing, a move as the first new
command makes a warning from there on, and a visit as the first new command is an error about the
origin. The program stays the same whenever there is one. -/
theorem compile_append (name s t : String) (config : Config)
    (hm : InRange (s ++ t).toList) :
    (∀ r u v, Route.compile ⟨name, s⟩ config = .error (.clash r u v) →
      Route.compile ⟨name, s ++ t⟩ config = .error (.clash ⟨name, s ++ t⟩ u v)) ∧
    (∀ c w, Route.compile ⟨name, s⟩ config = .ok c → w ∈ c.warnings →
      ∃ length, w.span.offset + length = (s ++ t).utf8ByteSize ∧
        Route.compile ⟨name, s ++ t⟩ config =
          .ok ⟨c.program, [⟨⟨name, s ++ t⟩, w.span.offset, length⟩]⟩) ∧
    ∀ c, Route.compile ⟨name, s⟩ config = .ok c → c.warnings = [] →
      (IsComment t.toList → Route.compile ⟨name, s ++ t⟩ config = .ok ⟨c.program, []⟩) ∧
      (∀ comment d rest, t.toList = comment ++ d :: rest → IsComment comment → isMove d = true →
        ∃ length, s.utf8ByteSize + size comment + length = (s ++ t).utf8ByteSize ∧
          Route.compile ⟨name, s ++ t⟩ config =
            .ok ⟨c.program, [⟨⟨name, s ++ t⟩, s.utf8ByteSize + size comment, length⟩]⟩) ∧
      ∀ comment rest, t.toList = comment ++ '$' :: rest → IsComment comment →
        ∃ u v, Route.compile ⟨name, s ++ t⟩ config = .error (.clash ⟨name, s ++ t⟩ u v) ∧
          u.point = .origin ∧ v.point = .origin ∧ u.index = v.index ∧
          u.offset < s.utf8ByteSize ∧ v.offset = s.utf8ByteSize + size comment := by
  refine ⟨fun r u v h => compile_append_of_clash hm h,
    fun c w h hw => compile_append_of_warning hm h hw, ?_⟩
  intro c h hw
  obtain ⟨visits, ho, hp⟩ := exists_ends_of_no_warning hm.of_toList_append h hw
  rw [hp]
  refine ⟨?_, ?_, fun comment rest ht hc => compile_append_visit hm ho ht hc⟩
  · intro hc
    have hlonger := ho.append_comment hc
    rw [← String.toList_append] at hlonger
    exact compile_eq_of_ends hlonger hm config
  · intro comment d rest ht hc hmove
    have hlonger := ho.append_move hc hmove rest
    rw [← ht, ← String.toList_append, size_append, size_toList] at hlonger
    exact compile_of_trailing hm hlonger config

/-- A walk that has come home goes on with a move, and then with a visit. The same walk goes on with
a visit at once. A clash goes on with the way home. -/
theorem compile_append_next_command :
    let home := "éDW$AS$"
    let left := home ++ "ü D"
    ∃ c, Route.compile ⟨"r", home⟩ {} = .ok c ∧ c.warnings = [] ∧
      Route.compile ⟨"r", left⟩ {} = .ok ⟨c.program, [⟨⟨"r", left⟩, 11, 1⟩]⟩ ∧
      Route.compile ⟨"r", left ++ "$"⟩ {} = .ok ⟨c.program, [⟨⟨"r", left ++ "$"⟩, 11, 2⟩]⟩ ∧
      (∃ u v, Route.compile ⟨"r", home ++ "ü $D"⟩ {} = .error (.clash ⟨"r", home ++ "ü $D"⟩ u v) ∧
        u.point = .origin ∧ v.point = .origin ∧ u.index = v.index ∧ u.offset < 8 ∧ v.offset = 11) ∧
      Route.compile ⟨"r", "DW$$" ++ "AS$"⟩ {} =
        .error (.clash ⟨"r", "DW$$" ++ "AS$"⟩ ⟨1, ⟨1, 1⟩, 2, 2⟩ ⟨2, ⟨1, 1⟩, 0, 3⟩) := by
  intro home left
  have hu : UnderWay "éDW$AS".toList := ⟨by decide, by decide⟩
  have hs : home.toList = "éDW$AS".toList ++ ['$'] := by decide
  have hc := compile_of_ends_home hs (by decide) hu (by decide) "r" {}
  have hcomment : IsComment ['ü', ' '] := by
    intro c hc
    fin_cases hc <;> decide
  obtain ⟨_, _, hplain⟩ := compile_append "r" home "ü D" {} (by decide)
  obtain ⟨length, hlength, hleft⟩ :=
    (hplain _ hc rfl).2.1 ['ü', ' '] 'D' [] (by decide) hcomment (by decide)
  obtain rfl : length = 1 := by
    have : 11 + length = 12 := hlength
    omega
  obtain ⟨_, hwarned, _⟩ := compile_append "r" left "$" {} (by decide)
  obtain ⟨length, hlength, hleft'⟩ := hwarned _ _ hleft (List.mem_singleton_self _)
  obtain rfl : length = 2 := by
    have : 11 + length = 13 := hlength
    omega
  obtain ⟨_, _, hplain'⟩ := compile_append "r" home "ü $D" {} (by decide)
  obtain ⟨hclash, _⟩ := compile_append "r" "DW$$" "AS$" {} (by decide)
  have herror : Route.compile ⟨"r", "DW$$"⟩ {} =
      .error (.clash ⟨"r", "DW$$"⟩ ⟨1, ⟨1, 1⟩, 2, 2⟩ ⟨2, ⟨1, 1⟩, 0, 3⟩) := by decide
  exact ⟨_, hc, rfl, hleft, hleft',
    (hplain' _ hc rfl).2.2 ['ü', ' '] ['D'] (by decide) hcomment, hclash _ _ _ herror⟩

/-! ### The way home -/

/-- A text has one stop for each of its visits. -/
theorem length_stops (text : List Char) : (stops text).length = text.count '$' := by
  induction text using List.reverseRecOn with
  | nil => rfl
  | append_singleton text c ih =>
    rw [stops_append_singleton, List.length_append, List.count_append, ih]
    by_cases hc : c = '$'
    · rw [if_pos hc, hc]
      rfl
    · rw [if_neg hc, List.count_singleton, if_neg (by simpa using hc)]
      rfl

/-- From every site there is a way to the origin, without a visit and with no move to spare. -/
theorem exists_way_home (s : Site) : ∃ h : String, '$' ∉ h.toList ∧
    s + destination h.toList = 0 ∧ moves h.toList = s.distances.2 := by
  refine ⟨String.ofList (path (-s) s.distances.2), ?_⟩
  rw [String.toList_ofList]
  refine ⟨visit_notMem_path _ _, ?_, ?_⟩
  · rw [destination_path, add_neg_cancel]
  · exact moves_path (by rw [Site.distances_neg]) (by rw [Site.distances_neg])

/-- A text whose walk is lost stays under way, and the error names the site where it ends. -/
theorem underWay_of_compile_lost {name text : String} {config : Config} {r : Route}
    {finish : Point} (hm : InRange text.toList)
    (h : Route.compile ⟨name, text⟩ config = .error (.lost r finish)) :
    UnderWay text.toList ∧ finish.site = destination text.toList := by
  obtain ⟨o, ho⟩ := exists_ends text.toList
  rw [compile_eq_of_ends ho hm] at h
  cases o with
  | clash u v => cases h
  | home visits trailing => cases h
  | lost finish' =>
    cases h
    obtain ⟨hu, rfl⟩ := ho.underWay_of_lost
    exact ⟨hu, Point.site_ofSite (inRange_destination hm)⟩

/-- Text without visits keeps a walk under way. -/
theorem UnderWay.append_of_visit_notMem {p w : List Char} (h : UnderWay p) (hw : '$' ∉ w) :
    UnderWay (p ++ w) := by
  rw [underWay_iff_walkable, (Itinerary.append_of_visit_notMem hw p).1]
  exact underWay_iff_walkable.1 h

/-- Within range, the instructions of the legs are those of points and counts that hold the legs
exactly. -/
theorem exists_visits_of_legs {p : List Char} (hm : InRange p) :
    ∃ visits : List (Point × UInt64), visits.map legOf = legs p ∧
      (legs p).map legInstruction = visits.map fun v => .ofVisit v.1 v.2 := by
  obtain ⟨visits, hv⟩ := exists_map_legOf_eq_legs hm
  refine ⟨visits, hv, ?_⟩
  rw [← hv, List.map_map]
  exact List.map_congr_left fun v _ => legInstruction_legOf v

/-- A walk that is lost can be led home. There is a way home from every point, with no more moves
than its distance. Whatever way home a text takes from the point that its error names, with a visit
at the end it compiles without a warning, to one instruction for each visit that it made before, in
the order of their distances. -/
theorem lost_walk_led_home (name s : String) (config : Config) :
    (∀ finish : Point, ∃ h : String, '$' ∉ h.toList ∧ finish.site + destination h.toList = 0 ∧
      moves h.toList = finish.site.distances.2) ∧
    ∀ r finish h, Route.compile ⟨name, s⟩ config = .error (.lost r finish) → '$' ∉ h.toList →
      finish.site + destination h.toList = 0 → InRange (s ++ h).toList →
      ∃ (c : Compilation) (visits : List (Point × UInt64)),
        Route.compile ⟨name, s ++ h ++ "$"⟩ config = .ok c ∧ c.warnings = [] ∧
        visits.length = s.toList.count '$' ∧
        (visits.map fun v => (v.1.site, v.2.toNat)) =
          (stops s.toList).map (fun p => (destination p, stride p)) ∧
        c.program = .ofList (visits.map fun v => .ofVisit v.1 v.2) config ∧
        c.program.instructions.toList.Perm (visits.map fun v => .ofVisit v.1 v.2) ∧
        c.program.instructions.toList.Pairwise fun a b =>
          a.radii ≤ b.radii ∧ a.radii ≠ b.radii := by
  constructor
  · intro finish
    exact exists_way_home finish.site
  · intro r finish h hlost hvisit hhome hm
    have hms := hm.of_toList_append
    obtain ⟨hu, hfinish⟩ := underWay_of_compile_lost hms hlost
    have hlegs := (append_of_visit_notMem hvisit s.toList).1
    obtain ⟨visits, hv, hinstructions⟩ := exists_visits_of_legs hms
    have hsplit : (s ++ h ++ "$").toList = s.toList ++ h.toList ++ ['$'] := by
      rw [String.toList_append, String.toList_append]
      rfl
    have hzero : destination (s.toList ++ h.toList) = 0 := by
      rw [destination_append, ← hfinish, hhome]
    rw [String.toList_append] at hm
    have hc := compile_of_ends_home hsplit hm (hu.append_of_visit_notMem hvisit) hzero name config
    rw [hlegs, hinstructions] at hc
    refine ⟨_, visits, hc, rfl, ?_, hv, rfl, Program.toList_ofList_perm _ _, ?_⟩
    · have hlength := congrArg List.length hv
      rwa [legs, List.length_map, List.length_map, length_stops] at hlength
    · apply pairwise_instructions_ofList
      rw [← hinstructions, map_legInstruction_legs]
      exact hu.nodup_radii hms

/-- A walk that is lost two steps up from its only visit, led home with a detour and a remark. -/
theorem lost_walk_led_home_detour :
    let s := "DDDW$é WW"
    let h := "A (home) SADSSAA"
    Route.compile ⟨"r", s⟩ {} = .error (.lost ⟨"r", s⟩ ⟨3, 3⟩) ∧ '$' ∉ h.toList ∧
    (⟨3, 3⟩ : Point).site + destination h.toList = 0 ∧
    ∃ (c : Compilation) (visits : List (Point × UInt64)),
      Route.compile ⟨"r", s ++ h ++ "$"⟩ {} = .ok c ∧ c.warnings = [] ∧ visits.length = 1 ∧
      (visits.map fun v => (v.1.site, v.2.toNat)) = [((3, 1), 4)] ∧
      c.program = .ofList (visits.map fun v => .ofVisit v.1 v.2) {} := by
  intro s h
  have hlost : Route.compile ⟨"r", s⟩ {} = .error (.lost ⟨"r", s⟩ ⟨3, 3⟩) := by decide
  have hvisit : '$' ∉ h.toList := by decide
  have hhome : (⟨3, 3⟩ : Point).site + destination h.toList = 0 := by decide
  obtain ⟨_, hled⟩ := lost_walk_led_home "r" s {}
  obtain ⟨c, visits, hc, hw, hlength, hlegs, hp, _⟩ :=
    hled _ _ h hlost hvisit hhome (by decide)
  exact ⟨hlost, hvisit, hhome, c, visits, hc, hw, hlength.trans (by decide),
    hlegs.trans (by decide), hp⟩

end GridWalk.Itinerary
