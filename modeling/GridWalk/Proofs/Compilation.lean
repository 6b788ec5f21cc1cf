import GridWalk.Proofs.Scan

/-!
# What compiles, and to what

A text compiles exactly when its walk comes home: some visit is at the origin, the
visits before the first such visit are at different distances, and the next command
behind it is no second visit. The program then holds one instruction for each visit
before the walk came home, in the order of the distances.
-/

namespace GridWalk.Itinerary

/-- A walk comes home for the first time between `home` and `rest`. -/
structure FirstHome (text home rest : List Char) : Prop where
  /-- A visit stands between the two parts. -/
  split : text = home ++ '$' :: rest
  /-- It is at the origin. -/
  atOrigin : destination home = 0
  /-- No visit before it is. -/
  first : ∀ p ∈ stops home, destination p ≠ 0

/-- A walk comes home for the first time at most once. -/
theorem FirstHome.home_eq {text home rest home' rest' : List Char} (h : FirstHome text home rest)
    (h' : FirstHome text home' rest') : home = home' := by
  rcases stops_trichotomy (mem_stops.2 ⟨rest, h.split⟩) (mem_stops.2 ⟨rest', h'.split⟩) with
    he | hm | hm
  · exact he
  · exact absurd h.atOrigin (h'.first home hm)
  · exact absurd h'.atOrigin (h.first home' hm)

/-- The scan is all there is to compiling. -/
theorem compile_eq_of_ends {name text : String} {o : Outcome} (ho : Ends text.toList o)
    (hm : InRange text.toList) (config : Config) :
    Route.compile ⟨name, text⟩ config =
      match o with
      | .clash u v => .error (.clash ⟨name, text⟩ u v)
      | .lost finish => .error (.lost ⟨name, text⟩ finish)
      | .home visits trailing =>
        .ok ⟨.ofList (visits.map Visit.instruction) config,
          (trailing.map (Route.trailing ⟨name, text⟩)).toList⟩ := by
  simp only [Route.compile, waypoints?_eq, ho.walk_eq hm]
  cases o <;> rfl

/-- A walk that ends well ended at home, and no second visit follows. -/
theorem Ends.exists_home {text : List Char} {visits : List Visit} {trailing : Option ℕ}
    (h : Ends text (.home visits trailing)) :
    ∃ home rest, text = home ++ '$' :: rest ∧ UnderWay home ∧ destination home = 0 ∧
      rest.find? isCommand ≠ some '$' ∧ visits = (stops home).map visit := by
  cases h with
  | @home home rest hu h0 hc =>
    exact ⟨home, rest, rfl, hu, h0, by simp [hc.find?_eq_none], rfl⟩
  | @trailing home comment c rest hu h0 hc hmove =>
    have hne : c ≠ '$' := by
      rintro rfl
      simp [isMove] at hmove
    refine ⟨home, comment ++ c :: rest, rfl, hu, h0, ?_, rfl⟩
    simp [List.find?_append, hc.find?_eq_none, isCommand, hmove, hne]

/-! ### The program of a walk -/

/-- The instruction that a visit behind a text compiles to. -/
def instruction (p : List Char) : Instruction := (visit p).instruction

/-- A text that compiles comes home, and its visits on the way make up the program. -/
theorem exists_home_of_compile {name text : String} {config : Config} {c : Compilation}
    (hm : InRange text.toList) (h : Route.compile ⟨name, text⟩ config = .ok c) :
    ∃ home rest, text.toList = home ++ '$' :: rest ∧ UnderWay home ∧ destination home = 0 ∧
      rest.find? isCommand ≠ some '$' ∧
      c.program = .ofList ((stops home).map instruction) config := by
  obtain ⟨o, ho⟩ := exists_ends text.toList
  rw [compile_eq_of_ends ho hm] at h
  cases o with
  | clash u v => simp at h
  | lost finish => simp at h
  | home visits trailing =>
    obtain ⟨home, rest, ht, hu, h0, hr, rfl⟩ := ho.exists_home
    refine ⟨home, rest, ht, hu, h0, hr, ?_⟩
    simp only [Except.ok.injEq] at h
    rw [← h, List.map_map]
    rfl

/-- A text whose walk comes home to no second visit compiles. -/
theorem exists_compile_of_home {name text : String} {home rest : List Char}
    (hm : InRange text.toList) (ht : text.toList = home ++ '$' :: rest)
    (hu : UnderWay home) (h0 : destination home = 0) (hr : rest.find? isCommand ≠ some '$')
    (config : Config) : ∃ c, Route.compile ⟨name, text⟩ config = .ok c := by
  obtain ⟨o, ho, hhome⟩ := exists_ends_of_home hu h0 rest
  obtain ⟨trailing, rfl⟩ := hhome hr
  rw [← ht] at ho
  exact ⟨_, compile_eq_of_ends ho hm config⟩

/-- Under way, the instructions of the visits have different radii. -/
theorem UnderWay.nodup_radii {p : List Char} (h : UnderWay p) (hm : InRange p) :
    (((stops p).map instruction).map Instruction.radii).Nodup := by
  have hd := List.pairwise_map.1 h.distinct
  rw [List.map_map]
  apply List.pairwise_map.2
  refine hd.imp_of_mem ?_
  intro q q' hq hq' hne he
  exact hne ((radii_visit_eq_iff (hm.of_mem_stops hq') (hm.of_mem_stops hq)).1 he)

/-- Laying out instructions with different radii leaves no two of them level. -/
theorem pairwise_instructions_ofList {l : List Instruction} (config : Config)
    (h : (l.map Instruction.radii).Nodup) :
    (Program.ofList l config).instructions.toList.Pairwise fun a b =>
      a.radii ≤ b.radii ∧ a.radii ≠ b.radii := by
  have hp := (Program.toList_ofList_perm l config).map Instruction.radii
  have hne := List.pairwise_map.1 (hp.nodup_iff.2 h)
  exact (Program.ofList l config).ordered.and hne

/-- Within range, a visit holds the exact site and the exact number of moves. -/
theorem visit_exact {p : List Char} (h : InRange p) :
    ((visit p).point.site, (visit p).steps.toNat) = (destination p, stride p) := by
  have hs : stride p < 2 ^ 64 := ((stride_le_moves p).trans h).trans_lt (by decide)
  exact Prod.ext (site_visit h) (UInt64.toNat_ofNat_of_lt' hs)

/-- A text compiles if and only if its walk comes home, the visits before are at different
distances, and no second visit is the next command. The program then consists of one
instruction for each visit before, sorted by the distances. -/
theorem compile_ok_iff_comes_home (name text : String) (config : Config)
    (hm : InRange text.toList) :
    ((∃ c, Route.compile ⟨name, text⟩ config = .ok c) ↔
      ∃ home rest, FirstHome text.toList home rest ∧
        ((stops home).map fun p => (destination p).distances).Nodup ∧
        rest.find? isCommand ≠ some '$') ∧
    ∀ c home rest, Route.compile ⟨name, text⟩ config = .ok c →
      FirstHome text.toList home rest →
      ∃ visits : List (Point × UInt64),
        (visits.map fun v => (v.1.site, v.2.toNat)) =
          (stops home).map (fun p => (destination p, stride p)) ∧
        c.program = .ofList (visits.map fun v => .ofVisit v.1 v.2) config ∧
        c.program.instructions.toList.Perm (visits.map fun v => .ofVisit v.1 v.2) ∧
        c.program.instructions.toList.Pairwise fun a b =>
          a.radii ≤ b.radii ∧ a.radii ≠ b.radii := by
  constructor
  · constructor
    · rintro ⟨c, hc⟩
      obtain ⟨home, rest, ht, hu, h0, hr, _⟩ := exists_home_of_compile hm hc
      exact ⟨home, rest, ⟨ht, h0, hu.away⟩, hu.distinct, hr⟩
    · rintro ⟨home, rest, hf, hd, hr⟩
      exact exists_compile_of_home hm hf.split ⟨hf.first, hd⟩ hf.atOrigin hr config
  · intro c home rest hc hf
    obtain ⟨home', rest', ht, hu, h0, _, hp⟩ := exists_home_of_compile hm hc
    obtain rfl := hf.home_eq ⟨ht, h0, hu.away⟩
    have hhome : InRange home := hm.of_mem_stops (mem_stops.2 ⟨rest, hf.split⟩)
    have hl : ((stops home).map fun p => ((visit p).point, (visit p).steps)).map
        (fun v => Instruction.ofVisit v.1 v.2) = (stops home).map instruction := by
      rw [List.map_map]
      rfl
    refine ⟨(stops home).map fun p => ((visit p).point, (visit p).steps), ?_, ?_, ?_, ?_⟩
    · rw [List.map_map]
      apply List.map_congr_left
      intro p hq
      exact visit_exact (hhome.of_mem_stops hq)
    · rw [hl, hp]
    · rw [hl, hp]
      exact Program.toList_ofList_perm _ _
    · rw [hp]
      exact pairwise_instructions_ofList config (hu.nodup_radii hhome)

/-- One visit, commentary on the way home, and a move behind it. -/
theorem compile_ok_iff_comes_home_push :
    InRange "DDDDW$ ASAAA$D".toList ∧
    ∃ (c : Compilation) (visits : List (Point × UInt64)),
      Route.compile ⟨"push", "DDDDW$ ASAAA$D"⟩ {} = .ok c ∧
      (visits.map fun v => (v.1.site, v.2.toNat)) = [((4, 1), 5)] ∧
      c.program = .ofList (visits.map fun v => .ofVisit v.1 v.2) {} := by
  have hm : InRange "DDDDW$ ASAAA$D".toList := by decide
  have hf : FirstHome "DDDDW$ ASAAA$D".toList "DDDDW$ ASAAA".toList ['D'] :=
    ⟨by decide, by decide, by decide⟩
  obtain ⟨hiff, hprogram⟩ := compile_ok_iff_comes_home "push" "DDDDW$ ASAAA$D" {} hm
  obtain ⟨c, hc⟩ := hiff.2 ⟨_, _, hf, by decide, by decide⟩
  obtain ⟨visits, hv, hp, _⟩ := hprogram c _ _ hc hf
  exact ⟨hm, c, visits, hc, hv.trans (by decide), hp⟩

end GridWalk.Itinerary
