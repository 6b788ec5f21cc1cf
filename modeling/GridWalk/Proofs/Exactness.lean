import GridWalk.Proofs.Compilation

/-!
# Exact arithmetic of the scan

A text with fewer than `2 ^ 31` moves never takes the walker out of range, because a walk gets no
farther from the origin than it makes moves. So nothing that the scan computes wraps around or
saturates: the coordinates of the walker are those of the walk on the unbounded grid, distances
are taken by exact differences, sizes and sums, and operands are exact numbers of moves.
-/

namespace GridWalk

/-! ### The points of a scan -/

/-- The walker behind these commands, if none of them ends the walk. -/
def Walker.pass? (w : Walker) : List Waypoint → Option Walker
  | [] => some w
  | ⟨.move d, _⟩ :: rest => (w.go d).pass? rest
  | ⟨.visit, offset⟩ :: rest =>
    let v := w.visit offset
    match w.rival? v with
    | some _ => none
    | none => if v.point = .origin then none else (w.record v).pass? rest

/-- The walker behind a text that the scan has read, if the walk goes on. -/
def Route.walker? (r : Route) : Option Walker := r.waypoints?.bind ({} : Walker).pass?

/-- A scan goes on from the walker behind the commands it has read. -/
theorem Walker.follow_append {w w' : Walker} {commands : List Waypoint}
    (h : w.pass? commands = some w') (rest : List Waypoint) :
    w.follow (commands ++ rest) = w'.follow rest := by
  fun_induction Walker.pass? w commands with
  | case1 w => rw [Option.some.inj h, List.nil_append]
  | case2 w d offset commands ih => exact ih h
  | case3 w offset commands v u hu => cases h
  | case4 w offset commands v hv ho => cases h
  | case5 w offset commands v hv ho ih =>
    have hnone : w.rival? (w.visit offset) = none := hv
    have haway : (w.visit offset).point ≠ .origin := ho
    simp only [List.cons_append, follow, hnone, haway, ite_false]
    exact ih h

/-- Commands are read one part after the other. -/
theorem Walker.pass?_append (w : Walker) (commands rest : List Waypoint) :
    w.pass? (commands ++ rest) = (w.pass? commands).bind (·.pass? rest) := by
  fun_induction Walker.pass? w commands with
  | case1 w => rfl
  | case2 w d offset commands ih => exact ih
  | case3 w offset commands v u hu => simp [pass?, hu, v]
  | case4 w offset commands v hv ho => simp [pass?, hv, v, ho]
  | case5 w offset commands v hv ho ih =>
    have hnone : w.rival? (w.visit offset) = none := hv
    have haway : (w.visit offset).point ≠ .origin := ho
    simp only [List.cons_append, pass?, hnone, haway, ite_false]
    exact ih

/-! ### Operands -/

/-- A count below `2 ^ 31` is the operand as it is. -/
theorem Action.ofSector_exact {sector : Sector} {steps : UInt64} (h : steps.toNat ≤ maxInt32) :
    (∀ c, ofSector sector steps = .push c → c.val.toInt = steps.toNat) ∧
      (∀ depth, ofSector sector steps = .swap depth → depth.toNat = steps.toNat) ∧
      ∀ radius, ofSector sector steps = .jumpZero radius → radius.toNat = steps.toNat := by
  have hlt : steps.toNat < 2 ^ 31 := Nat.lt_succ_of_le h
  cases sector <;> simp only [ofSector, reduceCtorEq, false_implies, implies_true, and_self,
    true_and, and_true, push.injEq, swap.injEq, jumpZero.injEq, forall_eq']
  · rw [Cell.ofCount, min_eq_left h]
    exact Int32.toInt_ofNat_of_lt (by omega)
  · rw [min_eq_left (by omega)]
    exact UInt32.toNat_ofNat_of_lt' (by rw [UInt32.size]; omega)

namespace Itinerary

/-! ### The scan of a text within range -/

/-- Texts are read one part after the other. -/
theorem waypoints_append (position : ℕ) (text rest : List Char) :
    waypoints position (text ++ rest) =
      waypoints position text ++ waypoints (position + size text) rest := by
  induction text generalizing position with
  | nil => rfl
  | cons c text ih =>
    rw [List.cons_append, waypoints, waypoints, ih, List.append_assoc, size_cons, Nat.add_assoc]

/-- One character takes the walker of a text to the walker of the longer text, unless it ends the
walk. -/
theorem pass?_walker_singleton {p : List Char} (hp : InRange p) (hu : UnderWay p)
    {c : Char} {w : Walker} :
    (walker p).pass? (waypoints (size p) [c]) = some w ↔
      UnderWay (p ++ [c]) ∧ walker (p ++ [c]) = w := by
  rcases char_cases c with ⟨d, hk, hm, hv, hd⟩ | rfl | ⟨hk, hc, _⟩
  · rw [waypoints_move _ _ hk, waypoints, Walker.pass?, Walker.pass?, Option.some.injEq,
      underWay_append_singleton hv, walker_append_move hm hv hd]
    exact (and_iff_right hu).symm
  · rw [waypoints_visit, waypoints, Walker.pass?, hu.walker_visit, walker_append_visit,
      underWay_append_visit]
    cases hr : (walker p).rival? (visit p) with
    | some u =>
      refine ⟨fun h => by simp at h, ?_⟩
      rintro ⟨⟨_, _, hnew⟩, _⟩
      rw [rival?_walker_eq_none hp hnew] at hr
      cases hr
    | none =>
      have hnew : ∀ q ∈ stops p, (destination q).distances ≠ (destination p).distances := by
        intro q hq he
        rw [rival?_walker_eq_some hp hu hq he] at hr
        cases hr
      dsimp only
      by_cases h0 : destination p = 0
      · rw [if_pos ((point_visit_eq_origin_iff hp).2 h0)]
        exact ⟨fun h => by simp at h, fun h => absurd h0 h.1.2.1⟩
      · rw [if_neg (mt (point_visit_eq_origin_iff hp).1 h0), Walker.pass?, Option.some.injEq]
        exact (and_iff_right ⟨hu, h0, hnew⟩).symm
  · have hv := (comment_char hc).2.2.1
    rw [waypoints_comment _ _ hk, waypoints, Walker.pass?, Option.some.injEq,
      underWay_append_singleton hv, walker_append_comment hc]
    exact (and_iff_right hu).symm

/-- The scan comes through a text exactly if no visit of the text ends the walk, and the walker
behind it is then the walker of the text. -/
theorem pass?_waypoints {p : List Char} (hp : InRange p) {w : Walker} :
    ({} : Walker).pass? (waypoints 0 p) = some w ↔ UnderWay p ∧ walker p = w := by
  induction p using List.reverseRecOn generalizing w with
  | nil =>
    rw [waypoints, Walker.pass?, Option.some.injEq]
    exact (and_iff_right underWay_nil).symm
  | append_singleton p c ih =>
    have hm : InRange p := hp.of_append
    rw [waypoints_append, Nat.zero_add, Walker.pass?_append, Option.bind_eq_some_iff]
    constructor
    · rintro ⟨w₀, hw₀, hw⟩
      obtain ⟨hu, rfl⟩ := (ih hm).1 hw₀
      exact (pass?_walker_singleton hm hu).1 hw
    · rintro ⟨hu, hw⟩
      have hu₀ := hu.of_append_singleton
      exact ⟨walker p, (ih hm).2 ⟨hu₀, rfl⟩, (pass?_walker_singleton hm hu₀).2 ⟨hu, hw⟩⟩

/-- An instruction holds what the visit behind a text is, with nothing lost. -/
structure RecordsExactly (p : List Char) (a : Instruction) : Prop where
  /-- The point is where the walk stands. -/
  point : a.point.site = destination p
  /-- Its distances were taken exactly. -/
  measured : Point.origin.MeasuresExactly a.point
  /-- The Chebyshev radius is the larger size of a coordinate. -/
  chebyshev : a.radii.chebyshev.toNat = max (destination p).1.natAbs (destination p).2.natAbs
  /-- The Manhattan radius is the sum of the sizes. -/
  manhattan : a.radii.manhattan.toNat = (destination p).1.natAbs + (destination p).2.natAbs
  /-- The cell to push is the number of moves since the visit before. -/
  push : ∀ c, a.action = .push c → c.val.toInt = stride p
  /-- The depth of a swap is that number. -/
  swap : ∀ depth, a.action = .swap depth → depth.toNat = stride p
  /-- The radius of a jump is that number. -/
  jump : ∀ radius, a.action = .jumpZero radius → radius.toNat = stride p

/-- Within range, visits are recorded exactly. -/
theorem recordsExactly_instruction {p : List Char} (h : InRange p) :
    RecordsExactly p (instruction p) := by
  obtain ⟨hsite, hsteps⟩ := Prod.mk.injEq .. ▸ visit_exact h
  have hrange := inRange_visit h
  have hle : (visit p).steps.toNat ≤ maxInt32 := by
    rw [hsteps]
    exact (stride_le_moves p).trans h
  obtain ⟨hpush, hswap, hjump⟩ := @Action.ofSector_exact (visit p).point.sector _ hle
  rw [hsteps] at hpush hswap hjump
  refine ⟨hsite, Point.measuresExactly_origin hrange, ?_, ?_, hpush, hswap, hjump⟩
  · rw [← hsite]
    exact Point.toNat_chebyshev_radii hrange
  · rw [← hsite]
    exact Point.toNat_manhattan_radii hrange

/-- Within range, the walker of a text stands where the walk does, has counted the moves since the
last visit, and has recorded the visits exactly. -/
theorem walker_exact {p : List Char} (h : InRange p) :
    (walker p).position.site = destination p ∧ (walker p).steps.toNat = stride p ∧
      List.Forall₂ (fun q v => RecordsExactly q v.instruction) (stops p)
        (walker p).visits.reverse := by
  obtain ⟨hsite, hsteps⟩ := Prod.mk.injEq .. ▸ visit_exact h
  refine ⟨hsite, hsteps, ?_⟩
  rw [reverse_visits_walker, List.forall₂_map_right_iff, List.forall₂_same]
  intro q hq
  exact recordsExactly_instruction (h.of_mem_stops hq)

/-- On a text with fewer than `2 ^ 31` moves the compiler's arithmetic is exact. The scan has a
walker behind every part of the text whose visits do not end the walk, and goes on from it. There it
stands at the site of the walk, no farther from the origin than it made moves, has counted the moves
since the last visit, takes the distances of its position exactly, and has recorded exact radii and
operands. So has every instruction of the program. -/
theorem scan_arithmetic_exact (name text : String) (hm : InRange text.toList) :
    (∀ part rest : String, text = part ++ rest →
      ((∃ w, Route.walker? ⟨name, part⟩ = some w) ↔ UnderWay part.toList) ∧
      ∀ w, Route.walker? ⟨name, part⟩ = some w →
        (∃ commands later, Route.waypoints? ⟨name, part⟩ = some commands ∧
          Route.waypoints? ⟨name, text⟩ = some (commands ++ later) ∧
          walk (commands ++ later) = w.follow later) ∧
        w.position.site = destination part.toList ∧
        w.position.x.toInt.natAbs + w.position.y.toInt.natAbs ≤ moves part.toList ∧
        w.steps.toNat = stride part.toList ∧
        Point.origin.MeasuresExactly w.position ∧
        List.Forall₂ (fun p v => RecordsExactly p v.instruction) (stops part.toList)
          w.visits.reverse) ∧
    ∀ config c, Route.compile ⟨name, text⟩ config = .ok c →
      ∀ a ∈ c.program.instructions.toList, ∃ p ∈ stops text.toList, RecordsExactly p a := by
  constructor
  · rintro part rest rfl
    have hpart : InRange part.toList := hm.of_toList_append
    have hwalker (w : Walker) : Route.walker? ⟨name, part⟩ = some w ↔
        UnderWay part.toList ∧ walker part.toList = w := by
      rw [Route.walker?, waypoints?_eq, Option.bind_some, pass?_waypoints hpart]
    refine ⟨by simp [hwalker], ?_⟩
    intro w hw
    obtain ⟨hu, rfl⟩ := (hwalker w).1 hw
    obtain ⟨hsite, hsteps, hvisits⟩ := walker_exact hpart
    have hbound := natAbs_destination_le part.toList
    rw [← hsite] at hbound
    have hrange : (walker part.toList).position.site.InRange := hbound.trans hpart
    refine ⟨?_, hsite, hbound, hsteps, Point.measuresExactly_origin hrange, hvisits⟩
    refine ⟨_, waypoints (0 + size part.toList) rest.toList, waypoints?_eq _, ?_,
      Walker.follow_append ((pass?_waypoints hpart).2 ⟨hu, rfl⟩) _⟩
    rw [waypoints?_eq, String.toList_append, waypoints_append]
  · intro config c hc a ha
    obtain ⟨home, rest, ht, _, _, _, hp⟩ := exists_home_of_compile hm hc
    have hhome : home ∈ stops text.toList := mem_stops.2 ⟨rest, ht⟩
    rw [hp, (Program.toList_ofList_perm _ _).mem_iff] at ha
    obtain ⟨p, hstop, rfl⟩ := List.mem_map.1 ha
    have hmem := stops_trans hstop hhome
    exact ⟨p, hmem, recordsExactly_instruction (hm.of_mem_stops hmem)⟩

/-- Behind a visit and two moves back, and in the program of the whole text. -/
theorem scan_arithmetic_exact_half_way :
    InRange "DDDW$ AAAS$".toList ∧
    (∃ w, Route.walker? ⟨"r", "DDDW$ AA"⟩ = some w ∧ w.position.site = (1, 1) ∧
      w.steps.toNat = 2 ∧
      List.Forall₂ (fun p v => RecordsExactly p v.instruction) ["DDDW".toList] w.visits.reverse) ∧
    ∃ c, Route.compile ⟨"r", "DDDW$ AAAS$"⟩ {} = .ok c ∧
      ∀ a ∈ c.program.instructions.toList, ∃ p ∈ ["DDDW".toList, "DDDW$ AAAS".toList],
        RecordsExactly p a := by
  have hm : InRange "DDDW$ AAAS$".toList := by decide
  have hu : UnderWay "DDDW$ AAAS".toList := ⟨by decide, by decide⟩
  have hs : "DDDW$ AAAS$".toList = "DDDW$ AAAS".toList ++ ['$'] := by decide
  obtain ⟨c, hc⟩ : ∃ c, Route.compile ⟨"r", "DDDW$ AAAS$"⟩ {} = .ok c :=
    exists_compile_of_home hm hs hu (by decide) (by decide) {}
  have hw : Route.walker? ⟨"r", "DDDW$ AA"⟩ = some ⟨⟨1, 1⟩, 2, [⟨1, ⟨3, 1⟩, 4, 4⟩]⟩ := by decide
  have ht : "DDDW$ AAAS$" = "DDDW$ AA" ++ "AS$" := by decide
  obtain ⟨hscan, hprogram⟩ := scan_arithmetic_exact "r" "DDDW$ AAAS$" hm
  obtain ⟨_, hsite, _, hsteps, _, hvisits⟩ := (hscan _ _ ht).2 _ hw
  exact ⟨hm, ⟨_, hw, hsite, hsteps, hvisits⟩, c, hc, hprogram {} c hc⟩

end Itinerary

end GridWalk
