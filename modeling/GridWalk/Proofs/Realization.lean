import GridWalk.Proofs.Legs

/-!
# Which programs can be written

A sequence of visits can be walked when each of them can be reached from the one before in
the given number of moves. Every text that compiles makes such visits. In turn, a text can be
written for every such sequence: it goes straight to each site, spends the moves to spare on
going back and forth, and returns to the origin on a shortest way.
-/

namespace GridWalk.Itinerary

/-- A sequence of legs can be walked from the origin, without ending the walk. -/
structure Walkable (l : List (Site × ℕ)) : Prop where
  /-- No leg ends at the origin. -/
  away : ∀ v ∈ l, v.1 ≠ 0
  /-- No two legs end at the same distances. -/
  distinct : (l.map fun v => v.1.distances).Nodup
  /-- Each leg has the moves to start where the one before it ends. -/
  follows : List.IsChain Follows ((0, 0) :: l)

/-- The number of moves of the legs and of a shortest way home behind them. -/
def tripLength (l : List (Site × ℕ)) : ℕ :=
  (l.map Prod.snd).sum + (l.getLastD (0, 0)).1.distances.2

/-! ### Texts that compile -/

/-- A text is under way exactly if its legs can be walked. They always follow each other. -/
theorem underWay_iff_walkable {p : List Char} : UnderWay p ↔ Walkable (legs p) := by
  constructor
  · intro h
    refine ⟨?_, ?_, ?_⟩
    · intro v hv
      obtain ⟨q, hq, rfl⟩ := List.mem_map.1 hv
      exact h.away q hq
    · rw [legs, List.map_map]
      exact h.distinct
    · exact (isChain_legs p).left_of_append
  · intro h
    refine ⟨?_, ?_⟩
    · intro q hq
      exact h.away _ (List.mem_map_of_mem hq)
    · have hd := h.distinct
      rwa [legs, List.map_map] at hd

/-- A walk that has come home made at least the moves of its legs and of a shortest way home. -/
theorem tripLength_legs_le {home : List Char} (h0 : destination home = 0) :
    tripLength (legs home) ≤ moves home := by
  have hlast : Follows ((legs home).getLastD (0, 0)) (destination home, stride home) := by
    refine (List.isChain_append.1 (isChain_legs home)).2.2 _ ?_ _ rfl
    rw [List.getLast?_cons, List.getLastD_eq_getLast?]
    rfl
  have hdistance : (destination home - ((legs home).getLastD (0, 0)).1).distances.2 ≤
      stride home := hlast.1
  rw [h0, zero_sub, Site.distances_neg] at hdistance
  rw [tripLength, ← sum_legs home]
  exact Nat.add_le_add_left hdistance _

/-! ### A text for every sequence -/

/-- Moves along one axis, as many as the number says, forth for a positive number and back for a
negative one. -/
def straight (back forth : Char) (n : ℤ) : List Char :=
  List.replicate n.natAbs (if n < 0 then back else forth)

/-- Moves over a displacement, sideways first. Those that remain of `n` go back and forth. -/
def path (d : Site) (n : ℕ) : List Char :=
  let spare : ℤ := ((n - d.distances.2) / 2 : ℕ)
  straight 'A' 'D' d.1 ++ straight 'S' 'W' d.2 ++ straight 'A' 'D' (-spare) ++
    straight 'A' 'D' spare

/-- The text that makes the visits at the ends of legs, from a site on. -/
def outward (s : Site) : List (Site × ℕ) → List Char
  | [] => []
  | (t, n) :: rest => path (t - s) n ++ '$' :: outward t rest

/-- The text that walks the legs from the origin and returns to it. -/
def circuit (l : List (Site × ℕ)) : List Char :=
  let last := (l.getLastD (0, 0)).1
  outward 0 l ++ path (-last) last.distances.2

section
variable {back forth : Char}

theorem destination_straight (h : displacement back = -displacement forth) (n : ℤ) :
    destination (straight back forth n) = n • displacement forth := by
  rw [straight, destination, List.map_replicate, List.sum_replicate, ← natCast_zsmul]
  by_cases hn : n < 0
  · rw [if_pos hn, h, smul_neg, ← neg_smul, Int.ofNat_natAbs_of_nonpos hn.le, neg_neg]
  · rw [if_neg hn, Int.natAbs_of_nonneg (not_lt.1 hn)]

theorem moves_straight (hb : isMove back = true) (hf : isMove forth = true) (n : ℤ) :
    moves (straight back forth n) = n.natAbs := by
  rw [straight, moves, List.countP_replicate]
  split_ifs <;> simp_all

theorem visit_notMem_straight (hb : isMove back = true) (hf : isMove forth = true) (n : ℤ) :
    '$' ∉ straight back forth n := by
  intro hmem
  have hvisit : '$' = if n < 0 then back else forth := List.eq_of_mem_replicate hmem
  have hmove : isMove '$' = true := by
    rw [hvisit]
    split_ifs
    · exact hb
    · exact hf
  cases hmove

end

theorem destination_path (d : Site) (n : ℕ) : destination (path d n) = d := by
  have hx (n : ℤ) : destination (straight 'A' 'D' n) = n • ((1, 0) : Site) :=
    destination_straight rfl n
  have hy (n : ℤ) : destination (straight 'S' 'W' n) = n • ((0, 1) : Site) :=
    destination_straight rfl n
  simp only [path, destination_append, hx, hy, neg_smul, neg_add_cancel_right]
  ext <;> simp

theorem moves_path {d : Site} {n : ℕ} (h : d.distances.2 ≤ n)
    (hodd : n % 2 = d.distances.2 % 2) : moves (path d n) = n := by
  have hx (n : ℤ) : moves (straight 'A' 'D' n) = n.natAbs := moves_straight rfl rfl n
  have hy (n : ℤ) : moves (straight 'S' 'W' n) = n.natAbs := moves_straight rfl rfl n
  simp only [path, moves_append, hx, hy, Int.natAbs_neg, Int.natAbs_natCast]
  change d.distances.2 + _ + _ = n
  omega

theorem visit_notMem_path (d : Site) (n : ℕ) : '$' ∉ path d n := by
  have hx (n : ℤ) : '$' ∉ straight 'A' 'D' n := visit_notMem_straight rfl rfl n
  have hy (n : ℤ) : '$' ∉ straight 'S' 'W' n := visit_notMem_straight rfl rfl n
  simp [path, hx, hy]

/-- Text without visits goes on with the leg that the walk is on. -/
theorem append_of_visit_notMem {w : List Char} (h : '$' ∉ w) (p : List Char) :
    legs (p ++ w) = legs p ∧ stride (p ++ w) = stride p + moves w := by
  induction w using List.reverseRecOn with
  | nil => simp [moves]
  | append_singleton w c ih =>
    rw [List.mem_append, not_or, List.mem_singleton, eq_comm] at h
    obtain ⟨hlegs, hstride⟩ := ih h.1
    rw [← List.append_assoc, legs_append_of_ne _ h.2, stride_append_singleton _ h.2, moves_append,
      hlegs, hstride, add_assoc]
    exact ⟨rfl, rfl⟩

/-- One more leg behind a visit, as far as the next visit. -/
theorem append_leg {p : List Char} {t : Site} {n : ℕ} (h0 : stride p = 0)
    (h : (destination p).Spans n t) :
    let q := p ++ path (t - destination p) n ++ ['$']
    legs q = legs p ++ [(t, n)] ∧ stride q = 0 ∧ destination q = t := by
  obtain ⟨hlegs, hstride⟩ := append_of_visit_notMem (visit_notMem_path (t - destination p) n) p
  have hdest : destination (p ++ path (t - destination p) n) = t := by
    rw [destination_append, destination_path, add_sub_cancel]
  refine ⟨?_, stride_append_visit _, ?_⟩
  · rw [legs_append_visit, hlegs, hstride, hdest, h0, moves_path h.1 h.2, zero_add]
  · rw [destination_append_visit, hdest]

/-- Behind a visit, the text for legs that follow it makes exactly these legs. -/
theorem append_outward {p : List Char} {l : List (Site × ℕ)} (h0 : stride p = 0) {k : ℕ}
    (h : List.IsChain Follows ((destination p, k) :: l)) :
    let q := p ++ outward (destination p) l
    legs q = legs p ++ l ∧ stride q = 0 ∧ destination q = (l.getLastD (destination p, k)).1 := by
  induction l generalizing p k with
  | nil => simp [outward, h0]
  | cons v l ih =>
    obtain ⟨t, n⟩ := v
    obtain ⟨hv, hl⟩ := List.isChain_cons_cons.1 h
    obtain ⟨hlegs, hstride, hdest⟩ := append_leg h0 (show (destination p).Spans n t from hv)
    rw [← hdest] at hl
    obtain ⟨hlegs', hstride', hdest'⟩ := ih hstride hl
    have htext : p ++ outward (destination p) ((t, n) :: l) =
        p ++ path (t - destination p) n ++ ['$'] ++ outward t l := by
      simp [outward]
    rw [hdest] at hlegs' hstride' hdest'
    rw [htext, List.getLastD_cons, List.append_cons (legs p), ← hlegs]
    exact ⟨hlegs', hstride', hdest'⟩

/-- The text for legs that follow each other makes these legs and then comes home, and it has no
moves beyond those. -/
theorem circuit_comes_home {l : List (Site × ℕ)} (h : List.IsChain Follows ((0, 0) :: l)) :
    legs (circuit l) = l ∧ destination (circuit l) = 0 ∧ moves (circuit l) = tripLength l := by
  obtain ⟨hlegs, hstride, hdest⟩ : legs (outward 0 l) = l ∧ stride (outward 0 l) = 0 ∧
      destination (outward 0 l) = (l.getLastD (0, 0)).1 :=
    append_outward (p := []) rfl h
  have hback := visit_notMem_path (-(l.getLastD (0, 0)).1) (l.getLastD (0, 0)).1.distances.2
  obtain ⟨hlegs', hstride'⟩ := append_of_visit_notMem hback (outward 0 l)
  change legs (circuit l) = legs (outward 0 l) at hlegs'
  change stride (circuit l) = _ at hstride'
  rw [hlegs] at hlegs'
  rw [hstride, zero_add, moves_path (by rw [Site.distances_neg]) (by rw [Site.distances_neg])]
    at hstride'
  refine ⟨hlegs', ?_, ?_⟩
  · rw [circuit, destination_append, destination_path, hdest, add_neg_cancel]
  · rw [← sum_legs, hlegs', hstride', tripLength]

/-! ### Points and legs -/

/-- The leg that ends with a visit. -/
def legOf (v : Point × UInt64) : Site × ℕ := (v.1.site, v.2.toNat)

theorem legInstruction_legOf (v : Point × UInt64) :
    legInstruction (legOf v) = .ofVisit v.1 v.2 := by
  rw [legInstruction, legOf, Point.ofSite_site, UInt64.ofNat_toNat]

/-- The legs of a text within range are those of points. -/
theorem exists_map_legOf_eq_legs {p : List Char} (hm : InRange p) :
    ∃ visits : List (Point × UInt64), visits.map legOf = legs p := by
  refine ⟨(stops p).map fun q => ((visit q).point, (visit q).steps), ?_⟩
  rw [List.map_map]
  apply List.map_congr_left
  intro q hq
  exact visit_exact (hm.of_mem_stops hq)

/-- A text that ends with its visit to the origin compiles to the layout of its legs, without a
warning. -/
theorem compile_of_ends_home {text : String} {home : List Char} (ht : text.toList = home ++ ['$'])
    (hm : InRange home) (hu : UnderWay home) (h0 : destination home = 0)
    (name : String) (config : Config) :
    Route.compile ⟨name, text⟩ config =
      .ok ⟨.ofList ((legs home).map legInstruction) config, []⟩ := by
  have hends : Ends text.toList (.home ((stops home).map visit) none) := by
    rw [ht]
    exact .home hu h0 (List.forall_mem_nil _)
  have hmt : InRange text.toList := by
    rw [ht, InRange, moves_append]
    exact hm
  have hprogram : ((stops home).map visit).map Visit.instruction =
      (legs home).map legInstruction := by
    rw [map_legInstruction_legs, List.map_map]
    rfl
  rw [compile_eq_of_ends hends hmt]
  simp only [hprogram, Option.map_none, Option.toList_none]

/-- The text for legs that can be walked compiles to their program, without a warning. -/
theorem compile_circuit {l : List (Site × ℕ)} (h : Walkable l) (hl : tripLength l ≤ maxInt32)
    (name : String) (config : Config) :
    Route.compile ⟨name, String.ofList (circuit l ++ ['$'])⟩ config =
      .ok ⟨.ofList (l.map legInstruction) config, []⟩ := by
  obtain ⟨hlegs, h0, hmoves⟩ := circuit_comes_home h.follows
  have hu : UnderWay (circuit l) := underWay_iff_walkable.2 (by rwa [hlegs])
  rw [compile_of_ends_home String.toList_ofList (by rwa [InRange, hmoves]) hu h0, hlegs]

/-- The programs of texts are those of visits that can be walked. A text that compiles makes such
visits, with no more moves on the way and back than it has, and its program is their layout. In
turn, if the way and a shortest way back fit the range, there is a text for the visits that
compiles to their layout without a warning. -/
theorem compile_image (config : Config) :
    (∀ name text c, InRange text.toList →
      Route.compile ⟨name, text⟩ config = .ok c →
      ∃ visits : List (Point × UInt64), Walkable (visits.map legOf) ∧
        tripLength (visits.map legOf) ≤ moves text.toList ∧
        c.program = .ofList (visits.map fun v => .ofVisit v.1 v.2) config) ∧
    ∀ visits : List (Point × UInt64), Walkable (visits.map legOf) →
      tripLength (visits.map legOf) ≤ maxInt32 →
      ∃ text : String, moves text.toList = tripLength (visits.map legOf) ∧
        ∀ name, Route.compile ⟨name, text⟩ config =
          .ok ⟨.ofList (visits.map fun v => .ofVisit v.1 v.2) config, []⟩ := by
  have hlist (visits : List (Point × UInt64)) :
      (visits.map legOf).map legInstruction = visits.map fun v => .ofVisit v.1 v.2 := by
    rw [List.map_map]
    exact List.map_congr_left fun v _ => legInstruction_legOf v
  constructor
  · intro name text c hm hc
    obtain ⟨home, hu, h0, hle, htour, hp⟩ := exists_tour_of_compile hm hc
    obtain ⟨visits, hv⟩ := exists_map_legOf_eq_legs (hle.trans hm)
    rw [htour, ← hv, hlist] at hp
    refine ⟨visits, ?_, ?_, hp⟩
    · rw [hv]
      exact underWay_iff_walkable.1 hu
    · rw [hv]
      exact (tripLength_legs_le h0).trans hle
  · intro visits hw hl
    refine ⟨String.ofList (circuit (visits.map legOf) ++ ['$']), ?_, ?_⟩
    · rw [String.toList_ofList, moves_append, (circuit_comes_home hw.follows).2.2]
      rfl
    · intro name
      rw [compile_circuit hw hl, hlist]

/-- Three visits, two of them with moves to spare, and a text that makes one such visit. -/
theorem compile_image_spare :
    let visits : List (Point × UInt64) := [(⟨3, 1⟩, 6), (⟨-1, -4⟩, 9), (⟨0, 2⟩, 11)]
    (Walkable (visits.map legOf) ∧ tripLength (visits.map legOf) = 28 ∧
      ∃ text : String, moves text.toList = 28 ∧ ∀ name, Route.compile ⟨name, text⟩ {} =
        .ok ⟨.ofList (visits.map fun v => .ofVisit v.1 v.2) {}, []⟩) ∧
    ∃ c, Route.compile ⟨"r", "DDWAW$ ASS$"⟩ {} = .ok c ∧
      ∃ visits : List (Point × UInt64), Walkable (visits.map legOf) ∧
        tripLength (visits.map legOf) ≤ 8 ∧
        c.program = .ofList (visits.map fun v => .ofVisit v.1 v.2) {} := by
  intro visits
  have hw : Walkable (visits.map legOf) := ⟨by decide, by decide, by decide⟩
  have hl : tripLength (visits.map legOf) = 28 := by decide
  obtain ⟨text, hm, hc⟩ := (compile_image {}).2 visits hw (by rw [hl]; decide)
  have hs : "DDWAW$ ASS$".toList = "DDWAW$ ASS".toList ++ ['$'] := by decide
  have hu : UnderWay "DDWAW$ ASS".toList := ⟨by decide, by decide⟩
  obtain ⟨c, hc'⟩ : ∃ c, Route.compile ⟨"r", "DDWAW$ ASS$"⟩ {} = .ok c :=
    exists_compile_of_home (by decide) hs hu (by decide) (by decide) {}
  exact ⟨⟨hw, hl, text, hm.trans hl, hc⟩, c, hc', (compile_image {}).1 _ _ c (by decide) hc'⟩

end GridWalk.Itinerary
