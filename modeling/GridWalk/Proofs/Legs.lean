import GridWalk.Proofs.Compilation
import GridWalk.Proofs.Layout
import Mathlib.Data.List.Chain

/-!
# The legs of a walk

A leg leads from one visit to the next. It is given by the site where it ends and the
number of its moves. No leg has fewer moves than the distance it covers, and the moves to
spare pair off. The legs before a walk comes home are its `tour`. They determine the program
that the text compiles to, and their order does not matter to it.
-/

namespace GridWalk

/-- So many moves can lead from `s` to `t`: they suffice, and those to spare pair off. -/
def Site.Spans (n : ℕ) (s t : Site) : Prop :=
  (t - s).distances.2 ≤ n ∧ n % 2 = (t - s).distances.2 % 2

instance (n : ℕ) (s t : Site) : Decidable (s.Spans n t) :=
  inferInstanceAs (Decidable (_ ∧ _))

theorem Site.spans_self (s : Site) : s.Spans 0 s := by
  simp [Spans, distances]

namespace Itinerary

/-- The visits of a text, each with the number of moves that lead to it from the one before. -/
def legs (text : List Char) : List (Site × ℕ) :=
  (stops text).map fun p => (destination p, stride p)

/-- The legs of a text before its walk first comes home. -/
def tour (text : List Char) : List (Site × ℕ) := (legs text).takeWhile fun v => v.1 ≠ 0

/-- A leg can start where another ends. -/
def Follows (u v : Site × ℕ) : Prop := u.1.Spans v.2 v.1

instance (u v : Site × ℕ) : Decidable (Follows u v) :=
  inferInstanceAs (Decidable (Site.Spans ..))

/-! ### Texts that grow at the end -/

theorem legs_append_visit (p : List Char) :
    legs (p ++ ['$']) = legs p ++ [(destination p, stride p)] := by
  rw [legs, stops_append_visit, List.map_append, List.map_singleton]
  rfl

theorem legs_append_of_ne (p : List Char) {c : Char} (h : c ≠ '$') : legs (p ++ [c]) = legs p := by
  rw [legs, stops_append_of_ne p h]
  rfl

/-- A text keeps its legs when it goes on. -/
theorem legs_isPrefix_append (text rest : List Char) : legs text <+: legs (text ++ rest) :=
  (stops_isPrefix_append text rest).map _

/-- Where a walk has come home for the first time, its legs so far are the tour. -/
theorem FirstHome.tour_eq {text home rest : List Char} (h : FirstHome text home rest) :
    tour text = legs home := by
  have haway : ∀ v ∈ legs home, decide (v.1 ≠ 0) = true := by
    intro v hv
    obtain ⟨p, hp, rfl⟩ := List.mem_map.1 hv
    exact decide_eq_true (h.first p hp)
  obtain ⟨later, hlater⟩ := legs_isPrefix_append (home ++ ['$']) rest
  rw [legs_append_visit, List.append_assoc, ← List.append_cons, ← h.split] at hlater
  rw [tour, ← hlater, List.takeWhile_append_of_pos haway, List.singleton_append,
    List.takeWhile_cons_of_neg (by simp [h.atOrigin]), List.append_nil]

/-! ### Distance and parity -/

/-- A sum of integers is no larger than their sizes together, and differs from that by an even
number. -/
theorem natAbs_add_parity (a b : ℤ) : (a + b).natAbs ≤ a.natAbs + b.natAbs ∧
    (a + b).natAbs % 2 = (a.natAbs + b.natAbs) % 2 := by
  omega

/-- A leg that goes on for one more character still has the moves for its distance. -/
theorem spans_append {n : ℕ} {s t : Site} (h : s.Spans n t) (c : Char) :
    s.Spans (n + moves [c]) (t + displacement c) := by
  have hc := natAbs_displacement c
  obtain ⟨hxle, hxodd⟩ := natAbs_add_parity (t - s).1 (displacement c).1
  obtain ⟨hyle, hyodd⟩ := natAbs_add_parity (t - s).2 (displacement c).2
  simp only [Site.Spans, Site.distances, add_sub_right_comm t, Prod.fst_add,
    Prod.snd_add] at h ⊢
  generalize ((t - s).1 + (displacement c).1).natAbs = x at *
  generalize ((t - s).2 + (displacement c).2).natAbs = y at *
  omega

/-- The legs of a walk follow each other, and so does the one it is on. -/
theorem isChain_legs (p : List Char) :
    List.IsChain Follows ((0, 0) :: legs p ++ [(destination p, stride p)]) := by
  induction p using List.reverseRecOn with
  | nil => decide
  | append_singleton p c ih =>
    by_cases hc : c = '$'
    · subst hc
      rw [legs_append_visit, destination_append_visit, stride_append_visit, ← List.cons_append,
        List.append_assoc]
      exact List.isChain_append_cons_cons.2 ⟨ih, Site.spans_self (destination p), .singleton _⟩
    · rw [legs_append_of_ne p hc, destination_append, destination_singleton,
        stride_append_singleton p hc]
      obtain ⟨hlegs, _, hlast⟩ := List.isChain_append.1 ih
      refine List.isChain_append.2 ⟨hlegs, .singleton _, ?_⟩
      intro u hu v hv
      obtain rfl := Option.some.inj hv
      exact spans_append (hlast u hu _ rfl) c

/-- The moves of a text are those of its legs and those since its last visit. -/
theorem sum_legs (p : List Char) : ((legs p).map Prod.snd).sum + stride p = moves p := by
  induction p using List.reverseRecOn with
  | nil => rfl
  | append_singleton p c ih =>
    rw [moves_append, ← ih]
    by_cases hc : c = '$'
    · subst hc
      rw [legs_append_visit, stride_append_visit, List.map_append, List.sum_append]
      rfl
    · rw [legs_append_of_ne p hc, stride_append_singleton p hc, add_assoc]

/-! ### From legs to programs -/

/-- The instruction of the visit at the end of a leg. -/
def legInstruction (v : Site × ℕ) : Instruction := .ofVisit (.ofSite v.1) (.ofNat v.2)

theorem map_legInstruction_legs (p : List Char) :
    (legs p).map legInstruction = (stops p).map instruction :=
  List.map_map

/-- A text that compiles has a tour, on which it is under way, and compiles to the layout of the
tour. -/
theorem exists_tour_of_compile {name text : String} {config : Config} {c : Compilation}
    (hm : InRange text.toList) (h : Route.compile ⟨name, text⟩ config = .ok c) :
    ∃ home, UnderWay home ∧ destination home = 0 ∧ moves home ≤ moves text.toList ∧
      tour text.toList = legs home ∧
      c.program = .ofList ((tour text.toList).map legInstruction) config := by
  obtain ⟨home, rest, ht, hu, h0, _, hp⟩ := exists_home_of_compile hm h
  have hf : FirstHome text.toList home rest := ⟨ht, h0, hu.away⟩
  refine ⟨home, hu, h0, moves_le_of_mem_stops (mem_stops.2 ⟨rest, ht⟩), hf.tour_eq, ?_⟩
  rw [hp, hf.tour_eq, map_legInstruction_legs]

/-- The instructions of a text that compiles have different radii. -/
theorem nodup_radii_of_compile {name text : String} {config : Config} {c : Compilation}
    (hm : InRange text.toList) (h : Route.compile ⟨name, text⟩ config = .ok c) :
    (((tour text.toList).map legInstruction).map Instruction.radii).Nodup := by
  obtain ⟨home, hu, _, hle, htour, _⟩ := exists_tour_of_compile hm h
  rw [htour, map_legInstruction_legs]
  exact hu.nodup_radii (hle.trans hm)

/-- A text that compiles compiles to the instructions of its tour in strictly increasing order of
their distances. Texts whose tours have the same legs, in whatever order, compile to the same
program. -/
theorem compile_order_irrelevant (config : Config) :
    (∀ name text c, InRange text.toList →
      Route.compile ⟨name, text⟩ config = .ok c →
      c.program.instructions.toList.Perm ((tour text.toList).map legInstruction) ∧
      c.program.instructions.toList.Pairwise fun a b =>
        a.radii.chebyshev < b.radii.chebyshev ∨
          a.radii.chebyshev = b.radii.chebyshev ∧ a.radii.manhattan < b.radii.manhattan) ∧
    ∀ name text c name' text' c', InRange text.toList →
      InRange text'.toList → Route.compile ⟨name, text⟩ config = .ok c →
      Route.compile ⟨name', text'⟩ config = .ok c' →
      (tour text.toList).Perm (tour text'.toList) → c.program = c'.program := by
  constructor
  · intro name text c hm hc
    obtain ⟨_, _, _, _, _, hp⟩ := exists_tour_of_compile hm hc
    rw [hp]
    refine ⟨Program.toList_ofList_perm _ _, ?_⟩
    refine (pairwise_instructions_ofList config (nodup_radii_of_compile hm hc)).imp ?_
    rintro a b ⟨hle, hne⟩
    exact Radii.lt_of_le_of_ne hle hne
  · intro name text c name' text' c' hm hm' hc hc' hperm
    obtain ⟨_, _, _, _, _, hp⟩ := exists_tour_of_compile hm hc
    obtain ⟨_, _, _, _, _, hp'⟩ := exists_tour_of_compile hm' hc'
    rw [hp, hp']
    exact Program.ofList_eq_of_perm config (hperm.map _) (nodup_radii_of_compile hm hc)

/-- Two visits in either order, one of them after a move back and forth. -/
theorem compile_order_irrelevant_swapped :
    ∃ c c', Route.compile ⟨"r", "DDDWAD$AAWWWW$ASSSSS$"⟩ {} = .ok c ∧
      Route.compile ⟨"r", "DWWWWW$ then DDSSSS$ AAAS$D"⟩ {} = .ok c' ∧
      tour "DDDWAD$AAWWWW$ASSSSS$".toList = [((3, 1), 6), ((1, 5), 6)] ∧
      tour "DWWWWW$ then DDSSSS$ AAAS$D".toList = [((1, 5), 6), ((3, 1), 6)] ∧
      c.program = c'.program := by
  have hm : InRange "DDDWAD$AAWWWW$ASSSSS$".toList := by decide
  have hm' : InRange "DWWWWW$ then DDSSSS$ AAAS$D".toList := by decide
  have hu : UnderWay "DDDWAD$AAWWWW$ASSSSS".toList := ⟨by decide, by decide⟩
  have hu' : UnderWay "DWWWWW$ then DDSSSS$ AAAS".toList := ⟨by decide, by decide⟩
  have ht : tour "DDDWAD$AAWWWW$ASSSSS$".toList = [((3, 1), 6), ((1, 5), 6)] := by decide
  have ht' : tour "DWWWWW$ then DDSSSS$ AAAS$D".toList = [((1, 5), 6), ((3, 1), 6)] := by decide
  have hs : "DDDWAD$AAWWWW$ASSSSS$".toList = "DDDWAD$AAWWWW$ASSSSS".toList ++ ['$'] := by decide
  have hs' : "DWWWWW$ then DDSSSS$ AAAS$D".toList =
      "DWWWWW$ then DDSSSS$ AAAS".toList ++ ['$', 'D'] := by decide
  obtain ⟨c, hc⟩ : ∃ c, Route.compile ⟨"r", "DDDWAD$AAWWWW$ASSSSS$"⟩ {} = .ok c :=
    exists_compile_of_home hm hs hu (by decide) (by decide) {}
  obtain ⟨c', hc'⟩ : ∃ c, Route.compile ⟨"r", "DWWWWW$ then DDSSSS$ AAAS$D"⟩ {} = .ok c :=
    exists_compile_of_home hm' hs' hu' (by decide) (by decide) {}
  have hperm : (tour "DDDWAD$AAWWWW$ASSSSS$".toList).Perm
      (tour "DWWWWW$ then DDSSSS$ AAAS$D".toList) := by
    rw [ht, ht']
    exact .swap _ _ _
  exact ⟨c, c', hc, hc', ht, ht',
    (compile_order_irrelevant {}).2 _ _ _ _ _ _ hm hm' hc hc' hperm⟩

end Itinerary

end GridWalk
