import GridWalk.Proofs.Compilation
import GridWalk.Proofs.Octants

/-!
# How many instructions a radius holds

No two instructions of a program share both distances. At one Chebyshev radius the Manhattan
distances are therefore different, and they lie between the radius and its double. At these two
bounds the point is on a line, where a visit compiles to nothing. Counting the distances that are
left bounds the instructions at a radius, and the sum over the radii bounds those within it, which
are the ones that a jump beyond the radius passes.
-/

namespace GridWalk

namespace Instruction

/-- An instruction that a visit away from the origin compiles to, at a point in range. -/
structure Placed (a : Instruction) : Prop where
  /-- It is the instruction of a visit to its point. -/
  visit : ∃ steps, a = .ofVisit a.point steps
  /-- The point is in range. -/
  inRange : a.point.site.InRange
  /-- The point is not the origin. -/
  away : a.point ≠ .origin

variable {a : Instruction}

theorem Placed.radii_eq (h : a.Placed) : a.radii = a.point.radii := by
  obtain ⟨steps, hv⟩ := h.visit
  rw [hv]
  rfl

/-- A visit compiles to nothing exactly at the bounds of the Manhattan distance. -/
theorem Placed.nop_iff (h : a.Placed) :
    a.action = .nop ↔ a.radii.manhattan.toNat = a.radii.chebyshev.toNat ∨
      a.radii.manhattan.toNat = 2 * a.radii.chebyshev.toNat := by
  obtain ⟨steps, hv⟩ := h.visit
  have haction : a.action = .ofSector a.point.sector steps := congrArg action hv
  rw [haction, Action.ofSector_eq_nop_iff, h.radii_eq, Point.sector_eq_line_iff_manhattan h.inRange]

/-- The Manhattan radius lies between the Chebyshev radius and its double, and that is not zero. -/
theorem Placed.bounds (h : a.Placed) :
    0 < a.radii.chebyshev.toNat ∧ a.radii.chebyshev.toNat ≤ a.radii.manhattan.toNat ∧
      a.radii.manhattan.toNat ≤ 2 * a.radii.chebyshev.toNat := by
  have hbounds := Point.manhattan_bounds h.inRange
  rw [← h.radii_eq] at hbounds
  refine ⟨Nat.pos_of_ne_zero fun hzero => h.away ?_, hbounds⟩
  rw [Point.eq_origin_iff, ← Site.distances_eq_zero_iff]
  have hc := Point.toNat_chebyshev_radii h.inRange
  have hm := Point.toNat_manhattan_radii h.inRange
  rw [← h.radii_eq] at hc hm
  exact Prod.ext (by omega) (by omega)

end Instruction

/-! ### Counting -/

/-- Those up to `n + 1` are those up to `n` and those at `n + 1`. -/
theorem countP_le_succ {α : Type*} (f : α → ℕ) (n : ℕ) (l : List α) :
    l.countP (fun a => f a ≤ n + 1) =
      l.countP (fun a => f a ≤ n) + l.countP (fun a => f a = n + 1) := by
  induction l with
  | nil => rfl
  | cons a l ih =>
    simp only [List.countP_cons, ih, decide_eq_true_eq]
    split_ifs <;> omega

section
variable {l : List Instruction}

/-- Instructions at one Chebyshev radius are no more than the Manhattan distances open to them. -/
theorem countP_le_of_manhattan (hn : (l.map Instruction.radii).Nodup) {q : Instruction → Bool}
    {radius lo n : ℕ}
    (h : ∀ a ∈ l, q a = true → a.radii.chebyshev.toNat = radius ∧
      lo ≤ a.radii.manhattan.toNat ∧ a.radii.manhattan.toNat < lo + n) :
    l.countP q ≤ n := by
  have hspec (a) (ha : a ∈ l.filter q) := h a (List.mem_filter.1 ha).1 (List.mem_filter.1 ha).2
  have hnodup : ((l.filter q).map fun a => a.radii.manhattan.toNat).Nodup := by
    have hradii := (List.pairwise_map.1 hn).filter q
    refine List.pairwise_map.2 (hradii.imp_of_mem ?_)
    intro a b ha hb hne he
    have hc := (hspec a ha).1.trans (hspec b hb).1.symm
    exact hne (Radii.ext (UInt32.toNat_inj.1 hc) (UInt32.toNat_inj.1 he))
  have hsubset : ((l.filter q).map fun a => a.radii.manhattan.toNat) ⊆ List.range' lo n := by
    intro m hm
    obtain ⟨a, ha, rfl⟩ := List.mem_map.1 hm
    exact List.mem_range'_1.2 (hspec a ha).2
  have hlength := (List.subperm_of_subset hnodup hsubset).length_le
  rwa [List.length_map, List.length_range', ← List.countP_eq_length_filter] at hlength

variable (hn : (l.map Instruction.radii).Nodup) (hl : ∀ a ∈ l, a.Placed)
include hn hl

/-- At a radius there is room for one instruction more than its number says. -/
theorem countP_at_le (radius : ℕ) :
    l.countP (fun a => a.radii.chebyshev.toNat = radius) ≤ radius + 1 := by
  refine @countP_le_of_manhattan _ hn _ radius radius _ ?_
  intro a ha hq
  have hc := of_decide_eq_true hq
  have hbounds := (hl a ha).bounds
  exact ⟨hc, by omega, by omega⟩

/-- Two of the places at a radius are for instructions that do nothing. -/
theorem countP_busy_le (radius : ℕ) :
    l.countP (fun a => a.radii.chebyshev.toNat = radius ∧ a.action ≠ .nop) ≤ radius - 1 := by
  refine @countP_le_of_manhattan _ hn _ radius (radius + 1) _ ?_
  intro a ha hq
  obtain ⟨hc, hnop⟩ := of_decide_eq_true hq
  have hbounds := (hl a ha).bounds
  rw [ne_eq, (hl a ha).nop_iff] at hnop
  exact ⟨hc, by omega, by omega⟩

/-- The rooms within a radius add up. -/
theorem countP_within_le (radius : ℕ) :
    l.countP (fun a => a.radii.chebyshev.toNat ≤ radius) ≤ radius * (radius + 3) / 2 := by
  induction radius with
  | zero =>
    refine (List.countP_eq_zero.2 ?_).le
    intro a ha hq
    have hpos := (hl a ha).bounds.1
    exact absurd (of_decide_eq_true hq) (by omega)
  | succ radius ih =>
    have hat := countP_at_le hn hl (radius + 1)
    have hsum : (radius + 1) * (radius + 1 + 3) = radius * (radius + 3) + 2 * (radius + 2) := by
      ring
    rw [countP_le_succ, hsum, Nat.add_mul_div_left _ _ two_pos]
    omega

end

namespace Itinerary

/-- The instructions of a text that compiles are placed by its visits, no two at the same
distances. -/
theorem placed_of_compile {name text : String} {config : Config} {c : Compilation}
    (hm : InRange text.toList) (h : Route.compile ⟨name, text⟩ config = .ok c) :
    (c.program.instructions.toList.map Instruction.radii).Nodup ∧
      ∀ a ∈ c.program.instructions.toList, a.Placed := by
  obtain ⟨home, rest, ht, hu, _, _, hp⟩ := exists_home_of_compile hm h
  have hhome : InRange home := hm.of_mem_stops (mem_stops.2 ⟨rest, ht⟩)
  have hperm := Program.toList_ofList_perm ((stops home).map instruction) config
  rw [hp]
  refine ⟨(hperm.map _).nodup_iff.2 (hu.nodup_radii hhome), ?_⟩
  intro a ha
  obtain ⟨p, hstop, rfl⟩ := List.mem_map.1 (hperm.mem_iff.1 ha)
  have hpart := hhome.of_mem_stops hstop
  refine ⟨⟨(visit p).steps, rfl⟩, inRange_visit hpart, ?_⟩
  exact mt (point_visit_eq_origin_iff hpart).1 (hu.away p hstop)

/-- A program has at most `r + 1` instructions at Chebyshev radius `r`, of which at most `r - 1` do
something. So it has at most `r * (r + 3) / 2` instructions within the radius, and a jump beyond the
radius passes no more. -/
theorem radius_capacity {name text : String} {config : Config} {c : Compilation}
    (hm : InRange text.toList) (hc : Route.compile ⟨name, text⟩ config = .ok c) :
    (∀ radius : ℕ,
      c.program.instructions.toList.countP (fun a => a.radii.chebyshev.toNat = radius) ≤
        radius + 1 ∧
      c.program.instructions.toList.countP
        (fun a => a.radii.chebyshev.toNat = radius ∧ a.action ≠ .nop) ≤ radius - 1 ∧
      c.program.instructions.toList.countP (fun a => a.radii.chebyshev.toNat ≤ radius) ≤
        radius * (radius + 3) / 2) ∧
    ∀ radius : UInt32,
      c.program.jumpTarget (radius + 1) ≤ radius.toNat * (radius.toNat + 3) / 2 := by
  obtain ⟨hn, hl⟩ := placed_of_compile hm hc
  constructor
  · intro radius
    exact ⟨countP_at_le hn hl radius, countP_busy_le hn hl radius, countP_within_le hn hl radius⟩
  · intro radius
    refine le_trans ?_ (countP_within_le hn hl radius.toNat)
    rw [Program.jumpTarget_eq_countP]
    apply List.countP_mono_left
    intro a _ ha
    rw [decide_eq_true_eq, UInt32.lt_iff_toNat_lt, UInt32.toNat_add] at ha
    have hone : (1 : UInt32).toNat = 1 := rfl
    rw [decide_eq_true_eq]
    omega

/-- Two instructions at radius one, which is full. -/
theorem radius_capacity_full :
    InRange "D$W$AS$".toList ∧
    ∃ c, Route.compile ⟨"full", "D$W$AS$"⟩ {} = .ok c ∧ c.program.size = 2 ∧
      c.program.instructions.toList.countP (fun a => a.radii.chebyshev.toNat = 1) ≤ 2 ∧
      c.program.jumpTarget 2 ≤ 2 := by
  have hm : InRange "D$W$AS$".toList := by decide
  have hwalk : walk (waypoints 0 "D$W$AS$".toList) =
      .home [⟨1, ⟨1, 0⟩, 1, 1⟩, ⟨2, ⟨1, 1⟩, 1, 3⟩] none := by decide
  have hc := @compile_of_walk ⟨"full", "D$W$AS$"⟩ _ _ hwalk {}
  obtain ⟨hcount, hjump⟩ := radius_capacity hm hc
  refine ⟨hm, _, hc, ?_, (hcount 1).1, hjump 1⟩
  rw [Program.size, ← Array.length_toList, (Program.toList_ofList_perm _ _).length_eq]
  rfl

end Itinerary

end GridWalk
