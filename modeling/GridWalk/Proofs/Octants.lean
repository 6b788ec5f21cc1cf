import GridWalk.Proofs.Symmetry
import Mathlib.Data.List.Permutation

/-!
# Octants and images

The sizes of the two coordinates, in no order, are what the two distances of a point tell: the
larger size is one distance, and the sum of both is the other. Points of the same distances are
therefore images of each other under a symmetry of the grid. The axes and diagonals are where the
sum is as small or as large as the larger size lets it be. Off them, each octant holds one of the
eight images of a point, so the octant and the distances determine the point.
-/

namespace GridWalk

/-! ### Sectors as regions of the unbounded grid -/

/-- The sites of a sector, by the order of zero, the coordinates and their negatives. -/
def Sector.Contains : Sector → Site → Prop
  | .line, (x, y) => x = 0 ∨ y = 0 ∨ x = y ∨ x = -y
  | .ene, (x, y) => 0 < y ∧ y < x
  | .nne, (x, y) => 0 < x ∧ x < y
  | .nnw, (x, y) => 0 < -x ∧ -x < y
  | .wnw, (x, y) => 0 < y ∧ y < -x
  | .wsw, (x, y) => 0 < -y ∧ -y < -x
  | .ssw, (x, y) => 0 < -x ∧ -x < -y
  | .sse, (x, y) => 0 < x ∧ x < -y
  | .ese, (x, y) => 0 < -y ∧ -y < x

namespace Point

/-- A point is in its sector. -/
theorem contains_sector (p : Point) : p.sector.Contains p.site := by
  unfold sector site
  dsimp only
  split_ifs <;> simp only [Sector.Contains] <;> omega

/-- A point is in no other sector. -/
theorem sector_eq_of_contains {p : Point} {s : Sector} (h : s.Contains p.site) : p.sector = s := by
  unfold sector
  unfold site at h
  dsimp only
  cases s <;> simp only [Sector.Contains] at h
  case line => rw [if_pos (by omega)]
  all_goals rw [if_neg (by omega)]
  case ene => rw [if_neg (by omega), if_pos (by omega), if_pos (by omega)]
  case nne => rw [if_pos (by omega), if_pos (by omega), if_pos (by omega)]
  case nnw => rw [if_pos (by omega), if_pos (by omega), if_neg (by omega)]
  case wnw => rw [if_neg (by omega), if_neg (by omega), if_pos (by omega)]
  case wsw => rw [if_neg (by omega), if_neg (by omega), if_neg (by omega)]
  case ssw => rw [if_pos (by omega), if_neg (by omega), if_neg (by omega)]
  case sse => rw [if_pos (by omega), if_neg (by omega), if_pos (by omega)]
  case ese => rw [if_neg (by omega), if_pos (by omega), if_neg (by omega)]

theorem sector_eq_iff (p : Point) (s : Sector) : p.sector = s ↔ s.Contains p.site :=
  ⟨fun h => h ▸ p.contains_sector, sector_eq_of_contains⟩

end Point

/-! ### The sizes of the coordinates -/

namespace Site

/-- The sizes of the two coordinates, in no order. -/
def sizes (s : Site) : Multiset ℕ := {s.1.natAbs, s.2.natAbs}

theorem sizes_eq_iff {s t : Site} :
    s.sizes = t.sizes ↔
      t.1.natAbs = s.1.natAbs ∧ t.2.natAbs = s.2.natAbs ∨
      t.1.natAbs = s.2.natAbs ∧ t.2.natAbs = s.1.natAbs := by
  change ((([s.1.natAbs, s.2.natAbs] : List ℕ) : Multiset ℕ) =
    (([t.1.natAbs, t.2.natAbs] : List ℕ) : Multiset ℕ)) ↔ _
  rw [Multiset.coe_eq_coe, List.pair_perm]
  simp

/-- The sizes determine the distances, and the distances the sizes. -/
theorem distances_eq_iff_sizes_eq {s t : Site} : s.distances = t.distances ↔ s.sizes = t.sizes := by
  rw [sizes_eq_iff, distances, distances, Prod.mk.injEq]
  generalize s.1.natAbs = a, s.2.natAbs = b, t.1.natAbs = c, t.2.natAbs = d
  omega

/-- The sum of the sizes is at least the larger one, and at most twice that. -/
theorem distances_le (s : Site) :
    s.distances.1 ≤ s.distances.2 ∧ s.distances.2 ≤ 2 * s.distances.1 := by
  simp only [distances]
  omega

/-- On the axes the sum of the sizes is the larger one, and on the diagonals it is twice that. -/
theorem contains_line_iff (s : Site) :
    Sector.line.Contains s ↔ s.distances.2 = s.distances.1 ∨ s.distances.2 = 2 * s.distances.1 := by
  simp only [Sector.Contains, distances]
  omega

/-- Within an octant, the sizes determine the site. -/
theorem eq_of_contains {octant : Sector} {s t : Site} (hline : octant ≠ .line)
    (hs : octant.Contains s) (ht : octant.Contains t) (hsizes : s.sizes = t.sizes) : s = t := by
  rw [sizes_eq_iff] at hsizes
  obtain ⟨x, y⟩ := s
  obtain ⟨x', y'⟩ := t
  rw [Prod.mk.injEq]
  cases octant with
  | line => exact absurd rfl hline
  | _ =>
    simp only [Sector.Contains] at hs ht
    dsimp only at hsizes
    omega

end Site

namespace Point

/-- Points in range have the same radii exactly if their coordinates have the same sizes. -/
theorem radii_eq_iff_sizes_eq {p q : Point} (hp : p.site.InRange) (hq : q.site.InRange) :
    p.radii = q.radii ↔ p.site.sizes = q.site.sizes := by
  rw [radii_eq_iff hp hq, Site.distances_eq_iff_sizes_eq]

/-- The Manhattan distance lies between the Chebyshev distance and its double. -/
theorem manhattan_bounds {p : Point} (h : p.site.InRange) :
    p.radii.chebyshev.toNat ≤ p.radii.manhattan.toNat ∧
      p.radii.manhattan.toNat ≤ 2 * p.radii.chebyshev.toNat := by
  rw [toNat_chebyshev_radii h, toNat_manhattan_radii h]
  exact p.site.distances_le

/-- A point is on a line exactly where the Manhattan distance is at one of its bounds. -/
theorem sector_eq_line_iff_manhattan {p : Point} (h : p.site.InRange) :
    p.sector = .line ↔ p.radii.manhattan.toNat = p.radii.chebyshev.toNat ∨
      p.radii.manhattan.toNat = 2 * p.radii.chebyshev.toNat := by
  rw [sector_eq_iff, Site.contains_line_iff, toNat_chebyshev_radii h, toNat_manhattan_radii h]

/-- Off the lines, the sector and the radii determine a point in range. -/
theorem eq_of_sector_of_radii {p q : Point} (hp : p.site.InRange) (hq : q.site.InRange)
    (hline : p.sector ≠ .line) (hsector : p.sector = q.sector) (hradii : p.radii = q.radii) :
    p = q :=
  site_injective (Site.eq_of_contains hline p.contains_sector (hsector ▸ q.contains_sector)
    ((radii_eq_iff_sizes_eq hp hq).1 hradii))

end Point

/-! ### The images of a point -/

/-- Along each axis there is a step of either sign. -/
theorem Direction.exists_delta_eq {a : Int32} (h : a ∈ ([1, -1] : List Int32)) :
    (∃ d ∈ [Direction.left, .right], d.delta = ⟨a, 0⟩) ∧
      ∃ e ∈ [Direction.down, .up], e.delta = ⟨0, a⟩ := by
  rcases List.mem_pair.1 h with rfl | rfl
  · exact ⟨⟨.right, by decide, rfl⟩, .up, by decide, rfl⟩
  · exact ⟨⟨.left, by decide, rfl⟩, .down, by decide, rfl⟩

/-- Steps along different axes are neither the same nor opposite. -/
theorem Direction.ne_of_axes : ∀ d ∈ [Direction.left, .right], ∀ e ∈ [Direction.down, .up],
    (e ≠ d ∧ e ≠ d.opposite) ∧ d ≠ e ∧ d ≠ e.opposite := by
  decide

theorem Direction.delta_injective : Function.Injective Direction.delta := by
  decide

namespace Symmetry

/-- The symmetry that takes right and up to two perpendicular directions. -/
def ofAxes (d e : Direction) (hne : e ≠ d) (hopposite : e ≠ d.opposite) : Symmetry where
  onDirection
    | .left => d.opposite
    | .down => e.opposite
    | .right => d
    | .up => e
  injective := by
    revert d e
    decide
  opposite := by
    revert d e
    decide

/-- A symmetry is known by where it takes two perpendicular steps. -/
theorem eq_of_delta {t u : Symmetry}
    (hright : (t.onDirection .right).delta = (u.onDirection .right).delta)
    (hup : (t.onDirection .up).delta = (u.onDirection .up).delta) : t = u := by
  have hr := Direction.delta_injective hright
  have hu := Direction.delta_injective hup
  apply Symmetry.ext
  funext d
  cases d with
  | left => exact (t.opposite .right).trans ((congrArg _ hr).trans (u.opposite .right).symm)
  | down => exact (t.opposite .up).trans ((congrArg _ hu).trans (u.opposite .up).symm)
  | right => exact hr
  | up => exact hu

/-- Every choice of signs for the coordinates, exchanged or not, is made by a symmetry. -/
theorem exists_of_units {a b : Int32} (ha : a ∈ ([1, -1] : List Int32))
    (hb : b ∈ ([1, -1] : List Int32)) :
    (∃ t : Symmetry, ∀ p, t.onPoint p = ⟨p.x * a, p.y * b⟩) ∧
      ∃ t : Symmetry, ∀ p, t.onPoint p = ⟨p.y * b, p.x * a⟩ := by
  obtain ⟨⟨d, hd, hda⟩, e', he', hea⟩ := Direction.exists_delta_eq ha
  obtain ⟨⟨d', hd', hdb⟩, e, he, heb⟩ := Direction.exists_delta_eq hb
  obtain ⟨⟨hne, hopposite⟩, _⟩ := Direction.ne_of_axes d hd e he
  obtain ⟨_, hne', hopposite'⟩ := Direction.ne_of_axes d' hd' e' he'
  constructor
  · refine ⟨ofAxes d e hne hopposite, fun p => ?_⟩
    simp [onPoint, ofAxes, Point.along, hda, heb]
  · refine ⟨ofAxes e' d' hne' hopposite', fun p => ?_⟩
    simp [onPoint, ofAxes, Point.along, hea, hdb]

/-- Integers of the same size agree up to a sign. -/
theorem exists_unit_of_size_eq {a b : Int32} (h : a.toInt.natAbs = b.toInt.natAbs) :
    ∃ u ∈ ([1, -1] : List Int32), a = b * u := by
  rcases Int.natAbs_eq_natAbs_iff.1 h with h | h
  · refine ⟨1, List.mem_cons_self, ?_⟩
    rw [Int32.mul_one, Int32.toInt_inj.1 h]
  · refine ⟨-1, List.mem_cons_of_mem _ List.mem_cons_self, ?_⟩
    have hneg : a = -b := by
      rw [← Int32.ofInt_toInt a, h, Int32.ofInt_neg, Int32.ofInt_toInt]
    rw [hneg]
    grind

/-- The images of a point are the points whose coordinates have its sizes. -/
theorem exists_onPoint_eq_iff {p q : Point} :
    (∃ t : Symmetry, t.onPoint p = q) ↔ p.site.sizes = q.site.sizes := by
  rw [Site.sizes_eq_iff]
  constructor
  · rintro ⟨t, rfl⟩
    refine (t.coordinates_onPoint p).imp ?_ ?_
    · rintro ⟨hx, hy⟩
      exact ⟨(size_eq_of_sign hx).2, (size_eq_of_sign hy).2⟩
    · rintro ⟨hx, hy⟩
      exact ⟨(size_eq_of_sign hx).2, (size_eq_of_sign hy).2⟩
  · rintro (⟨hx, hy⟩ | ⟨hx, hy⟩)
    · obtain ⟨a, ha, hxa⟩ := exists_unit_of_size_eq hx
      obtain ⟨b, hb, hyb⟩ := exists_unit_of_size_eq hy
      obtain ⟨t, ht⟩ := (exists_of_units ha hb).1
      exact ⟨t, (ht p).trans (Point.ext hxa.symm hyb.symm)⟩
    · obtain ⟨b, hb, hxb⟩ := exists_unit_of_size_eq hx
      obtain ⟨a, ha, hya⟩ := exists_unit_of_size_eq hy
      obtain ⟨t, ht⟩ := (exists_of_units ha hb).2
      exact ⟨t, (ht p).trans (Point.ext hxb.symm hya.symm)⟩

/-- A coordinate in range that is not zero shows the sign it is taken with. -/
theorem unit_eq_of_mul_eq {a a' x : Int32} (ha : a ∈ ([1, -1] : List Int32))
    (ha' : a' ∈ ([1, -1] : List Int32)) (hzero : x.toInt ≠ 0) (hx : x.toInt.natAbs ≤ maxInt32)
    (h : x * a = x * a') : a = a' := by
  unfold maxInt32 at hx
  have hneg : x ≠ -x := by
    intro hx'
    have hi := congrArg Int32.toInt hx'
    rw [Int32.toInt_neg, Int.bmod_eq_of_le (by omega) (by omega)] at hi
    omega
  have hone : x * 1 = x := Int32.mul_one x
  have hminus : x * -1 = -x := by grind
  rcases List.mem_pair.1 ha with rfl | rfl <;> rcases List.mem_pair.1 ha' with rfl | rfl
  · rfl
  · exact absurd (hone.symm.trans (h.trans hminus)) hneg
  · exact absurd (hone.symm.trans (h.symm.trans hminus)) hneg
  · rfl

/-- Coordinates of different sizes stay different, whatever signs they are taken with. -/
theorem mul_unit_ne {a b x y : Int32} (ha : a ∈ ([1, -1] : List Int32))
    (hb : b ∈ ([1, -1] : List Int32)) (h : x.toInt.natAbs ≠ y.toInt.natAbs) : x * a ≠ y * b := by
  intro he
  have hx := (size_eq_of_sign (mul_unit ha x)).2
  have hy := (size_eq_of_sign (mul_unit hb y)).2
  rw [he] at hx
  exact h (hx.symm.trans hy)

/-- Off the lines, different symmetries take a point in range to different points. Its coordinates
have different sizes, so it shows whether the axes are exchanged. -/
theorem onPoint_injective {p : Point} (hp : p.site.InRange) (hline : p.sector ≠ .line) :
    Function.Injective fun t : Symmetry => t.onPoint p := by
  have hrange : p.x.toInt.natAbs + p.y.toInt.natAbs ≤ maxInt32 := hp
  rw [ne_eq, Point.sector_eq_line_iff] at hline
  push Not at hline
  obtain ⟨hx, hy, hxy⟩ := hline
  intro t u h
  dsimp only at h
  obtain ⟨a, ha, b, hb, hta⟩ := t.exists_units
  obtain ⟨a', ha', b', hb', hua⟩ := u.exists_units
  rcases hta with ⟨hright, hup, ht⟩ | ⟨hright, hup, ht⟩ <;>
    rcases hua with ⟨hright', hup', hu⟩ | ⟨hright', hup', hu⟩ <;>
    rw [ht, hu, Point.mk.injEq] at h
  · obtain rfl := unit_eq_of_mul_eq ha ha' (by omega) (by omega) h.1
    obtain rfl := unit_eq_of_mul_eq hb hb' (by omega) (by omega) h.2
    exact eq_of_delta (hright.trans hright'.symm) (hup.trans hup'.symm)
  · exact absurd h.1 (mul_unit_ne ha hb' hxy)
  · exact absurd h.1.symm (mul_unit_ne ha' hb hxy)
  · obtain rfl := unit_eq_of_mul_eq ha ha' (by omega) (by omega) h.2
    obtain rfl := unit_eq_of_mul_eq hb hb' (by omega) (by omega) h.1
    exact eq_of_delta (hright.trans hright'.symm) (hup.trans hup'.symm)

/-- Off the lines, different symmetries take a point in range to different octants. -/
theorem sector_onPoint_injective {p : Point} (hp : p.site.InRange) (hline : p.sector ≠ .line) :
    Function.Injective fun t : Symmetry => (t.onPoint p).sector := by
  intro t u h
  have hsizes : (t.onPoint p).site.sizes = (u.onPoint p).site.sizes :=
    (exists_onPoint_eq_iff.1 ⟨t, rfl⟩).symm.trans (exists_onPoint_eq_iff.1 ⟨u, rfl⟩)
  have hline' : (t.onPoint p).sector ≠ .line := by rwa [ne_eq, sector_onPoint_eq_line_iff]
  have hcontains : (t.onPoint p).sector.Contains (u.onPoint p).site := by
    rw [show (t.onPoint p).sector = (u.onPoint p).sector from h]
    exact (u.onPoint p).contains_sector
  exact onPoint_injective hp hline (Point.site_injective
    (Site.eq_of_contains hline' (t.onPoint p).contains_sector hcontains hsizes))

end Symmetry

/-- Within range, the Manhattan distance lies between the Chebyshev distance and its double. Two
points have the same distances exactly if the sizes of their coordinates agree in some order, and
exactly if one of the eight symmetries takes one to the other. The lines are where the Manhattan
distance is at a bound. Off them, the eight images of a point are different and in different
octants, and the sector and the distances determine the point. For all coordinates, the sector of a
point is given by exact inequalities. -/
theorem radii_up_to_symmetry :
    Fintype.card Symmetry = 8 ∧
    (∀ p q : Point, p.site.InRange → q.site.InRange →
      p.radii.chebyshev.toNat ≤ p.radii.manhattan.toNat ∧
      p.radii.manhattan.toNat ≤ 2 * p.radii.chebyshev.toNat ∧
      (p.radii = q.radii ↔ ({p.x.toInt.natAbs, p.y.toInt.natAbs} : Multiset ℕ) =
        {q.x.toInt.natAbs, q.y.toInt.natAbs}) ∧
      (p.radii = q.radii ↔ ∃ t : Symmetry, t.onPoint p = q) ∧
      (p.sector = .line ↔ p.radii.manhattan.toNat = p.radii.chebyshev.toNat ∨
        p.radii.manhattan.toNat = 2 * p.radii.chebyshev.toNat) ∧
      (p.sector ≠ .line →
        (Function.Injective fun t : Symmetry => t.onPoint p) ∧
        (Function.Injective fun t : Symmetry => (t.onPoint p).sector) ∧
        (∀ t : Symmetry, (t.onPoint p).sector ≠ .line) ∧
        (p.sector = q.sector → p.radii = q.radii → p = q)) ∧
      ∀ t : Symmetry, (t.onPoint p).site =
        p.site.1 • (t.onDirection .right).delta.site + p.site.2 • (t.onDirection .up).delta.site) ∧
    ∀ (p : Point) (s : Sector), p.sector = s ↔ s.Contains (p.x.toInt, p.y.toInt) := by
  refine ⟨Symmetry.card_eq, ?_, Point.sector_eq_iff⟩
  intro p q hp hq
  obtain ⟨hlow, hhigh⟩ := Point.manhattan_bounds hp
  have hsizes := Point.radii_eq_iff_sizes_eq hp hq
  refine ⟨hlow, hhigh, hsizes, ?_, Point.sector_eq_line_iff_manhattan hp, ?_,
    fun t => t.site_onPoint hp⟩
  · rw [hsizes, Symmetry.exists_onPoint_eq_iff]
  · intro hline
    refine ⟨Symmetry.onPoint_injective hp hline, Symmetry.sector_onPoint_injective hp hline, ?_,
      Point.eq_of_sector_of_radii hp hq hline⟩
    intro t
    rwa [ne_eq, t.sector_onPoint_eq_line_iff]

/-- A point and its mirror image across a diagonal, and a point with the least coordinate. -/
theorem radii_up_to_symmetry_mirrored :
    Site.InRange (Point.site ⟨3, 1⟩) ∧ Site.InRange (Point.site ⟨-1, -3⟩) ∧
    (∃ t : Symmetry, t.onPoint ⟨3, 1⟩ = ⟨-1, -3⟩) ∧
    Point.sector ⟨3, 1⟩ ≠ .line ∧
    (Function.Injective fun t : Symmetry => (t.onPoint ⟨3, 1⟩).sector) ∧
    Point.sector ⟨-2147483648, 2147483647⟩ = .wnw := by
  have hp : Site.InRange (Point.site ⟨3, 1⟩) := by decide
  have hq : Site.InRange (Point.site ⟨-1, -3⟩) := by decide
  have hline : Point.sector ⟨3, 1⟩ ≠ .line := by decide
  obtain ⟨_, hrange, hsector⟩ := radii_up_to_symmetry
  obtain ⟨_, _, _, himage, _, hoff, _⟩ := hrange ⟨3, 1⟩ ⟨-1, -3⟩ hp hq
  obtain ⟨_, hoctants, _⟩ := hoff hline
  refine ⟨hp, hq, himage.1 (by decide), hline, hoctants, ?_⟩
  exact (hsector _ _).2 ⟨by decide, by decide⟩

end GridWalk
