import GridWalk.Cell
import GridWalk.Grid.Point
import Mathlib.Tactic

/-!
# The unbounded grid

Sites are points with exact integer coordinates. A point stands for the site with
the same coordinates. As long as the sum of the two coordinates' sizes is at most
`maxInt32`, a site is the site of a point and the radii of the point are the exact
distances of the site from the origin.
-/

namespace GridWalk

/-- A position on the unbounded grid, or a displacement. -/
abbrev Site := ℤ × ℤ

namespace Site

/-- The exact Chebyshev and Manhattan distances from the origin. -/
def distances (s : Site) : ℕ × ℕ :=
  (max s.1.natAbs s.2.natAbs, s.1.natAbs + s.2.natAbs)

/-- Both distances fit into 31 bits. -/
def InRange (s : Site) : Prop := s.1.natAbs + s.2.natAbs ≤ maxInt32

instance : DecidablePred InRange :=
  fun s => inferInstanceAs (Decidable (s.1.natAbs + s.2.natAbs ≤ maxInt32))

/-- Only the origin is at no distance from itself. -/
theorem distances_eq_zero_iff {s : Site} : s.distances = (0, 0) ↔ s = 0 := by
  obtain ⟨x, y⟩ := s
  simp only [distances, Prod.mk.injEq, Prod.mk_eq_zero]
  omega

/-- Opposite sites are at the same distances. -/
@[simp] theorem distances_neg (s : Site) : (-s).distances = s.distances := by
  simp [distances]

/-- A site at the distances of another is at the origin if and only if the other is. -/
theorem eq_zero_iff_of_distances_eq {s t : Site} (h : s.distances = t.distances) :
    s = 0 ↔ t = 0 := by
  rw [← distances_eq_zero_iff, h, distances_eq_zero_iff]

end Site

namespace Point

/-- The coordinates of a point as exact integers. -/
def site (p : Point) : Site := (p.x.toInt, p.y.toInt)

/-- The point at a site, with coordinates taken modulo `2 ^ 32`. -/
def ofSite (s : Site) : Point := ⟨.ofInt s.1, .ofInt s.2⟩

/-- A site in range is the site of its point. -/
theorem site_ofSite {s : Site} (h : s.InRange) : (ofSite s).site = s := by
  unfold Site.InRange maxInt32 at h
  apply Prod.ext
  · exact Int32.toInt_ofInt_of_le (by omega) (by omega)
  · exact Int32.toInt_ofInt_of_le (by omega) (by omega)

/-- A point is the point at its site. -/
@[simp] theorem ofSite_site (p : Point) : ofSite p.site = p :=
  Point.ext (Int32.ofInt_toInt p.x) (Int32.ofInt_toInt p.y)

theorem site_injective : Function.Injective site := by
  intro p q h
  exact Point.ext (Int32.toInt_inj.1 (congrArg Prod.fst h))
    (Int32.toInt_inj.1 (congrArg Prod.snd h))

theorem eq_origin_iff {p : Point} : p = origin ↔ p.site = 0 :=
  site_injective.eq_iff.symm

/-- Steps wrap around on both sides alike, so they need no bound. -/
theorem ofSite_add (s t : Site) : ofSite (s + t) = ofSite s + ofSite t :=
  Point.ext (Int32.ofInt_add s.1 t.1) (Int32.ofInt_add s.2 t.2)

/-! ### Distances in exact arithmetic -/

/-- Taking the distances of `q` from `p` leaves the 32 bits nowhere: the differences of the
coordinates, their sizes and the sum of these are the exact integers, and so are the distances. -/
structure MeasuresExactly (p q : Point) : Prop where
  /-- The difference of the first coordinates is exact. -/
  x_sub : (q.x - p.x).toInt = q.x.toInt - p.x.toInt
  /-- The difference of the second coordinates is exact. -/
  y_sub : (q.y - p.y).toInt = q.y.toInt - p.y.toInt
  /-- The size of the first difference is exact. -/
  x_abs : (q.x - p.x).abs.toInt = (q.x.toInt - p.x.toInt).natAbs
  /-- The size of the second difference is exact. -/
  y_abs : (q.y - p.y).abs.toInt = (q.y.toInt - p.y.toInt).natAbs
  /-- The sum of the sizes is exact. -/
  sum : ((q.x - p.x).abs + (q.y - p.y).abs).toInt =
    (q.x.toInt - p.x.toInt).natAbs + (q.y.toInt - p.y.toInt).natAbs
  /-- The Chebyshev distance is the larger size. -/
  chebyshev : (p.chebyshev q).toNat =
    max (q.x.toInt - p.x.toInt).natAbs (q.y.toInt - p.y.toInt).natAbs
  /-- The Manhattan distance is the sum of the sizes. -/
  manhattan : (p.manhattan q).toNat =
    (q.x.toInt - p.x.toInt).natAbs + (q.y.toInt - p.y.toInt).natAbs

private theorem toInt_sub_of_le {a b : Int32} (h : (a.toInt - b.toInt).natAbs ≤ maxInt32) :
    (a - b).toInt = a.toInt - b.toInt := by
  unfold maxInt32 at h
  rw [Int32.toInt_sub]
  exact Int.bmod_eq_of_le (by omega) (by omega)

private theorem toInt_abs {a : Int32} (h : a.toInt.natAbs ≤ maxInt32) :
    a.abs.toInt = a.toInt.natAbs := by
  unfold maxInt32 at h
  apply BitVec.toInt_abs_eq_natAbs_of_ne_intMin
  intro hm
  have hv : a.toInt = -2147483648 := by
    change a.toBitVec.toInt = _
    rw [hm]
    rfl
  omega

private theorem toInt_max (a b : Int32) : (max a b).toInt = max a.toInt b.toInt := by
  change (if a ≤ b then b else a).toInt = _
  split
  · next h => rw [max_eq_right (Int32.le_iff_toInt_le.1 h)]
  · next h =>
    rw [Int32.le_iff_toInt_le] at h
    rw [max_eq_left (by omega)]

private theorem toInt_add_of_le {a b : Int32} {m n : ℕ} (ha : a.toInt = m) (hb : b.toInt = n)
    (h : m + n ≤ maxInt32) : (a + b).toInt = (m + n : ℕ) := by
  unfold maxInt32 at h
  rw [Int32.toInt_add, ha, hb]
  exact Int.bmod_eq_of_le (by omega) (by omega)

private theorem toNat_toUInt32 {a : Int32} {n : ℕ} (h : a.toInt = n) : a.toUInt32.toNat = n := by
  have hn : 0 ≤ a := by
    rw [Int32.le_iff_toInt_le, h]
    exact Int.natCast_nonneg n
  rw [Int32.toNat_toUInt32_of_le hn, ← Int32.toNat_toInt, h, Int.toNat_natCast]

/-- Distances are taken exactly wherever the Manhattan distance fits into 31 bits. -/
theorem measuresExactly {p q : Point} (h : (q.site - p.site).InRange) : p.MeasuresExactly q := by
  have hrange : (q.x.toInt - p.x.toInt).natAbs + (q.y.toInt - p.y.toInt).natAbs ≤ maxInt32 := h
  have hx := toInt_sub_of_le (le_trans (Nat.le_add_right ..) hrange)
  have hy := toInt_sub_of_le (le_trans (Nat.le_add_left ..) hrange)
  have hxabs : (q.x - p.x).abs.toInt = (q.x.toInt - p.x.toInt).natAbs := by
    rw [toInt_abs (hx ▸ le_trans (Nat.le_add_right ..) hrange), hx]
  have hyabs : (q.y - p.y).abs.toInt = (q.y.toInt - p.y.toInt).natAbs := by
    rw [toInt_abs (hy ▸ le_trans (Nat.le_add_left ..) hrange), hy]
  have hsum := toInt_add_of_le hxabs hyabs hrange
  refine ⟨hx, hy, hxabs, hyabs, hsum.trans (Nat.cast_add ..), ?_, toNat_toUInt32 hsum⟩
  apply toNat_toUInt32
  rw [toInt_max, hxabs, hyabs]
  exact (Nat.cast_max ..).symm

/-- The distances of a point in range from the origin are taken exactly. -/
theorem measuresExactly_origin {p : Point} (h : p.site.InRange) : origin.MeasuresExactly p := by
  apply measuresExactly
  rwa [show origin.site = 0 from rfl, sub_zero]

/-- The Chebyshev distance of a point in range is exact. -/
theorem toNat_chebyshev_radii {p : Point} (h : p.site.InRange) :
    p.radii.chebyshev.toNat = p.site.distances.1 := by
  have hc := (measuresExactly_origin h).chebyshev
  rwa [show origin.x.toInt = 0 from rfl, show origin.y.toInt = 0 from rfl, sub_zero, sub_zero] at hc

/-- The Manhattan distance of a point in range is exact. -/
theorem toNat_manhattan_radii {p : Point} (h : p.site.InRange) :
    p.radii.manhattan.toNat = p.site.distances.2 := by
  have hm := (measuresExactly_origin h).manhattan
  rwa [show origin.x.toInt = 0 from rfl, show origin.y.toInt = 0 from rfl, sub_zero, sub_zero] at hm

/-- Points in range have the same radii exactly when their sites are at the same distances. -/
theorem radii_eq_iff {p q : Point} (hp : p.site.InRange) (hq : q.site.InRange) :
    p.radii = q.radii ↔ p.site.distances = q.site.distances := by
  rw [Radii.ext_iff, ← UInt32.toNat_inj, ← UInt32.toNat_inj, toNat_chebyshev_radii hp,
    toNat_chebyshev_radii hq, toNat_manhattan_radii hp, toNat_manhattan_radii hq, Prod.ext_iff]

end Point

end GridWalk
