/-!
# Distances from the origin

`Radii` pairs the two distances that place a point: the Chebyshev distance and
the Manhattan distance. Pairs are ordered lexicographically, Chebyshev first.
The order is total, and it is the order in which programs are laid out.
-/

namespace GridWalk

/-- The Chebyshev and the Manhattan distance of a point from the origin. -/
@[ext] structure Radii where
  /-- The larger of the two coordinate distances. -/
  chebyshev : UInt32
  /-- The sum of the two coordinate distances. -/
  manhattan : UInt32
  deriving DecidableEq, Repr

namespace Radii

/-- Lexicographic comparison, Chebyshev distance first. -/
instance : Ord Radii where
  compare a b := (compare a.chebyshev b.chebyshev).then (compare a.manhattan b.manhattan)

/-- `a ≤ b` when `a` is nearer by the Chebyshev distance, or level with `b` there and
no farther by the Manhattan distance. -/
instance : LE Radii where
  le a b := a.chebyshev < b.chebyshev ∨ a.chebyshev = b.chebyshev ∧ a.manhattan ≤ b.manhattan

theorem le_iff {a b : Radii} :
    a ≤ b ↔ a.chebyshev < b.chebyshev ∨ a.chebyshev = b.chebyshev ∧ a.manhattan ≤ b.manhattan :=
  Iff.rfl

instance (a b : Radii) : Decidable (a ≤ b) :=
  decidable_of_iff _ le_iff.symm

/-- The order read in natural numbers. -/
theorem le_iff_toNat {a b : Radii} :
    a ≤ b ↔ a.chebyshev.toNat < b.chebyshev.toNat ∨
      a.chebyshev.toNat = b.chebyshev.toNat ∧ a.manhattan.toNat ≤ b.manhattan.toNat := by
  rw [le_iff, UInt32.lt_iff_toNat_lt, UInt32.le_iff_toNat_le, UInt32.toNat_inj]

/-- Comparing and ordering agree. -/
theorem isLE_compare {a b : Radii} : (compare a b).isLE = true ↔ a ≤ b := by
  rw [le_iff]
  change ((compare a.chebyshev b.chebyshev).then (compare a.manhattan b.manhattan)).isLE = true ↔ _
  rw [Ordering.isLE_then_iff_or, Std.compare_eq_lt, Std.compare_eq_iff_eq, Std.isLE_compare]

theorem le_refl (a : Radii) : a ≤ a := by
  rw [le_iff_toNat]
  omega

theorem le_trans {a b c : Radii} (h : a ≤ b) (k : b ≤ c) : a ≤ c := by
  rw [le_iff_toNat] at h k ⊢
  omega

theorem le_total (a b : Radii) : a ≤ b ∨ b ≤ a := by
  rw [le_iff_toNat, le_iff_toNat]
  omega

theorem le_antisymm {a b : Radii} (h : a ≤ b) (k : b ≤ a) : a = b := by
  rw [le_iff_toNat] at h k
  have hc : a.chebyshev.toNat = b.chebyshev.toNat := by omega
  have hm : a.manhattan.toNat = b.manhattan.toNat := by omega
  exact Radii.ext (UInt32.toNat_inj.1 hc) (UInt32.toNat_inj.1 hm)

/-- Of two different pairs in order, the first is nearer by the Chebyshev distance, or level there
and nearer by the Manhattan distance. -/
theorem lt_of_le_of_ne {a b : Radii} (h : a ≤ b) (hne : a ≠ b) :
    a.chebyshev < b.chebyshev ∨ a.chebyshev = b.chebyshev ∧ a.manhattan < b.manhattan := by
  have hm : a.chebyshev = b.chebyshev → a.manhattan ≠ b.manhattan :=
    fun hc hm => hne (Radii.ext hc hm)
  rw [le_iff_toNat] at h
  rw [ne_eq, ← UInt32.toNat_inj, ← UInt32.toNat_inj] at hm
  rw [UInt32.lt_iff_toNat_lt, UInt32.lt_iff_toNat_lt, ← UInt32.toNat_inj]
  omega

/-- No member of the order is nearer by Chebyshev distance than one before it. -/
theorem chebyshev_le {a b : Radii} (h : a ≤ b) : a.chebyshev ≤ b.chebyshev := by
  rw [le_iff_toNat] at h
  rw [UInt32.le_iff_toNat_le]
  omega

end Radii

end GridWalk
