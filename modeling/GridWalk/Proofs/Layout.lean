import GridWalk.Program
import Mathlib.Data.List.Sort
import Mathlib.Order.Bounds.Basic
import Mathlib.Tactic

/-!
# Layout of programs

A program laid out from a list is the stable sort of the list by the distances: it has the
same instructions, none is farther out than one after it, and those at equal distances keep
their order. Sorting by the pair of distances sorts by the Chebyshev distance as well, so the
instructions below a radius come first. Bisection finds where they end, and that is the number
of instructions below the radius.
-/

namespace GridWalk

/-- Bisection finds the boundary between the indices where `p` holds and those where it
fails. The boundary stays between the two ends. -/
theorem bisect_eq_of_boundary {p : ℕ → Bool} {lo hi t : ℕ} (hlo : lo ≤ t) (hhi : t ≤ hi)
    (hbelow : ∀ i, lo ≤ i → i < t → p i = true) (habove : ∀ i, t ≤ i → i < hi → p i = false) :
    bisect p lo hi = t := by
  fun_induction bisect p lo hi with
  | case1 lo hi hlt mid hmid ih =>
    have hm : mid < t := by
      by_contra hge
      rw [habove mid (by omega) (by omega)] at hmid
      exact Bool.false_ne_true hmid
    exact ih hm hhi (fun i hi => hbelow i (by omega)) habove
  | case2 lo hi hlt mid hmid ih =>
    have hm : t ≤ mid := by
      by_contra hge
      exact hmid (hbelow mid (by omega) (by omega))
    exact ih hlo hm hbelow (fun i hi hlt => habove i hi (by omega))
  | case3 lo hi hge => omega

/-- Where those that satisfy `q` come first, an element satisfies `q` exactly if its index is
below their number. -/
theorem getElem_iff_lt_countP {α : Type*} {q : α → Bool} {l : List α}
    (h : l.Pairwise fun a b => q b = true → q a = true) (i : ℕ) (hi : i < l.length) :
    q l[i] = true ↔ i < l.countP q := by
  induction l generalizing i with
  | nil => simp at hi
  | cons a l ih =>
    obtain ⟨ha, hl⟩ := List.pairwise_cons.1 h
    by_cases hq : q a = true
    · rw [List.countP_cons_of_pos hq]
      cases i with
      | zero => simpa using hq
      | succ i => simpa using ih hl i (by simpa using hi)
    · have hnone : ∀ b ∈ l, ¬ q b = true := fun b hb hqb => hq (ha b hb hqb)
      have hzero : (a :: l).countP q = 0 := by
        rw [List.countP_cons_of_neg hq, List.countP_eq_zero]
        exact hnone
      rw [hzero]
      cases i with
      | zero => simpa using hq
      | succ i => simpa using hnone _ (List.getElem_mem (by simpa using hi))

namespace Program

/-! ### The order of the instructions -/

/-- Instructions at equal distances keep their order, as a stable sort keeps the sorted parts of a
list. -/
theorem filter_ofList (l : List Instruction) (config : Config) (radii : Radii) :
    (ofList l config).instructions.toList.filter (·.radii = radii) =
      l.filter (·.radii = radii) := by
  have hsorted : (l.filter (·.radii = radii)).Pairwise
      fun a b => decide (a.radii ≤ b.radii) = true := by
    apply List.pairwise_of_forall_mem_list
    intro a ha b hb
    have ha' : a.radii = radii := by simpa using (List.mem_filter.1 ha).2
    have hb' : b.radii = radii := by simpa using (List.mem_filter.1 hb).2
    rw [decide_eq_true_eq, ha', hb']
    exact Radii.le_refl radii
  have hpart : (l.filter (·.radii = radii)).Sublist (ofList l config).instructions.toList :=
    List.sublist_mergeSort
      (fun a b c hab hbc => by
        rw [decide_eq_true_eq] at hab hbc ⊢
        exact Radii.le_trans hab hbc)
      (fun a b => by
        rw [Bool.or_eq_true, decide_eq_true_eq, decide_eq_true_eq]
        exact Radii.le_total a.radii b.radii)
      hsorted List.filter_sublist
  have hkept := hpart.filter (·.radii = radii)
  rw [List.filter_eq_self.2 fun a ha => (List.mem_filter.1 ha).2] at hkept
  have hlength := ((toList_ofList_perm l config).filter (·.radii = radii)).length_eq
  exact (hkept.eq_of_length hlength.symm).symm

/-- A list in layout order, no two of it at equal distances, is the layout of all its
reorderings. -/
theorem toList_ofList_of_perm {l l' : List Instruction} (config : Config) (hp : l.Perm l')
    (hs : l'.Pairwise fun a b => a.radii ≤ b.radii) (hn : (l'.map Instruction.radii).Nodup) :
    (ofList l config).instructions.toList = l' := by
  have hperm := (toList_ofList_perm l config).trans hp
  refine List.Perm.eq_of_pairwise ?_ (ofList l config).ordered hs hperm
  intro a b ha hb hab hba
  exact List.inj_on_of_nodup_map hn (hperm.mem_iff.1 ha) hb (Radii.le_antisymm hab hba)

/-- Reorderings of a list, no two of it at equal distances, have the same layout. -/
theorem ofList_eq_of_perm {l l' : List Instruction} (config : Config) (hp : l.Perm l')
    (hn : (l.map Instruction.radii).Nodup) : ofList l config = ofList l' config := by
  have hl' := toList_ofList_perm l' config
  have hn' := ((hl'.trans hp.symm).map Instruction.radii).nodup_iff.2 hn
  have he := toList_ofList_of_perm config (hp.trans hl'.symm) (ofList l' config).ordered hn'
  exact Program.ext (Array.toList_inj.1 he) rfl

/-- Instructions that correspond one by one, at equal distances, still do so when they are laid
out: both layouts take their order from one sort. -/
theorem forall₂_ofList {α : Type*} {R : Instruction → Instruction → Prop} {f g : α → Instruction}
    (config : Config) (hradii : ∀ a, (g a).radii = (f a).radii) (h : ∀ a, R (f a) (g a))
    (l : List α) :
    List.Forall₂ R (ofList (l.map f) config).instructions.toList
      (ofList (l.map g) config).instructions.toList := by
  have hsort (k : α → Instruction) (hk : ∀ a, (k a).radii = (f a).radii) :
      (ofList (l.map k) config).instructions.toList =
        (l.mergeSort fun a b => decide ((f a).radii ≤ (f b).radii)).map k := by
    rw [List.map_mergeSort (s := fun a b => decide (a.radii ≤ b.radii))]
    · rfl
    · intro a _ b _
      rw [hk, hk]
  rw [hsort f fun _ => rfl, hsort g hradii, List.forall₂_map_left_iff, List.forall₂_map_right_iff,
    List.forall₂_same]
  exact fun a _ => h a

/-- The instructions below a radius come first. -/
theorem pairwise_below (p : Program) (radius : UInt32) :
    p.instructions.toList.Pairwise fun a b =>
      decide (b.radii.chebyshev < radius) = true → decide (a.radii.chebyshev < radius) = true := by
  refine p.ordered.imp ?_
  intro a b hab hb
  have hle := Radii.chebyshev_le hab
  rw [decide_eq_true_eq, UInt32.lt_iff_toNat_lt] at hb ⊢
  rw [UInt32.le_iff_toNat_le] at hle
  omega

/-- An instruction is below a radius exactly if its index is below the number of those. -/
theorem chebyshev_lt_iff_lt_countP (p : Program) (radius : UInt32) {i : ℕ} {a : Instruction}
    (h : p.instructions[i]? = some a) :
    a.radii.chebyshev < radius ↔
      i < p.instructions.toList.countP fun a => a.radii.chebyshev < radius := by
  rw [← Array.getElem?_toList] at h
  obtain ⟨hi, rfl⟩ := List.getElem?_eq_some_iff.1 h
  rw [← getElem_iff_lt_countP (p.pairwise_below radius) i hi, decide_eq_true_eq]

theorem countP_le_size (p : Program) (q : Instruction → Bool) :
    p.instructions.toList.countP q ≤ p.size := by
  rw [size, ← Array.length_toList]
  exact List.countP_le_length

/-! ### Jumps -/

/-- A jump goes past the instructions below its radius, however many they are. -/
theorem jumpTarget_eq_countP (p : Program) (radius : UInt32) :
    p.jumpTarget radius = p.instructions.toList.countP fun a => a.radii.chebyshev < radius := by
  have hle := p.countP_le_size fun a => a.radii.chebyshev < radius
  refine bisect_eq_of_boundary (Nat.zero_le _) hle ?_ ?_
  · intro i _ hi
    have hget := Array.getElem?_eq_getElem (Nat.lt_of_lt_of_le hi hle)
    rw [hget, Option.any_some, decide_eq_true_eq]
    exact (p.chebyshev_lt_iff_lt_countP radius hget).2 hi
  · intro i hi hlt
    have hget := Array.getElem?_eq_getElem hlt
    rw [hget, Option.any_some, decide_eq_false_iff_not, p.chebyshev_lt_iff_lt_countP radius hget]
    exact Nat.not_lt.2 hi

/-- A jump goes to the first instruction at its radius or beyond, or to the end. -/
theorem isLeast_jumpTarget (p : Program) (radius : UInt32) :
    IsLeast {i | (∃ a, p.instructions[i]? = some a ∧ radius ≤ a.radii.chebyshev) ∨ i = p.size}
      (p.jumpTarget radius) := by
  rw [jumpTarget_eq_countP]
  constructor
  · cases hget : p.instructions[p.instructions.toList.countP fun a =>
        decide (a.radii.chebyshev < radius)]? with
    | none =>
      right
      exact Nat.le_antisymm (p.countP_le_size _) (Array.getElem?_eq_none_iff.1 hget)
    | some a =>
      left
      refine ⟨a, hget, UInt32.not_lt.1 ?_⟩
      rw [p.chebyshev_lt_iff_lt_countP radius hget]
      exact Nat.lt_irrefl _
  · rintro i (⟨a, hget, ha⟩ | rfl)
    · rw [← UInt32.not_lt, p.chebyshev_lt_iff_lt_countP radius hget] at ha
      exact Nat.not_lt.1 ha
    · exact p.countP_le_size _

/-- A larger radius leads no less far. -/
theorem jumpTarget_mono (p : Program) {radius radius' : UInt32} (h : radius ≤ radius') :
    p.jumpTarget radius ≤ p.jumpTarget radius' := by
  rw [jumpTarget_eq_countP, jumpTarget_eq_countP]
  apply List.countP_mono_left
  intro a _ ha
  rw [UInt32.le_iff_toNat_le] at h
  rw [decide_eq_true_eq, UInt32.lt_iff_toNat_lt] at ha ⊢
  omega

/-- Laying out a list sorts it stably by the distances: nothing is lost or added, no instruction
is farther out than one after it, and those at equal distances keep their order. A jump then goes
to the first instruction at its radius or beyond, or to the end where there is none. It passes as
many instructions as the list has below the radius, and a larger radius leads no less far. -/
theorem ofList_sorts_and_jumps (l : List Instruction) (config : Config) :
    let p := ofList l config
    p.instructions.toList.Perm l ∧
    (p.instructions.toList.Pairwise fun a b => a.radii ≤ b.radii) ∧
    (∀ radii, p.instructions.toList.filter (·.radii = radii) = l.filter (·.radii = radii)) ∧
    ∀ radius,
      IsLeast {i | (∃ a, p.instructions[i]? = some a ∧ radius ≤ a.radii.chebyshev) ∨ i = p.size}
        (p.jumpTarget radius) ∧
      p.jumpTarget radius = l.countP (fun a => a.radii.chebyshev < radius) ∧
      p.jumpTarget radius ≤ p.size ∧
      ∀ radius', radius ≤ radius' → p.jumpTarget radius ≤ p.jumpTarget radius' := by
  intro p
  refine ⟨toList_ofList_perm l config, p.ordered, filter_ofList l config, ?_⟩
  intro radius
  have hleast := p.isLeast_jumpTarget radius
  refine ⟨hleast, ?_, hleast.2 (Or.inr rfl), fun _ h => p.jumpTarget_mono h⟩
  rw [jumpTarget_eq_countP]
  exact (toList_ofList_perm l config).countP_eq _

/-- Two instructions at the same distances, given after one that is farther out, and jumps to a
radius in the gap and to one past the end. -/
theorem ofList_sorts_and_jumps_gap :
    let l : List Instruction := [⟨.dup, ⟨1, 5⟩, ⟨5, 6⟩⟩, ⟨.sub, ⟨-2, 1⟩, ⟨2, 3⟩⟩,
      ⟨.nop, ⟨0, 0⟩, ⟨2, 3⟩⟩]
    let p := ofList l {}
    p.instructions.toList.filter (·.radii = ⟨2, 3⟩) =
      [⟨.sub, ⟨-2, 1⟩, ⟨2, 3⟩⟩, ⟨.nop, ⟨0, 0⟩, ⟨2, 3⟩⟩] ∧
    p.jumpTarget 3 = 2 ∧ (3 : UInt32) ≤ 6 ∧ p.jumpTarget 3 ≤ p.jumpTarget 6 := by
  intro l p
  obtain ⟨_, _, hstable, hjump⟩ := ofList_sorts_and_jumps l {}
  obtain ⟨_, hcount, _, hmono⟩ := hjump 3
  have hle : (3 : UInt32) ≤ 6 := by decide
  exact ⟨(hstable ⟨2, 3⟩).trans (by decide), hcount.trans (by decide), hle, hmono 6 hle⟩

end Program

end GridWalk
