import GridWalk.Proofs.Layout
import GridWalk.Proofs.Redrawing
import GridWalk.Proofs.Scan
import Mathlib.Tactic

/-!
# Symmetries of the grid

A symmetry that fixes the origin is known by where it takes the four directions: no two to the same
one, and opposite ones to opposite ones. There are eight of them. The image of a point has the
coordinates of the point, perhaps exchanged and perhaps with other signs. It is therefore at the
same distances, and on a line through the origin exactly when the point is. A text with its moves
turned by a symmetry compiles as the text does, at the images of its points.
-/

namespace GridWalk

instance : Fintype Direction := ⟨{.left, .down, .right, .up}, by intro d; cases d <;> decide⟩

/-- The direction back. -/
def Direction.opposite : Direction → Direction
  | .left => .right
  | .down => .up
  | .right => .left
  | .up => .down

theorem Direction.delta_opposite (d : Direction) :
    d.opposite.delta = ⟨-d.delta.x, -d.delta.y⟩ := by
  cases d <;> rfl

/-- Of two directions that are neither the same nor opposite, one is along each axis. -/
theorem Direction.delta_of_perpendicular : ∀ d e : Direction, e ≠ d → e ≠ d.opposite →
    ∃ a ∈ ([1, -1] : List Int32), ∃ b ∈ ([1, -1] : List Int32),
      d.delta = ⟨a, 0⟩ ∧ e.delta = ⟨0, b⟩ ∨ d.delta = ⟨0, a⟩ ∧ e.delta = ⟨b, 0⟩ := by
  decide

/-- So many times one displacement and so many times another, as the coordinates of `p` say. -/
def Point.along (p right up : Point) : Point :=
  ⟨p.x * right.x + p.y * up.x, p.x * right.y + p.y * up.y⟩

theorem Point.along_add (p q right up : Point) :
    (p + q).along right up = p.along right up + q.along right up := by
  apply Point.ext
  · change (p.x + q.x) * _ + (p.y + q.y) * _ = (p.x * _ + p.y * _) + (q.x * _ + q.y * _)
    grind
  · change (p.x + q.x) * _ + (p.y + q.y) * _ = (p.x * _ + p.y * _) + (q.x * _ + q.y * _)
    grind

theorem Point.along_delta (right up : Point) (d : Direction) :
    d.delta.along right up =
      match d with
      | .left => ⟨-right.x, -right.y⟩
      | .down => ⟨-up.x, -up.y⟩
      | .right => right
      | .up => up := by
  cases d <;> apply Point.ext <;> simp only [along, Direction.delta] <;> grind

namespace Point

/-- The distances from the origin in terms of the coordinates. -/
theorem radii_eq (p : Point) :
    p.radii = ⟨(max p.x.abs p.y.abs).toUInt32, (p.x.abs + p.y.abs).toUInt32⟩ := by
  change (⟨(max (p.x - 0).abs (p.y - 0).abs).toUInt32,
    ((p.x - 0).abs + (p.y - 0).abs).toUInt32⟩ : Radii) = _
  rw [Int32.sub_zero, Int32.sub_zero]

/-- A point is on an axis or a diagonal by the sizes of its coordinates. -/
theorem sector_eq_line_iff {p : Point} :
    p.sector = .line ↔ p.x.toInt.natAbs = 0 ∨ p.y.toInt.natAbs = 0 ∨
      p.x.toInt.natAbs = p.y.toInt.natAbs := by
  rw [Int.natAbs_eq_zero, Int.natAbs_eq_zero]
  unfold sector
  dsimp only
  split_ifs <;> simp_all

theorem eq_origin_iff_natAbs {p : Point} :
    p = origin ↔ p.x.toInt.natAbs = 0 ∧ p.y.toInt.natAbs = 0 := by
  rw [eq_origin_iff, site, Prod.mk_eq_zero, Int.natAbs_eq_zero, Int.natAbs_eq_zero]

end Point

/-- Only visits on a line compile to nothing. -/
theorem Action.ofSector_eq_nop_iff {sector : Sector} {steps : UInt64} :
    ofSector sector steps = .nop ↔ sector = .line := by
  cases sector <;> simp [ofSector]

/-- A symmetry of the grid that fixes the origin. -/
@[ext] structure Symmetry where
  /-- Where it takes a direction. -/
  onDirection : Direction → Direction
  /-- It takes no two directions to the same one. -/
  injective : Function.Injective onDirection
  /-- It takes opposite directions to opposite ones. -/
  opposite : ∀ d, onDirection d.opposite = (onDirection d).opposite

namespace Symmetry

/-- Symmetries as maps of directions. -/
def equivSubtype : Symmetry ≃ { f : Direction → Direction //
    Function.Injective f ∧ ∀ d, f d.opposite = (f d).opposite } where
  toFun t := ⟨t.onDirection, t.injective, t.opposite⟩
  invFun f := ⟨f.1, f.2.1, f.2.2⟩
  left_inv _ := rfl
  right_inv _ := rfl

instance : Fintype Symmetry := Fintype.ofEquiv _ equivSubtype.symm

/-- There are eight symmetries. -/
theorem card_eq : Fintype.card Symmetry = 8 := by
  rw [Fintype.card_congr equivSubtype]
  decide +kernel

/-- A quarter turn to the left. -/
def quarter : Symmetry where
  onDirection
    | .left => .down
    | .down => .right
    | .right => .up
    | .up => .left
  injective := by decide
  opposite := by decide

/-- Opposite integers have the same size. Zero and the least integer are their own opposites. -/
private theorem abs_neg (a : Int32) : (-a).abs = a.abs := by
  apply Int32.toBitVec_inj.1
  change (-a.toBitVec).abs = a.toBitVec.abs
  generalize a.toBitVec = x
  rw [BitVec.abs_eq, BitVec.abs_eq, BitVec.msb_neg]
  by_cases hzero : x = 0#32
  · subst hzero
    rfl
  · by_cases hleast : x = BitVec.intMin 32
    · subst hleast
      rfl
    · cases x.msb <;> simp [hzero, hleast]

private theorem natAbs_neg (a : Int32) : (-a).toInt.natAbs = a.toInt.natAbs := by
  have hlow := a.le_toInt
  have hhigh := a.toInt_lt
  rw [Int32.toInt_neg, Int.bmod_def]
  split <;> omega

private theorem max_comm (a b : Int32) : max a b = max b a := by
  change (if a ≤ b then b else a) = if b ≤ a then a else b
  split_ifs with hab hba hba
  · exact Int32.le_antisymm hba hab
  · rfl
  · rfl
  · exact absurd (Int32.le_total a b) (not_or.2 ⟨hab, hba⟩)

theorem mul_unit {a : Int32} (h : a ∈ ([1, -1] : List Int32)) (x : Int32) :
    x * a = x ∨ x * a = -x := by
  rcases List.mem_pair.1 h with rfl | rfl
  · exact Or.inl (Int32.mul_one x)
  · right
    grind

private theorem toInt_mul_unit {a x : Int32} (h : a ∈ ([1, -1] : List Int32))
    (hx : x.toInt.natAbs ≤ maxInt32) : (x * a).toInt = x.toInt * a.toInt := by
  have ha : a.toInt = 1 ∨ a.toInt = -1 := by
    rcases List.mem_pair.1 h with rfl | rfl
    · exact Or.inl rfl
    · exact Or.inr rfl
  unfold maxInt32 at hx
  rw [Int32.toInt_mul]
  rcases ha with ha | ha <;> rw [ha] <;> exact Int.bmod_eq_of_le (by omega) (by omega)

/-- The image of a point: as many steps in the image of each direction. -/
def onPoint (t : Symmetry) (p : Point) : Point :=
  p.along (t.onDirection .right).delta (t.onDirection .up).delta

variable (t : Symmetry)

/-- One step is taken to one step. -/
theorem onPoint_delta (d : Direction) : t.onPoint d.delta = (t.onDirection d).delta := by
  rw [onPoint, Point.along_delta]
  cases d with
  | left =>
    dsimp only
    rw [← Direction.delta_opposite, ← t.opposite]
    rfl
  | down =>
    dsimp only
    rw [← Direction.delta_opposite, ← t.opposite]
    rfl
  | right => rfl
  | up => rfl

theorem onPoint_step (p : Point) (d : Direction) :
    t.onPoint (p.step d) = (t.onPoint p).step (t.onDirection d) := by
  rw [Point.step, onPoint, Point.along_add]
  change t.onPoint p + t.onPoint d.delta = _
  rw [onPoint_delta]
  rfl

/-- A symmetry keeps the axes or exchanges them, and keeps or changes the sign along each. -/
theorem exists_units : ∃ a ∈ ([1, -1] : List Int32), ∃ b ∈ ([1, -1] : List Int32),
    ((t.onDirection .right).delta = ⟨a, 0⟩ ∧ (t.onDirection .up).delta = ⟨0, b⟩ ∧
      ∀ p, t.onPoint p = ⟨p.x * a, p.y * b⟩) ∨
    ((t.onDirection .right).delta = ⟨0, a⟩ ∧ (t.onDirection .up).delta = ⟨b, 0⟩ ∧
      ∀ p, t.onPoint p = ⟨p.y * b, p.x * a⟩) := by
  have hsame : t.onDirection .up ≠ t.onDirection .right :=
    fun h => absurd (t.injective h) (by decide)
  have hopposite : t.onDirection .up ≠ (t.onDirection .right).opposite := by
    rw [← t.opposite]
    exact fun h => absurd (t.injective h) (by decide)
  obtain ⟨a, ha, b, hb, ⟨hright, hup⟩ | ⟨hright, hup⟩⟩ :=
    Direction.delta_of_perpendicular _ _ hsame hopposite
  · refine ⟨a, ha, b, hb, Or.inl ⟨hright, hup, ?_⟩⟩
    intro p
    simp [onPoint, Point.along, hright, hup]
  · refine ⟨a, ha, b, hb, Or.inr ⟨hright, hup, ?_⟩⟩
    intro p
    simp [onPoint, Point.along, hright, hup]

/-- The image of a point has its coordinates up to their signs, or has them exchanged. -/
theorem coordinates_onPoint (p : Point) :
    ((t.onPoint p).x = p.x ∨ (t.onPoint p).x = -p.x) ∧
      ((t.onPoint p).y = p.y ∨ (t.onPoint p).y = -p.y) ∨
    ((t.onPoint p).x = p.y ∨ (t.onPoint p).x = -p.y) ∧
      ((t.onPoint p).y = p.x ∨ (t.onPoint p).y = -p.x) := by
  obtain ⟨a, ha, b, hb, ⟨_, _, hp⟩ | ⟨_, _, hp⟩⟩ := t.exists_units
  · left
    rw [hp]
    exact ⟨mul_unit ha _, mul_unit hb _⟩
  · right
    rw [hp]
    exact ⟨mul_unit hb _, mul_unit ha _⟩

/-- Within range, the image of a point is at the image of its site. -/
theorem site_onPoint {p : Point} (h : p.site.InRange) :
    (t.onPoint p).site = p.site.1 • (t.onDirection .right).delta.site +
      p.site.2 • (t.onDirection .up).delta.site := by
  have hs : p.x.toInt.natAbs + p.y.toInt.natAbs ≤ maxInt32 := h
  have hx : p.x.toInt.natAbs ≤ maxInt32 := le_trans (Nat.le_add_right ..) hs
  have hy : p.y.toInt.natAbs ≤ maxInt32 := le_trans (Nat.le_add_left ..) hs
  obtain ⟨a, ha, b, hb, ⟨hright, hup, hp⟩ | ⟨hright, hup, hp⟩⟩ := t.exists_units
  · rw [hp, hright, hup]
    simp [Point.site, toInt_mul_unit ha hx, toInt_mul_unit hb hy]
  · rw [hp, hright, hup]
    simp [Point.site, toInt_mul_unit ha hx, toInt_mul_unit hb hy]

/-- Integers that agree up to their sign have the same size. The least one is its own negative. -/
theorem size_eq_of_sign {a b : Int32} (h : a = b ∨ a = -b) :
    a.abs = b.abs ∧ a.toInt.natAbs = b.toInt.natAbs := by
  rcases h with rfl | rfl
  · exact ⟨rfl, rfl⟩
  · exact ⟨abs_neg b, natAbs_neg b⟩

/-- The image of a point is at the same distances. -/
theorem radii_onPoint (p : Point) : (t.onPoint p).radii = p.radii := by
  rw [Point.radii_eq, Point.radii_eq]
  rcases t.coordinates_onPoint p with ⟨hx, hy⟩ | ⟨hx, hy⟩
  · rw [(size_eq_of_sign hx).1, (size_eq_of_sign hy).1]
  · rw [(size_eq_of_sign hx).1, (size_eq_of_sign hy).1, max_comm, Int32.add_comm]

/-- The image of a point is on a line through the origin exactly when the point is. -/
theorem sector_onPoint_eq_line_iff (p : Point) :
    (t.onPoint p).sector = .line ↔ p.sector = .line := by
  rw [Point.sector_eq_line_iff, Point.sector_eq_line_iff]
  rcases t.coordinates_onPoint p with ⟨hx, hy⟩ | ⟨hx, hy⟩
  · rw [(size_eq_of_sign hx).2, (size_eq_of_sign hy).2]
  · rw [(size_eq_of_sign hx).2, (size_eq_of_sign hy).2]
    omega

/-- Only the origin is taken to the origin. -/
theorem onPoint_eq_origin_iff (p : Point) : t.onPoint p = .origin ↔ p = .origin := by
  rw [Point.eq_origin_iff_natAbs, Point.eq_origin_iff_natAbs]
  rcases t.coordinates_onPoint p with ⟨hx, hy⟩ | ⟨hx, hy⟩
  · rw [(size_eq_of_sign hx).2, (size_eq_of_sign hy).2]
  · rw [(size_eq_of_sign hx).2, (size_eq_of_sign hy).2]
    omega

/-- Walks are redrawn by a symmetry, with everything at its place in the text. -/
def turning : Redrawing where
  onDirection := t.onDirection
  onPoint := t.onPoint
  onOffset offset := offset
  onPoint_step := t.onPoint_step
  radii_onPoint := t.radii_onPoint
  onPoint_eq_origin := t.onPoint_eq_origin_iff

/-! ### Turned texts -/

/-- The character with its direction turned, if it is a move. -/
def onChar (c : Char) : Char :=
  match Command.ofChar? c with
  | some (.move d) => (Command.move (t.onDirection d)).char
  | _ => c

/-- A turned character stands for the turned command. -/
theorem ofChar?_onChar (c : Char) :
    Command.ofChar? (t.onChar c) = (Command.ofChar? c).map t.turning.onCommand := by
  unfold onChar
  rcases hc : Command.ofChar? c with _ | d | _
  · exact hc
  · exact Command.ofChar?_eq_some_iff.2 rfl
  · exact hc

/-- A turned character has as many bytes. -/
theorem utf8Size_onChar (c : Char) : (t.onChar c).utf8Size = c.utf8Size := by
  unfold onChar
  rcases hc : Command.ofChar? c with _ | d | _
  · rfl
  · rw [Command.ofChar?_eq_some_iff.1 hc, Command.utf8Size_char, Command.utf8Size_char]
  · rfl

open Itinerary in
/-- The commands of a turned text are the turned commands, at their old places. -/
theorem waypoints_map_onChar (position : ℕ) (text : List Char) :
    waypoints position (text.map t.onChar) =
      (waypoints position text).map t.turning.onWaypoint := by
  induction text generalizing position with
  | nil => rfl
  | cons c rest ih =>
    rw [List.map_cons, waypoints, waypoints, ofChar?_onChar, utf8Size_onChar, ih, List.map_append]
    cases Command.ofChar? c <;> rfl

open Itinerary in
/-- A turned text has as many bytes. -/
theorem utf8ByteSize_map_onChar (text : String) :
    (text.map t.onChar).utf8ByteSize = text.utf8ByteSize := by
  rw [← size_toList, ← size_toList, String.toList_map]
  induction text.toList with
  | nil => rfl
  | cons c rest ih => rw [List.map_cons, size_cons, size_cons, utf8Size_onChar, ih]

/-! ### Turned results -/

/-- An instruction at the image of a point: it is at the same distances, and does nothing exactly
when the other does nothing. -/
structure TakesInstruction (a b : Instruction) : Prop where
  /-- Both are at the same distances. -/
  radii : b.radii = a.radii
  /-- The second is at the image of the point. -/
  point : b.point = t.onPoint a.point
  /-- Both do nothing, or none does. -/
  nop : b.action = .nop ↔ a.action = .nop

/-- A visit to the image of a point, with the same number, at the same place in the text. -/
structure TakesVisit (u v : Visit) : Prop where
  /-- Both have the same number. -/
  index : v.index = u.index
  /-- Both are at the same place. -/
  offset : v.offset = u.offset
  /-- The second is at the image of the point. -/
  point : v.point = t.onPoint u.point
  /-- Both points are at the same distances. -/
  radii : v.point.radii = u.point.radii

/-- What a text and the turned text compile to. -/
inductive TakesResult :
    Except CompileError Compilation → Except CompileError Compilation → Prop
  /-- Programs that correspond instruction by instruction, with warnings about the same places. -/
  | ok {c c' : Compilation} : List.Forall₂ t.TakesInstruction c.program.instructions.toList
      c'.program.instructions.toList → c'.warnings.map Warning.span = c.warnings.map Warning.span →
      TakesResult (.ok c) (.ok c')
  /-- Clashes of visits that correspond. -/
  | clash {r r' : Route} {u v u' v' : Visit} : t.TakesVisit u u' → t.TakesVisit v v' →
      TakesResult (.error (.clash r u v)) (.error (.clash r' u' v'))
  /-- Walks that are lost at points that correspond, at the same end of the text. -/
  | lost {r r' : Route} {finish : Point} : r'.endSpan = r.endSpan →
      TakesResult (.error (.lost r finish)) (.error (.lost r' (t.onPoint finish)))

/-- Results that correspond are both programs, or none is. -/
theorem TakesResult.exists_ok_iff {t : Symmetry} {a b : Except CompileError Compilation}
    (h : t.TakesResult a b) : (∃ c, a = .ok c) ↔ ∃ c, b = .ok c := by
  cases h with
  | ok _ _ => exact ⟨fun _ => ⟨_, rfl⟩, fun _ => ⟨_, rfl⟩⟩
  | clash _ _ => simp
  | lost _ => simp

theorem takesVisit_onVisit (v : Visit) : t.TakesVisit v (t.turning.onVisit v) :=
  ⟨rfl, rfl, rfl, t.radii_onPoint v.point⟩

theorem takesInstruction_onVisit (v : Visit) :
    t.TakesInstruction v.instruction (t.turning.onVisit v).instruction := by
  refine ⟨t.radii_onPoint v.point, rfl, ?_⟩
  change Action.ofSector (t.onPoint v.point).sector v.steps = .nop ↔
    Action.ofSector v.point.sector v.steps = .nop
  rw [Action.ofSector_eq_nop_iff, Action.ofSector_eq_nop_iff, sector_onPoint_eq_line_iff]

/-- Compiling a turned text gives what compiling the text gives, turned. -/
theorem takesResult_compile (name text : String) (config : Config) :
    t.TakesResult (Route.compile ⟨name, text⟩ config)
      (Route.compile ⟨name, text.map t.onChar⟩ config) := by
  have hsize : Route.size ⟨name, text.map t.onChar⟩ = Route.size ⟨name, text⟩ :=
    t.utf8ByteSize_map_onChar text
  simp only [Route.compile, Itinerary.waypoints?_eq, String.toList_map, waypoints_map_onChar,
    Redrawing.walk_map]
  cases walk (Itinerary.waypoints 0 text.toList) with
  | clash u v => exact .clash (t.takesVisit_onVisit u) (t.takesVisit_onVisit v)
  | lost finish => exact .lost (congrArg (Span.mk · 0) hsize)
  | home visits trailing =>
    refine .ok ?_ ?_
    · rw [List.map_map]
      exact Program.forall₂_ofList config (fun v => t.radii_onPoint v.point)
        t.takesInstruction_onVisit visits
    · cases trailing with
      | none => rfl
      | some offset => exact congrArg (fun n => [Span.mk offset (n - offset)]) hsize

end Symmetry

/-- The grid has eight symmetries that fix the origin, and the image of a point in range is exact. A
text compiles if and only if the text with its moves turned by one of them does. The two programs
then correspond instruction by instruction: at the same distances, at points that the symmetry takes
to each other, and with actions that both do nothing or both do something. Warnings are about the
same places, and errors are of the same kind, with the same numbers, distances and places, about
points that the symmetry takes to each other. -/
theorem compile_turned :
    Fintype.card Symmetry = 8 ∧
    ∀ t : Symmetry,
      (∀ p : Point, p.site.InRange → (t.onPoint p).site =
        p.site.1 • (t.onDirection .right).delta.site +
          p.site.2 • (t.onDirection .up).delta.site) ∧
      ∀ (name text : String) (config : Config),
        ((∃ c, Route.compile ⟨name, text⟩ config = .ok c) ↔
          ∃ c, Route.compile ⟨name, text.map t.onChar⟩ config = .ok c) ∧
        t.TakesResult (Route.compile ⟨name, text⟩ config)
          (Route.compile ⟨name, text.map t.onChar⟩ config) := by
  refine ⟨Symmetry.card_eq, ?_⟩
  intro t
  refine ⟨fun p => t.site_onPoint, ?_⟩
  intro name text config
  have hresult := t.takesResult_compile name text config
  exact ⟨hresult.exists_ok_iff, hresult⟩

/-- A text with one visit, and the text of the walk a quarter turn on. -/
theorem compile_turned_quarter :
    Point.site ⟨3, 1⟩ = (3, 1) ∧ (Symmetry.quarter.onPoint ⟨3, 1⟩).site = (-1, 3) ∧
    "DDDW$AAAS$".map Symmetry.quarter.onChar = "WWWA$SSSD$" ∧
    Symmetry.quarter.TakesResult (Route.compile ⟨"", "DDDW$AAAS$"⟩)
      (Route.compile ⟨"", "WWWA$SSSD$"⟩) := by
  have hturned : "DDDW$AAAS$".map Symmetry.quarter.onChar = "WWWA$SSSD$" := by
    rw [← String.toList_inj, String.toList_map]
    decide
  have hrange : Site.InRange (Point.site ⟨3, 1⟩) := by decide
  obtain ⟨hsite, hcompile⟩ := compile_turned.2 Symmetry.quarter
  refine ⟨by decide, ?_, hturned, ?_⟩
  · exact (hsite ⟨3, 1⟩ hrange).trans (by decide)
  · rw [← hturned]
    exact (hcompile "" "DDDW$AAAS$" {}).2

end GridWalk
