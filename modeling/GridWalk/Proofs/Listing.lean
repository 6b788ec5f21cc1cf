import GridWalk.Proofs.Layout
import Mathlib.Tactic

/-!
# Listings can be read back

A listing joins the texts of instructions line by line, and the text of an instruction joins words:
the name of the action, the operand if there is one, and the two coordinates. No word contains a
blank, and no text is empty or contains a line break, so both joins can be undone. The name and the
operand determine the action, although the 64 bits of a swap depth are shown as a signed number. The
point determines the distances. So a listing determines the instructions.
-/

namespace GridWalk

/-! ### Joins that can be undone -/

section
variable {α : Type*}

/-- A join is empty if there is no part, or only an empty one. -/
theorem intercalate_eq_nil_iff {x : α} {parts : List (List α)} :
    [x].intercalate parts = [] ↔ parts = [] ∨ parts = [[]] := by
  rcases parts with _ | ⟨l, _ | ⟨m, rest⟩⟩
  · simp
  · simp
  · simp [List.intercalate_cons_cons]

/-- Parts that do not contain the separator are determined by their join, unless there is only an
empty one. -/
theorem intercalate_injOn [DecidableEq α] (x : α) :
    Set.InjOn [x].intercalate {parts | parts ≠ [[]] ∧ ∀ l ∈ parts, x ∉ l} := by
  rintro parts ⟨hone, hparts⟩ parts' ⟨hone', hparts'⟩ h
  by_cases hempty : parts = []
  · subst hempty
    exact ((intercalate_eq_nil_iff.1 h.symm).resolve_right hone').symm
  · have hempty' : parts' ≠ [] := by
      rintro rfl
      exact (intercalate_eq_nil_iff.1 h).elim hempty hone
    calc
      parts = ([x].intercalate parts).splitOn x := (List.splitOn_intercalate x hparts hempty).symm
      _ = ([x].intercalate parts').splitOn x := congrArg (List.splitOn x) h
      _ = parts' := List.splitOn_intercalate x hparts' hempty'

/-- A join contains nothing but the separator and what its parts contain. -/
theorem notMem_intercalate {x y : α} (hy : y ≠ x) {parts : List (List α)}
    (h : ∀ l ∈ parts, y ∉ l) : y ∉ [x].intercalate parts := by
  induction parts with
  | nil => exact List.not_mem_nil
  | cons l parts ih =>
    have hl := h l List.mem_cons_self
    have hparts := ih fun m hm => h m (List.mem_cons_of_mem l hm)
    by_cases hempty : parts = []
    · rwa [hempty, List.intercalate_singleton]
    · rw [List.intercalate_cons_of_ne_nil hempty]
      simp [hl, hy, hparts]

end

/-! ### The words of an instruction -/

/-- The decimal of a natural number is written with digits. -/
theorem isDigit_of_mem_repr {n : ℕ} {c : Char} (h : c ∈ n.repr.toList) : c.isDigit = true := by
  rw [Nat.toList_repr] at h
  exact Nat.isDigit_of_mem_toDigits (by omega) (by omega) h

/-- A decimal is written with digits and a sign. -/
theorem mem_repr {n : ℤ} {c : Char} (h : c ∈ n.repr.toList) : c.isDigit = true ∨ c = '-' := by
  cases n with
  | ofNat m => exact .inl (isDigit_of_mem_repr h)
  | negSucc m =>
    have h' : c ∈ ("-" ++ (m + 1).repr).toList := h
    rw [String.toList_append, List.mem_append] at h'
    rcases h' with hc | hc
    · exact .inr (List.mem_singleton.1 hc)
    · exact .inl (isDigit_of_mem_repr hc)

/-- The integer that a decimal shows. -/
def ofDecimal (text : List Char) : ℤ :=
  if text.head? = some '-' then -Nat.ofDigitChars 10 text.tail 0 else Nat.ofDigitChars 10 text 0

/-- An integer is read back from its decimal. -/
theorem ofDecimal_repr (n : ℤ) : ofDecimal n.repr.toList = n := by
  have hdigits (m : ℕ) : Nat.ofDigitChars 10 m.repr.toList 0 = m := by
    rw [Nat.toList_repr, Nat.ofDigitChars_ten_toDigits]
  cases n with
  | ofNat m =>
    have hsign : m.repr.toList.head? ≠ some '-' := by
      intro h
      have hdigit := isDigit_of_mem_repr (List.mem_of_head? h)
      exact absurd hdigit (by decide)
    change ofDecimal m.repr.toList = m
    rw [ofDecimal, if_neg hsign, hdigits]
  | negSucc m =>
    change ofDecimal ("-" ++ (m + 1).repr).toList = -(m + 1 : ℕ)
    rw [String.toList_append]
    change -(Nat.ofDigitChars 10 (m + 1).repr.toList 0 : ℤ) = _
    rw [hdigits]

/-- No two integers have the same decimal. -/
theorem repr_injective : Function.Injective Int.repr := by
  intro m n h
  rw [← ofDecimal_repr m, h, ofDecimal_repr]

namespace Action

/-- The action with a name and an operand. -/
def ofText? : String → Option ℤ → Option Action
  | "nop", none => some .nop
  | "push", some n => some (.push ⟨.ofInt n⟩)
  | "dup", none => some .dup
  | "swap", some n => some (.swap (Int64.ofInt n).toUInt64)
  | "sub", none => some .sub
  | "greater", none => some .greater
  | "jump-zero", some n => some (.jumpZero (.ofNat n.toNat))
  | "getchar", none => some .getChar
  | "putchar", none => some .putChar
  | _, _ => none

/-- An action is read back from its name and its operand. -/
theorem ofText?_name_operand (a : Action) : ofText? a.name a.operand = some a := by
  cases a with
  | push c => simp [ofText?, name, operand]
  | swap depth => simp [ofText?, name, operand]
  | jumpZero radius => simp [ofText?, name, operand]
  | _ => rfl

theorem eq_of_name_of_operand {a b : Action} (hname : a.name = b.name)
    (hoperand : a.operand = b.operand) : a = b := by
  apply Option.some.inj
  rw [← ofText?_name_operand a, ← ofText?_name_operand b, hname, hoperand]

end Action

namespace Instruction

/-- The words of the text of an instruction. -/
def words (a : Instruction) : List (List Char) :=
  a.action.name.toList :: a.action.operand.toList.map (fun n => n.repr.toList) ++
    ['(' :: a.point.x.toInt.repr.toList ++ [','], a.point.y.toInt.repr.toList ++ [')']]

/-- The text of an instruction is its words, with blanks between them. -/
theorem toList_toString (a : Instruction) : (toString a).toList = [' '].intercalate a.words := by
  unfold words
  cases ho : a.action.operand with
  | none =>
    simp only [toString, ho, String.toList_append]
    simp [List.intercalate_cons_cons]
  | some n =>
    simp only [toString, ho, String.toList_append]
    simp [List.intercalate_cons_cons]

/-- No word contains a blank or a line break. -/
theorem notMem_of_mem_words {a : Instruction} {w : List Char} (h : w ∈ a.words) {c : Char}
    (hc : c = ' ' ∨ c = '\n') : c ∉ w := by
  have hname : c ∉ a.action.name.toList := by
    rcases hc with rfl | rfl <;> cases a.action <;> simp only [Action.name] <;> decide
  have hdecimal (n : ℤ) : c ∉ n.repr.toList := by
    intro hn
    rcases hc with rfl | rfl <;> rcases mem_repr hn with h | h <;> revert h <;> decide
  have hmark : c ≠ '(' ∧ c ≠ ',' ∧ c ≠ ')' := by
    rcases hc with rfl | rfl <;> decide
  simp only [words, List.cons_append, List.mem_cons, List.mem_append, List.mem_map,
    List.not_mem_nil, or_false] at h
  rcases h with rfl | ⟨n, _, rfl⟩ | rfl | rfl
  · exact hname
  · exact hdecimal n
  · simp [hmark, hdecimal]
  · simp [hmark, hdecimal]

/-- The words of an instruction determine its action and its point. The coordinates are the last
two words, with or without an operand before them. -/
theorem eq_of_words_eq {a b : Instruction} (h : a.words = b.words) :
    a.action = b.action ∧ a.point = b.point := by
  have hdecimal {m n : ℤ} (h : m.repr.toList = n.repr.toList) : m = n :=
    repr_injective (String.toList_inj.1 h)
  simp only [words, List.cons_append, List.cons.injEq] at h
  obtain ⟨hname, hrest⟩ := h
  obtain ⟨hoperands, hpoint⟩ := List.append_inj' hrest (by simp only [List.length_cons])
  simp only [List.cons.injEq, List.append_cancel_right_eq, and_true, true_and] at hpoint
  constructor
  · apply Action.eq_of_name_of_operand (String.toList_inj.1 hname)
    have hlist := (List.map_inj_right fun _ _ => hdecimal).1 hoperands
    rw [← Option.head?_toList (o := a.action.operand), hlist, Option.head?_toList]
  · exact Point.ext (Int32.toInt_inj.1 (hdecimal hpoint.1)) (Int32.toInt_inj.1 (hdecimal hpoint.2))

/-- The text of an instruction is not empty. -/
theorem toList_toString_ne_nil (a : Instruction) : (toString a).toList ≠ [] := by
  rw [toList_toString, ne_eq, intercalate_eq_nil_iff]
  simp [words]

/-- The text of an instruction stays on one line. -/
theorem lineBreak_notMem_toString (a : Instruction) : '\n' ∉ (toString a).toList := by
  rw [toList_toString]
  exact notMem_intercalate (by decide) fun w hw => notMem_of_mem_words hw (.inr rfl)

/-- The text of an instruction determines its action and its point. -/
theorem eq_of_toString_eq {a b : Instruction} (h : toString a = toString b) :
    a.action = b.action ∧ a.point = b.point := by
  have hwords (a : Instruction) : a.words ≠ [[]] ∧ ∀ w ∈ a.words, ' ' ∉ w :=
    ⟨by simp [words], fun w hw => notMem_of_mem_words hw (.inl rfl)⟩
  apply eq_of_words_eq
  apply intercalate_injOn ' ' (hwords a) (hwords b)
  rw [← toList_toString, ← toList_toString, h]

/-- Instructions of visits are determined by their texts. -/
theorem eq_of_map_toString_eq {l l' : List Instruction}
    (hl : ∀ a ∈ l, ∃ point steps, a = ofVisit point steps)
    (hl' : ∀ a ∈ l', ∃ point steps, a = ofVisit point steps)
    (h : l.map toString = l'.map toString) : l = l' := by
  induction l generalizing l' with
  | nil => exact (List.map_eq_nil_iff.1 h.symm).symm
  | cons a l ih =>
    obtain ⟨b, l', rfl, htext, hrest⟩ := List.map_eq_cons_iff.1 h.symm
    obtain ⟨haction, hpoint⟩ := eq_of_toString_eq htext
    obtain ⟨p, m, rfl⟩ := hl a List.mem_cons_self
    obtain ⟨q, n, rfl⟩ := hl' b List.mem_cons_self
    have hvisit : ofVisit p m = ofVisit q n :=
      Instruction.ext haction.symm hpoint.symm (congrArg Point.radii hpoint.symm)
    rw [hvisit, ih (fun a ha => hl a (List.mem_cons_of_mem _ ha))
      (fun b hb => hl' b (List.mem_cons_of_mem _ hb)) hrest.symm]

end Instruction

/-- A listing determines the text of each instruction. -/
theorem Program.map_toString_eq {p q : Program} (h : p.listing = q.listing) :
    p.instructions.toList.map toString = q.instructions.toList.map toString := by
  have hlines (l : List Instruction) : (l.map toString).map String.toList ≠ [[]] ∧
      ∀ line ∈ (l.map toString).map String.toList, '\n' ∉ line := by
    rw [List.map_map]
    constructor
    · intro hone
      have hmem : [] ∈ l.map (String.toList ∘ toString) := hone ▸ List.mem_singleton_self []
      obtain ⟨a, _, ha⟩ := List.mem_map.1 hmem
      exact a.toList_toString_ne_nil ha
    · intro line hline
      obtain ⟨a, _, rfl⟩ := List.mem_map.1 hline
      exact a.lineBreak_notMem_toString
  apply (List.map_inj_right fun _ _ => String.toList_inj.1).1
  apply intercalate_injOn '\n' (hlines _) (hlines _)
  have hlist := congrArg String.toList h
  rwa [listing, listing, String.toList_intercalate, String.toList_intercalate] at hlist

/-- Two programs of visits with the same listing have the same instructions, whatever their points
and step counts. In particular no two swap depths are shown alike. -/
theorem listing_determines_instructions {l l' : List Instruction} (config config' : Config)
    (hl : ∀ a ∈ l, ∃ point steps, a = .ofVisit point steps)
    (hl' : ∀ a ∈ l', ∃ point steps, a = .ofVisit point steps) :
    ((Program.ofList l config).listing = (Program.ofList l' config').listing →
      (Program.ofList l config).instructions = (Program.ofList l' config').instructions) ∧
    ∀ depth depth' : UInt64,
      (Action.swap depth).operand.map toString = (Action.swap depth').operand.map toString →
        depth = depth' := by
  constructor
  · intro h
    have hperm := Program.toList_ofList_perm l config
    have hperm' := Program.toList_ofList_perm l' config'
    apply Array.toList_inj.1
    exact Instruction.eq_of_map_toString_eq (fun a ha => hl a (hperm.mem_iff.1 ha))
      (fun a ha => hl' a (hperm'.mem_iff.1 ha)) (Program.map_toString_eq h)
  · intro depth depth' h
    have hoperand := Option.map_injective repr_injective h
    exact Action.swap.inj (Action.eq_of_name_of_operand rfl hoperand)

/-- Two visits in either order, the depth of a swap being the largest of its type. -/
theorem listing_determines_instructions_reordered :
    let near := Instruction.ofVisit ⟨0, 1⟩ 1
    let far := Instruction.ofVisit ⟨-1, 5⟩ 18446744073709551615
    let p := Program.ofList [near, far] ⟨false, false⟩
    let q := Program.ofList [far, near] ⟨false, true⟩
    (∀ a ∈ [near, far], ∃ point steps, a = .ofVisit point steps) ∧
    (∀ a ∈ [far, near], ∃ point steps, a = .ofVisit point steps) ∧
    p.listing = "nop (0, 1)\nswap -1 (-1, 5)" ∧ q.listing = "nop (0, 1)\nswap -1 (-1, 5)" ∧
    p.instructions = q.instructions := by
  intro near far p q
  have hp : ∀ a ∈ [near, far], ∃ point steps, a = .ofVisit point steps := by simp [near, far]
  have hq : ∀ a ∈ [far, near], ∃ point steps, a = .ofVisit point steps := by simp [near, far]
  have hordered : [near, far].Pairwise fun a b => a.radii ≤ b.radii := by decide
  have hnodup : ([near, far].map Instruction.radii).Nodup := by decide
  have htext : "\n".intercalate ([near, far].map toString) = "nop (0, 1)\nswap -1 (-1, 5)" := by
    decide
  have hlisting {l : List Instruction} (config : Config) (h : l.Perm [near, far]) :
      (Program.ofList l config).listing = "nop (0, 1)\nswap -1 (-1, 5)" := by
    rw [Program.listing, Program.toList_ofList_of_perm config h hordered hnodup, htext]
  have hlp := hlisting ⟨false, false⟩ (.refl _)
  have hlq := hlisting ⟨false, true⟩ (.swap near far [])
  exact ⟨hp, hq, hlp, hlq, (listing_determines_instructions _ _ hp hq).1 (hlp.trans hlq.symm)⟩

end GridWalk
