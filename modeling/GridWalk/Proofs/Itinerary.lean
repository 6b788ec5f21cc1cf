import GridWalk.Proofs.Site
import GridWalk.Route.Lexeme
import Mathlib.Data.List.DropRight
import Mathlib.Tactic

/-!
# Texts as walks

A text is read character by character: `A`, `S`, `D` and `W` move, `$` visits, and
everything else is passed over. What a visit amounts to depends on the text before
it: where the walk stands, how many moves it made since the last visit, how many
visits away from the origin came before and how many bytes lie before it. A visit
is therefore named by the text before it, which is one of the `stops` of the whole.
-/

namespace GridWalk.Itinerary

/-- The displacement that a character stands for. -/
def displacement : Char → Site
  | 'A' => (-1, 0)
  | 'S' => (0, -1)
  | 'D' => (1, 0)
  | 'W' => (0, 1)
  | _ => 0

/-- Whether a character is one of the four moves. -/
def isMove (c : Char) : Bool := c == 'A' || c == 'S' || c == 'D' || c == 'W'

/-- Whether a character is a move or a visit. -/
def isCommand (c : Char) : Bool := isMove c || c == '$'

/-- Where the walk of a text stands at its end, on the unbounded grid. -/
def destination (text : List Char) : Site := (text.map displacement).sum

/-- The number of moves of a text. -/
def moves (text : List Char) : ℕ := text.countP isMove

/-- The number of moves behind the last visit of a text, or of all moves if it has none. -/
def stride (text : List Char) : ℕ := moves (text.rtakeWhile (· != '$'))

/-- The parts of a text that lie before one of its visits, the shortest first. -/
def stops (text : List Char) : List (List Char) :=
  ((List.range text.length).filter fun i => text[i]? == some '$').map text.take

/-- The stops of a text that are away from the origin. -/
def awayStops (text : List Char) : List (List Char) :=
  (stops text).filter fun p => destination p ≠ 0

/-- The number of bytes of a text. -/
def size (text : List Char) : ℕ := (String.ofList text).utf8ByteSize

/-- A text with fewer than `2 ^ 31` moves, whose walk cannot leave the range. -/
def InRange (text : List Char) : Prop := moves text ≤ maxInt32

instance : DecidablePred InRange := fun text => inferInstanceAs (Decidable (moves text ≤ maxInt32))

/-- A text without commands. -/
def IsComment (text : List Char) : Prop := ∀ c ∈ text, isCommand c = false

/-! ### Characters -/

/-- A character is a move, the visit, or commentary. -/
theorem char_cases (c : Char) :
    (∃ d, Command.ofChar? c = some (.move d) ∧ isMove c = true ∧ c ≠ '$' ∧
      Point.ofSite (displacement c) = d.delta) ∨
    c = '$' ∨
    Command.ofChar? c = none ∧ isCommand c = false ∧ displacement c = 0 := by
  cases hc : Command.ofChar? c with
  | some k =>
    obtain rfl := Command.ofChar?_eq_some_iff.1 hc
    cases k with
    | visit => exact Or.inr (Or.inl rfl)
    | move d =>
      left
      exact ⟨d, rfl, by cases d <;> rfl, by cases d <;> decide, by cases d <;> rfl⟩
  | none =>
    have hne (k : Command) : c ≠ k.char := by
      intro h
      rw [Command.ofChar?_eq_some_iff.2 h] at hc
      exact Option.some_ne_none k hc
    have ha : c ≠ 'A' := hne (.move .left)
    have hs : c ≠ 'S' := hne (.move .down)
    have hd : c ≠ 'D' := hne (.move .right)
    have hw : c ≠ 'W' := hne (.move .up)
    have hv : c ≠ '$' := hne .visit
    right; right
    refine ⟨rfl, by simp [isCommand, isMove, ha, hs, hd, hw, hv], ?_⟩
    unfold displacement
    split
    · exact absurd rfl ha
    · exact absurd rfl hs
    · exact absurd rfl hd
    · exact absurd rfl hw
    · rfl

/-- Commentary is no command to the walker either, and leaves the walk where it is. -/
theorem comment_char {c : Char} (h : isCommand c = false) :
    Command.ofChar? c = none ∧ isMove c = false ∧ c ≠ '$' ∧ displacement c = 0 := by
  rcases char_cases c with ⟨d, _, hm, _⟩ | rfl | ⟨hc, _, hd⟩
  · simp [isCommand, hm] at h
  · simp [isCommand] at h
  · simp only [isCommand, Bool.or_eq_false_iff, beq_eq_false_iff_ne] at h
    exact ⟨hc, h.1, h.2, hd⟩

/-- A move shifts the walk by one in one coordinate, and nothing else shifts it. -/
theorem natAbs_displacement (c : Char) :
    (displacement c).1.natAbs + (displacement c).2.natAbs = moves [c] := by
  unfold displacement
  split <;> simp_all [moves, isMove]

/-! ### Texts that grow at the end -/

@[simp] theorem destination_append (a b : List Char) :
    destination (a ++ b) = destination a + destination b := by
  simp [destination]

@[simp] theorem destination_singleton (c : Char) : destination [c] = displacement c := by
  simp [destination]

@[simp] theorem moves_append (a b : List Char) : moves (a ++ b) = moves a + moves b :=
  List.countP_append

@[simp] theorem size_append (a b : List Char) : size (a ++ b) = size a + size b := by
  simp [size, String.ofList_append, String.utf8ByteSize_append]

@[simp] theorem size_singleton (c : Char) : size [c] = c.utf8Size := by
  simp [size]

theorem size_cons (c : Char) (text : List Char) : size (c :: text) = c.utf8Size + size text := by
  rw [← List.singleton_append, size_append, size_singleton]

theorem size_toList (text : String) : size text.toList = text.utf8ByteSize := by
  rw [size, String.ofList_toList]

/-- A visit stays where the walk stands. -/
theorem destination_append_visit (text : List Char) :
    destination (text ++ ['$']) = destination text := by
  rw [destination_append]
  exact add_zero _

/-- A visit starts a new stride. -/
theorem stride_append_visit (text : List Char) : stride (text ++ ['$']) = 0 := by
  rw [stride, List.rtakeWhile_concat_neg _ _ _ (by decide)]
  rfl

/-- Any other character belongs to the stride before it. -/
theorem stride_append_singleton (text : List Char) {c : Char} (h : c ≠ '$') :
    stride (text ++ [c]) = stride text + moves [c] := by
  rw [stride, List.rtakeWhile_concat_pos _ _ _ (by simpa using h), moves_append]
  rfl

/-- A character adds a stop to those of the text before it if and only if it is a visit. -/
theorem stops_append_singleton (text : List Char) (c : Char) :
    stops (text ++ [c]) = stops text ++ if c = '$' then [text] else [] := by
  have hold : (List.range text.length).filter (fun i => (text ++ [c])[i]? == some '$') =
      (List.range text.length).filter (fun i => text[i]? == some '$') := by
    apply List.filter_congr
    intro i hi
    rw [List.getElem?_append_left (List.mem_range.1 hi)]
  have htake : ((List.range text.length).filter fun i => text[i]? == some '$').map
      (text ++ [c]).take = stops text := by
    apply List.map_congr_left
    intro i hi
    have hlt := List.mem_range.1 (List.mem_of_mem_filter hi)
    exact List.take_append_of_le_length hlt.le
  rw [stops, List.length_append, List.length_singleton, List.range_succ, List.filter_append,
    List.map_append, hold, htake]
  by_cases hc : c = '$'
  · simp [hc]
  · simp [hc]

theorem stops_append_visit (text : List Char) : stops (text ++ ['$']) = stops text ++ [text] := by
  rw [stops_append_singleton, if_pos rfl]

theorem stops_append_of_ne (text : List Char) {c : Char} (h : c ≠ '$') :
    stops (text ++ [c]) = stops text := by
  rw [stops_append_singleton, if_neg h, List.append_nil]

/-- The stops of a text are what lies before its visits. -/
theorem mem_stops {text p : List Char} : p ∈ stops text ↔ ∃ rest, text = p ++ '$' :: rest := by
  constructor
  · intro h
    obtain ⟨i, hi, rfl⟩ := List.mem_map.1 h
    have hv : text[i]? = some '$' := by simpa using (List.mem_filter.1 hi).2
    obtain ⟨hlt, hc⟩ := List.getElem?_eq_some_iff.1 hv
    refine ⟨text.drop (i + 1), ?_⟩
    rw [← hc, ← List.drop_eq_getElem_cons hlt, List.take_append_drop]
  · rintro ⟨rest, rfl⟩
    refine List.mem_map.2 ⟨p.length, ?_, List.take_left⟩
    simp

/-! ### Commentary -/

theorem isComment_append {a b : List Char} : IsComment (a ++ b) ↔ IsComment a ∧ IsComment b :=
  List.forall_mem_append

theorem isComment_singleton {c : Char} : IsComment [c] ↔ isCommand c = false :=
  List.forall_mem_singleton

theorem IsComment.find?_eq_none {text : List Char} (h : IsComment text) :
    text.find? isCommand = none :=
  List.find?_eq_none.2 fun c hc => by simp [h c hc]

/-- Commentary at the end of a text changes nothing but its size. -/
theorem append_comment {comment : List Char} (h : IsComment comment) (text : List Char) :
    destination (text ++ comment) = destination text ∧ moves (text ++ comment) = moves text ∧
      stride (text ++ comment) = stride text ∧ stops (text ++ comment) = stops text := by
  induction comment using List.reverseRecOn with
  | nil => simp
  | append_singleton comment c ih =>
    obtain ⟨hcomment, hc⟩ := isComment_append.1 h
    obtain ⟨_, hm, hv, hd⟩ := comment_char (isComment_singleton.1 hc)
    obtain ⟨hdest, hmoves, hstride, hstops⟩ := ih hcomment
    have hn : moves [c] = 0 := by simp [moves, hm]
    rw [← List.append_assoc]
    refine ⟨?_, ?_, ?_, ?_⟩
    · rw [destination_append, destination_singleton, hd, add_zero, hdest]
    · rw [moves_append, hn, add_zero, hmoves]
    · rw [stride_append_singleton _ hv, hn, add_zero, hstride]
    · rw [stops_append_of_ne _ hv, hstops]

/-- Commentary may go on to the end of a text, or up to a move, or up to a visit. -/
theorem command_cases (text : List Char) :
    (IsComment text ∧ text.find? isCommand = none) ∨
    (∃ comment c rest, text = comment ++ c :: rest ∧ IsComment comment ∧ isMove c = true ∧
      text.find? isCommand = some c) ∨
    ∃ comment rest, text = comment ++ '$' :: rest ∧ IsComment comment ∧
      text.find? isCommand = some '$' := by
  cases hf : text.find? isCommand with
  | none =>
    refine Or.inl ⟨?_, rfl⟩
    intro c hc
    simpa using List.find?_eq_none.1 hf c hc
  | some c =>
    obtain ⟨hcmd, comment, rest, rfl, hno⟩ := List.find?_eq_some_iff_append.1 hf
    have hc : IsComment comment := fun d hd => by simpa using hno d hd
    rcases Bool.or_eq_true_iff.1 hcmd with hmove | hvisit
    · exact Or.inr (Or.inl ⟨comment, c, rest, rfl, hc, hmove, rfl⟩)
    · obtain rfl := beq_iff_eq.1 hvisit
      exact Or.inr (Or.inr ⟨comment, rest, rfl, hc, rfl⟩)

/-! ### Stops among each other -/

/-- What comes before a stop comes before all that follows it. -/
theorem stops_trans {text p q : List Char} (hq : q ∈ stops p) (hp : p ∈ stops text) :
    q ∈ stops text := by
  obtain ⟨mid, rfl⟩ := mem_stops.1 hq
  obtain ⟨rest, rfl⟩ := mem_stops.1 hp
  exact mem_stops.2 ⟨mid ++ '$' :: rest, by simp⟩

/-- A text keeps its stops when it goes on. -/
theorem stops_isPrefix_append (text rest : List Char) : stops text <+: stops (text ++ rest) := by
  induction rest using List.reverseRecOn with
  | nil => rw [List.append_nil]
  | append_singleton rest c ih =>
    rw [← List.append_assoc, stops_append_singleton]
    exact ih.trans (List.prefix_append _ _)

/-- More visits away from the origin lie before a visit than before an earlier one of them. -/
theorem length_awayStops_lt {p q : List Char} (hq : q ∈ stops p) (h : destination q ≠ 0) :
    (awayStops q).length < (awayStops p).length := by
  obtain ⟨rest, rfl⟩ := mem_stops.1 hq
  have hp : stops q ++ [q] <+: stops (q ++ '$' :: rest) := by
    have hs := stops_isPrefix_append (q ++ ['$']) rest
    rwa [stops_append_visit, ← List.append_cons] at hs
  have ha := (hp.filter fun p => destination p ≠ 0).length_le
  rw [List.filter_append, List.length_append] at ha
  simp only [List.filter_singleton, h, ne_eq, not_false_eq_true, decide_true, cond_true,
    List.length_singleton] at ha
  exact ha

/-- Two stops of a text are the same, or one comes before the other. -/
theorem stops_trichotomy {text p q : List Char} (hp : p ∈ stops text) (hq : q ∈ stops text) :
    p = q ∨ p ∈ stops q ∨ q ∈ stops p := by
  obtain ⟨a, rfl⟩ := mem_stops.1 hp
  obtain ⟨b, he⟩ := mem_stops.1 hq
  rcases List.append_eq_append_iff.1 he with ⟨mid, rfl, ha⟩ | ⟨mid, rfl, hb⟩
  · cases mid with
    | nil => exact Or.inl (List.append_nil p).symm
    | cons c mid =>
      obtain ⟨rfl, _⟩ := List.cons.inj ha
      exact Or.inr (Or.inl (mem_stops.2 ⟨mid, rfl⟩))
  · cases mid with
    | nil => exact Or.inl (List.append_nil q)
    | cons c mid =>
      obtain ⟨rfl, _⟩ := List.cons.inj hb
      exact Or.inr (Or.inr (mem_stops.2 ⟨mid, rfl⟩))

theorem moves_le_of_mem_stops {text p : List Char} (h : p ∈ stops text) :
    moves p ≤ moves text := by
  obtain ⟨rest, rfl⟩ := mem_stops.1 h
  rw [moves_append]
  exact Nat.le_add_right _ _

theorem size_lt_of_mem_stops {text p : List Char} (h : p ∈ stops text) : size p < size text := by
  obtain ⟨rest, rfl⟩ := mem_stops.1 h
  rw [List.append_cons, size_append, size_append, size_singleton]
  have := Char.utf8Size_pos '$'
  omega

theorem stride_le_moves (text : List Char) : stride text ≤ moves text :=
  (List.rtakeWhile_suffix _ text).sublist.countP_le

/-- A walk gets no farther from the origin than it makes moves. -/
theorem natAbs_destination_le (text : List Char) :
    (destination text).1.natAbs + (destination text).2.natAbs ≤ moves text := by
  induction text using List.reverseRecOn with
  | nil => exact le_rfl
  | append_singleton text c ih =>
    have hc := natAbs_displacement c
    rw [destination_append, destination_singleton, moves_append, Prod.fst_add, Prod.snd_add]
    have hx := Int.natAbs_add_le (destination text).1 (displacement c).1
    have hy := Int.natAbs_add_le (destination text).2 (displacement c).2
    omega

theorem InRange.of_append {a b : List Char} (h : InRange (a ++ b)) : InRange a := by
  rw [InRange, moves_append] at h
  exact (Nat.le_add_right _ _).trans h

theorem InRange.of_toList_append {s t : String} (h : InRange (s ++ t).toList) :
    InRange s.toList := by
  rw [String.toList_append] at h
  exact h.of_append

theorem InRange.of_mem_stops {text p : List Char} (h : InRange text) (hp : p ∈ stops text) :
    InRange p := by
  obtain ⟨rest, rfl⟩ := mem_stops.1 hp
  exact h.of_append

/-- The walk of a text in range ends in range. -/
theorem inRange_destination {text : List Char} (h : InRange text) :
    (destination text).InRange :=
  (natAbs_destination_le text).trans h

end GridWalk.Itinerary
