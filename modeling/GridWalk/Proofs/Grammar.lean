import GridWalk.Proofs.Scan

/-!
# The grammar of routes

Routes are written in a grammar of parsing expressions: choices are ordered, repetitions take all
they can, and an expression can ask for another one not to match. A match consumes text and leaves
the lexemes of its marked rules. `Matches` is the meaning of such a grammar, success and failure
alike, and gives a rule no second outcome on a text. Reading a text by a rule finds the outcome
that the grammar says it has. For a whole route that is always a match, whose lexemes are exactly
the commands of the text.
-/

namespace GridWalk

namespace Grammar

/-! ### Parsing expressions -/

/-- Parsing expressions over the rules of routes. -/
inductive Pattern where
  /-- The start of the text. -/
  | start
  /-- The end of the text, which is marked. -/
  | finish
  /-- One given character. -/
  | char (c : Char)
  /-- One character, whichever it is. -/
  | any
  /-- What a rule stands for. -/
  | rule (rule : Rule)
  /-- One expression and then another. -/
  | seq (first second : Pattern)
  /-- One expression, or another where the first does not match. -/
  | either (first second : Pattern)
  /-- One expression over and over, until it does not match. -/
  | many (each : Pattern)
  /-- Nothing, where an expression does not match. -/
  | absent (refused : Pattern)
  deriving DecidableEq, Repr

/-- One of these commands, tried in order, or else a last expression. -/
def firstOf (commands : List Command) (last : Pattern) : Pattern :=
  commands.foldr (fun k e => .either (.rule (.command k)) e) last

/-- One of the commands. -/
def anyCommand : Pattern :=
  firstOf [.move .left, .move .down, .move .right, .move .up] (.rule (.command .visit))

/-- What a rule stands for. -/
def body : Rule → Pattern
  | .command k => .char k.char
  | .comment => .seq (.absent anyCommand) .any
  | .token =>
    firstOf [.move .left, .move .down, .move .right, .move .up, .visit] (.rule .comment)
  | .program => .seq .start (.seq (.many (.rule .token)) .finish)

/-- What a match of a rule is marked as. Tokens as such are not marked, and commentary is not. -/
def mark? : Rule → Option Mark
  | .command k => some (.command k)
  | .program => some .program
  | .comment | .token => none

/-- A place in a text. -/
structure Place where
  /-- The number of bytes before it. -/
  position : ℕ
  /-- The text behind it. -/
  rest : List Char
  deriving DecidableEq, Repr

/-- The lexeme of a marked rule that matches from one place to another. -/
def marked (r : Rule) (s t : Place) : List Lexeme :=
  ((mark? r).map (⟨·, s.position, t.position⟩)).toList

/-- `Matches e s o` says what comes of an expression at a place: the lexemes that the match leaves
and the place behind it, or `none` where it does not match. -/
inductive Matches : Pattern → Place → Option (List Lexeme × Place) → Prop
  | start {text} : Matches .start ⟨0, text⟩ (some ([], ⟨0, text⟩))
  | notStart {n text} : Matches .start ⟨n + 1, text⟩ none
  | finish {n} : Matches .finish ⟨n, []⟩ (some ([⟨.finish, n, n⟩], ⟨n, []⟩))
  | notFinish {n c rest} : Matches .finish ⟨n, c :: rest⟩ none
  | char {n c rest} : Matches (.char c) ⟨n, c :: rest⟩ (some ([], ⟨n + c.utf8Size, rest⟩))
  | notChar {n c d rest} : d ≠ c → Matches (.char c) ⟨n, d :: rest⟩ none
  | noChar {n c} : Matches (.char c) ⟨n, []⟩ none
  | any {n c rest} : Matches .any ⟨n, c :: rest⟩ (some ([], ⟨n + c.utf8Size, rest⟩))
  | noneLeft {n} : Matches .any ⟨n, []⟩ none
  | rule {r s l t} : Matches (body r) s (some (l, t)) →
      Matches (.rule r) s (some (marked r s t ++ l, t))
  | notRule {r s} : Matches (body r) s none → Matches (.rule r) s none
  | seq {e f s l t l' u} : Matches e s (some (l, t)) → Matches f t (some (l', u)) →
      Matches (.seq e f) s (some (l ++ l', u))
  | notFirst {e f s} : Matches e s none → Matches (.seq e f) s none
  | notSecond {e f s l t} : Matches e s (some (l, t)) → Matches f t none →
      Matches (.seq e f) s none
  | either {e f s m} : Matches e s (some m) → Matches (.either e f) s (some m)
  | orElse {e f s o} : Matches e s none → Matches f s o → Matches (.either e f) s o
  | many {e s l t l' u} : Matches e s (some (l, t)) → Matches (.many e) t (some (l', u)) →
      Matches (.many e) s (some (l ++ l', u))
  | noMore {e s} : Matches e s none → Matches (.many e) s (some ([], s))
  | absent {e s} : Matches e s none → Matches (.absent e) s (some ([], s))
  | notAbsent {e s m} : Matches e s (some m) → Matches (.absent e) s none

/-- An expression has one outcome at a place, as the outcomes of its parts decide which case it
is. -/
theorem Matches.unique {e : Pattern} {s : Place} {o o' : Option (List Lexeme × Place)}
    (h : Matches e s o) (h' : Matches e s o') : o = o' := by
  induction h generalizing o' with
  | start | notStart | finish | notFinish | noChar | any | noneLeft => cases h'; rfl
  | char =>
    cases h' with
    | char => rfl
    | notChar hne => exact absurd rfl hne
  | notChar hne =>
    cases h' with
    | char => exact absurd rfl hne
    | notChar => rfl
  | rule _ ih =>
    cases h' with
    | rule hr => cases ih hr; rfl
    | notRule hr => cases ih hr
  | notRule _ ih =>
    cases h' with
    | rule hr => cases ih hr
    | notRule => rfl
  | seq _ _ ihe ihf =>
    cases h' with
    | seq he hf => cases ihe he; cases ihf hf; rfl
    | notFirst he => cases ihe he
    | notSecond he hf => cases ihe he; cases ihf hf
  | notFirst _ ihe =>
    cases h' with
    | seq he => cases ihe he
    | notFirst => rfl
    | notSecond he => cases ihe he
  | notSecond _ _ ihe ihf =>
    cases h' with
    | seq he hf => cases ihe he; cases ihf hf
    | notFirst | notSecond => rfl
  | either _ ihe =>
    cases h' with
    | either he => exact ihe he
    | orElse he => cases ihe he
  | orElse _ _ ihe ihf =>
    cases h' with
    | either he => cases ihe he
    | orElse _ hf => exact ihf hf
  | many _ _ ihe ihm =>
    cases h' with
    | many he hm => cases ihe he; cases ihm hm; rfl
    | noMore he => cases ihe he
  | noMore _ ihe =>
    cases h' with
    | many he => cases ihe he
    | noMore => rfl
  | absent _ ihe =>
    cases h' with
    | absent => rfl
    | notAbsent he => cases ihe he
  | notAbsent _ ihe =>
    cases h' with
    | absent he => cases ihe he
    | notAbsent => rfl

/-- A rule without a mark is only a name. -/
theorem Matches.silent {r : Rule} {s : Place} {o : Option (List Lexeme × Place)}
    (hr : mark? r = none) (h : Matches (body r) s o) : Matches (.rule r) s o := by
  cases o with
  | none => exact .notRule h
  | some m =>
    have hm := Matches.rule h
    rwa [marked, hr] at hm

/-! ### The rules that match one character -/

/-- What the match of a token on the character `c` leaves. -/
def taken (t : Token) (c : Char) (n : ℕ) (rest : List Char) : List Lexeme × Place :=
  (t.lexemes c n, ⟨n + c.utf8Size, rest⟩)

section
variable (n : ℕ) (c : Char) (rest : List Char)

/-- A command matches its own character. -/
theorem matches_command (k : Command) :
    Matches (.rule (.command k)) ⟨n, c :: rest⟩
      (if k.char == c then some (taken (.command k) c n rest) else none) := by
  by_cases h : k.char = c
  · subst h
    rw [if_pos (beq_self_eq_true _)]
    exact @Matches.rule (.command k) _ _ _ .char
  · rw [if_neg (mt beq_iff_eq.1 h)]
    exact @Matches.notRule (.command k) _ (.notChar (Ne.symm h))

variable {c}

/-- Of some commands the first that stands for the character matches. Where none does, the last
expression decides. -/
theorem matches_firstOf {commands : List Command} {last : Pattern}
    {o : Option (List Lexeme × Place)}
    (hl : commands.find? (fun k => k.char == c) = none → Matches last ⟨n, c :: rest⟩ o) :
    Matches (firstOf commands last) ⟨n, c :: rest⟩
      (((commands.find? fun k => k.char == c).map fun k => taken (.command k) c n rest).or o) := by
  induction commands with
  | nil => exact hl rfl
  | cons k commands ih =>
    have hk := matches_command n c rest k
    rw [List.find?_cons] at hl ⊢
    cases hc : k.char == c with
    | true =>
      rw [hc] at hk
      exact .either hk
    | false =>
      rw [hc] at hk hl
      exact .orElse hk (ih hl)

variable (c)

/-- The commands match a character that stands for one of them. -/
theorem matches_anyCommand :
    Matches anyCommand ⟨n, c :: rest⟩
      ((Command.ofChar? c).map fun k => taken (.command k) c n rest) := by
  have h := @matches_firstOf n c rest [.move .left, .move .down, .move .right, .move .up] _ _
    fun _ => matches_command n c rest .visit
  have hall : Command.all = [.move .left, .move .down, .move .right, .move .up] ++ [.visit] := rfl
  rw [Command.ofChar?, hall, List.find?_append, Option.map_or, List.find?_singleton]
  cases hc : Command.visit.char == c <;> rwa [hc] at h

/-- Commentary matches a character that is no command. -/
theorem matches_comment :
    Matches (.rule .comment) ⟨n, c :: rest⟩
      ((Token.comment? c).map fun t => taken t c n rest) := by
  have h := matches_anyCommand n c rest
  unfold Token.comment?
  cases hc : Command.ofChar? c with
  | none =>
    rw [hc] at h
    exact .silent rfl (.seq (.absent h) .any)
  | some k =>
    rw [hc] at h
    exact .silent rfl (.notFirst (.notAbsent h))

/-- A token matches as its character reads. -/
theorem matches_token :
    Matches (.rule .token) ⟨n, c :: rest⟩
      ((Token.ofChar? c).map fun t => taken t c n rest) := by
  have h := @matches_firstOf n c rest Command.all _ _ fun _ => matches_comment n c rest
  rw [Token.ofChar?, Option.map_or, Option.map_map]
  exact .silent rfl h

end

/-- At the end of a text no rule for one character matches. -/
theorem matches_nil {r : Rule} (hr : r ≠ .program) (n : ℕ) : Matches (.rule r) ⟨n, []⟩ none := by
  have hcommand (k : Command) : Matches (.rule (.command k)) ⟨n, []⟩ none := .notRule .noChar
  have hfirst (commands : List Command) {last : Pattern} (hl : Matches last ⟨n, []⟩ none) :
      Matches (firstOf commands last) ⟨n, []⟩ none := by
    induction commands with
    | nil => exact hl
    | cons k commands ih => exact .orElse (hcommand k) ih
  have hcomment : Matches (.rule .comment) ⟨n, []⟩ none :=
    .notRule (.notSecond (.absent (hfirst _ (hcommand .visit))) .noneLeft)
  cases r with
  | command k => exact hcommand k
  | comment => exact hcomment
  | token => exact .notRule (hfirst _ hcomment)
  | program => exact absurd rfl hr

/-! ### Whole texts -/

open Itinerary

/-- A scan passes the bytes of the text. -/
theorem position_scan (found : List Lexeme) (n : ℕ) (text : List Char) :
    (scan found n text).position = n + size text := by
  induction text generalizing found n with
  | nil => rfl
  | cons c rest ih =>
    simp only [scan, Token.ofChar?_eq]
    rw [ih, size_cons, Nat.add_assoc]

/-- Tokens over and over match as the text is scanned. -/
theorem matches_tokens (n : ℕ) (text : List Char) :
    Matches (.many (.rule .token)) ⟨n, text⟩
      (some ((scan [] n text).lexemes, ⟨n + size text, []⟩)) := by
  induction text generalizing n with
  | nil => exact .noMore (matches_nil (by simp) n)
  | cons c rest ih =>
    have htoken := matches_token n c rest
    rw [Token.ofChar?_eq, Option.map_some] at htoken
    have h := Matches.many htoken (ih (n + c.utf8Size))
    simp only [scan, Token.ofChar?_eq]
    rw [lexemes_scan, List.append_nil, List.reverse_reverse, size_cons, ← Nat.add_assoc]
    exact h

/-- A whole text matches as a route. -/
theorem matches_program (text : List Char) :
    Matches (.rule .program) ⟨0, text⟩
      (some (⟨.program, 0, size text⟩ :: (scan [] 0 text).lexemes ++
        [⟨.finish, size text, size text⟩], ⟨size text, []⟩)) := by
  have htokens := matches_tokens 0 text
  rw [Nat.zero_add] at htokens
  exact @Matches.rule .program _ _ _ (.seq .start (.seq htokens .finish))

/-- Reading a text by a rule finds what the grammar says comes of it. -/
theorem exists_matches (r : Rule) (text : List Char) :
    ∃ o, Matches (.rule r) ⟨0, text⟩ o ∧ r.parse? text = o.map Prod.fst := by
  by_cases hr : r = .program
  · subst hr
    refine ⟨_, matches_program text, ?_⟩
    simp only [Rule.parse?, rest_scan, position_scan, List.isEmpty_nil, ite_true, Nat.zero_add,
      Option.map_some]
  · cases text with
    | nil =>
      refine ⟨none, matches_nil hr 0, ?_⟩
      cases r with
      | program => exact absurd rfl hr
      | _ => rfl
    | cons c rest =>
      cases r with
      | program => exact absurd rfl hr
      | command k =>
        refine ⟨_, matches_command 0 c rest k, ?_⟩
        by_cases h : c = k.char
        · rw [Rule.parse?, if_pos h, if_pos (beq_iff_eq.2 h.symm)]
          rfl
        · rw [Rule.parse?, if_neg h, if_neg (mt beq_iff_eq.1 (Ne.symm h))]
          rfl
      | comment =>
        refine ⟨_, matches_comment 0 c rest, ?_⟩
        rw [Option.map_map]
        rfl
      | token =>
        refine ⟨_, matches_token 0 c rest, ?_⟩
        rw [Option.map_map]
        rfl

/-! ### The commands of a text -/

/-- The command that a character stands for. -/
def commandOf? : Char → Option Command
  | 'A' => some (.move .left)
  | 'S' => some (.move .down)
  | 'D' => some (.move .right)
  | 'W' => some (.move .up)
  | '$' => some .visit
  | _ => none

theorem commandOf?_eq_some_iff {c : Char} {k : Command} : commandOf? c = some k ↔ c = k.char := by
  constructor
  · intro h
    unfold commandOf? at h
    split at h <;> cases h <;> rfl
  · rintro rfl
    rcases k with d | _
    · cases d <;> rfl
    · rfl

theorem commandOf?_eq (c : Char) : commandOf? c = Command.ofChar? c := by
  ext k
  rw [commandOf?_eq_some_iff, Command.ofChar?_eq_some_iff]

/-- One lexeme for each character of a text that is a command, over the byte of that character. -/
def commandLexemes (text : List Char) : List Lexeme :=
  (List.range text.length).filterMap fun i =>
    (text[i]?.bind commandOf?).map fun k =>
      ⟨.command k, size (text.take i), size (text.take i) + 1⟩

theorem commandLexemes_append_singleton (text : List Char) (c : Char) :
    commandLexemes (text ++ [c]) = commandLexemes text ++
      ((commandOf? c).map fun k => ⟨.command k, size text, size text + 1⟩).toList := by
  unfold commandLexemes
  rw [List.length_append, List.length_singleton, List.range_succ, List.filterMap_append]
  congr 1
  · apply List.filterMap_congr
    intro i hi
    have hlt := List.mem_range.1 hi
    rw [List.getElem?_append_left hlt, List.take_append_of_le_length hlt.le]
  · cases hc : commandOf? c <;> simp [hc]

/-- The commands of a text lie over its command characters. -/
theorem mem_commandLexemes {text : List Char} {l : Lexeme} :
    l ∈ commandLexemes text ↔ ∃ p c q k, text = p ++ c :: q ∧ commandOf? c = some k ∧
      l = ⟨.command k, size p, size p + 1⟩ := by
  constructor
  · intro h
    obtain ⟨i, _, hl⟩ := List.mem_filterMap.1 h
    obtain ⟨k, hk, rfl⟩ := Option.map_eq_some_iff.1 hl
    obtain ⟨c, hc, hk⟩ := Option.bind_eq_some_iff.1 hk
    obtain ⟨hlt, rfl⟩ := List.getElem?_eq_some_iff.1 hc
    refine ⟨text.take i, _, text.drop (i + 1), k, ?_, hk, rfl⟩
    rw [← List.drop_eq_getElem_cons hlt, List.take_append_drop]
  · rintro ⟨p, c, q, k, rfl, hk, rfl⟩
    refine List.mem_filterMap.2 ⟨p.length, by simp, ?_⟩
    simp [hk]

/-- A lexeme of a command ends where the character does. -/
theorem size_append_command {p : List Char} {c : Char} {k : Command} (h : commandOf? c = some k) :
    size (p ++ [c]) = size p + 1 := by
  rw [size_append, size_singleton, commandOf?_eq_some_iff.1 h, Command.utf8Size_char]

/-- The commands of a text follow each other without an overlap. -/
theorem pairwise_commandLexemes (text : List Char) :
    (commandLexemes text).Pairwise fun a b => a.stop ≤ b.start := by
  induction text using List.reverseRecOn with
  | nil => exact .nil
  | append_singleton text c ih =>
    rw [commandLexemes_append_singleton]
    refine List.pairwise_append.2 ⟨ih, ?_, ?_⟩
    · cases commandOf? c <;> simp
    · intro a ha b hb
      obtain ⟨p, d, q, j, rfl, hj, rfl⟩ := mem_commandLexemes.1 ha
      obtain ⟨k, _, rfl⟩ := Option.map_eq_some_iff.1 (Option.mem_toList.1 hb)
      have hsize := @size_append_command p d j hj
      change size p + 1 ≤ size (p ++ d :: q)
      rw [List.append_cons, size_append]
      omega

/-- A text is scanned one part after the other. -/
theorem lexemes_scan_append (n : ℕ) (text rest : List Char) :
    (scan [] n (text ++ rest)).lexemes =
      (scan [] n text).lexemes ++ (scan [] (n + size text) rest).lexemes := by
  induction text generalizing n with
  | nil => rfl
  | cons c text ih =>
    simp only [List.cons_append, scan, Token.ofChar?_eq]
    rw [lexemes_scan, lexemes_scan (_ ++ []), ih, List.append_assoc, size_cons, Nat.add_assoc]

/-- The scan of a text finds its commands. -/
theorem lexemes_scan_eq (text : List Char) :
    (scan [] 0 text).lexemes = commandLexemes text := by
  induction text using List.reverseRecOn with
  | nil => rfl
  | append_singleton text c ih =>
    rw [lexemes_scan_append, ih, commandLexemes_append_singleton, Nat.zero_add]
    congr 1
    simp only [scan, Token.ofChar?_eq, ← commandOf?_eq]
    cases hc : commandOf? c with
    | none => rfl
    | some k =>
      have hsize : c.utf8Size = 1 := by
        rw [commandOf?_eq_some_iff.1 hc, Command.utf8Size_char]
      simp [Token.lexemes, hsize]

/-- The lexemes of a text mark its commands and nothing else. -/
structure MarksCommands (text : String) (lexemes : List Lexeme) : Prop where
  /-- There is one for each command character, in order, over the byte of that character. -/
  each : lexemes = commandLexemes text.toList
  /-- Each lies on character boundaries. -/
  onBoundary : ∀ l ∈ lexemes, String.Pos.Raw.IsValid text ⟨l.start⟩ ∧
    String.Pos.Raw.IsValid text ⟨l.stop⟩
  /-- Each covers one byte. -/
  oneByte : ∀ l ∈ lexemes, l.stop = l.start + 1
  /-- Each starts behind the end of the one before it. -/
  disjoint : lexemes.Pairwise fun a b => a.start < b.start ∧ a.stop ≤ b.start
  /-- A character outside all of them is no command. -/
  outside : ∀ p c q, text.toList = p ++ c :: q →
    (∀ l ∈ lexemes, ¬ (l.start ≤ size p ∧ size p < l.stop)) → c ∉ ['A', 'S', 'D', 'W', '$']

/-- The bytes before a part of a text end on a character boundary. -/
theorem isValid_size {text : String} {p q : List Char} (h : text.toList = p ++ q) :
    String.Pos.Raw.IsValid text ⟨size p⟩ := by
  refine String.Pos.Raw.isValid_iff_exists_append.2 ⟨.ofList p, .ofList q, ?_, rfl⟩
  rw [← String.ofList_append, ← h, String.ofList_toList]

theorem marksCommands (text : String) : MarksCommands text (commandLexemes text.toList) where
  each := rfl
  onBoundary l hl := by
    obtain ⟨p, c, q, k, h, hk, rfl⟩ := mem_commandLexemes.1 hl
    refine ⟨isValid_size h, ?_⟩
    rw [← size_append_command hk]
    exact isValid_size (h.trans (List.append_cons p c q))
  oneByte l hl := by
    obtain ⟨p, c, q, k, _, _, rfl⟩ := mem_commandLexemes.1 hl
    rfl
  disjoint := by
    refine (pairwise_commandLexemes _).imp_of_mem ?_
    intro a b ha _ hab
    obtain ⟨p, c, q, k, _, _, rfl⟩ := mem_commandLexemes.1 ha
    exact ⟨Nat.lt_of_succ_le hab, hab⟩
  outside p c q h hout hc := by
    obtain ⟨k, hk⟩ : ∃ k, commandOf? c = some k := by
      simp only [List.mem_cons, List.not_mem_nil, or_false] at hc
      rcases hc with rfl | rfl | rfl | rfl | rfl <;> exact ⟨_, rfl⟩
    have hl := mem_commandLexemes.2 ⟨p, c, q, k, h, hk, rfl⟩
    exact hout _ hl ⟨le_rfl, Nat.lt_succ_self _⟩

end Grammar

/-- No text is malformed. -/
theorem Route.compile_ne_malformed (r : Route) (config : Config) (route : Route) :
    r.compile config ≠ .error (.malformed route) := by
  rw [compile, Itinerary.waypoints?_eq]
  dsimp only
  split <;> simp

namespace Grammar

/-- Reading follows the grammar of routes: on each text a rule has one outcome by the grammar, and
reading finds it. Every text is a route, and the lexemes between the first, which spans it, and the
last, which marks its end, mark exactly its commands. So nothing that is compiled is malformed,
whether it is a text or comes from an input. -/
theorem lexemes_are_commands :
    (∀ (r : Rule) (text : String), ∃ o,
      (∀ o', Matches (.rule r) ⟨0, text.toList⟩ o' ↔ o' = o) ∧
        r.parse? text.toList = o.map Prod.fst) ∧
    (∀ text : String, ∃ lexemes,
      Rule.program.parse? text.toList =
        some (⟨.program, 0, text.utf8ByteSize⟩ :: lexemes ++
          [⟨.finish, text.utf8ByteSize, text.utf8ByteSize⟩]) ∧
      MarksCommands text lexemes) ∧
    (∀ (r : Route) (config : Config) (route : Route),
      r.compile config ≠ .error (.malformed route)) ∧
    ∀ (name : String) (i : Input) (config : Config) (route : Route),
      Route.compileInput name i config ≠ .error (.malformed route) := by
  refine ⟨?_, ?_, Route.compile_ne_malformed, ?_⟩
  · intro r text
    obtain ⟨o, ho, hparse⟩ := exists_matches r text.toList
    refine ⟨o, fun o' => ⟨fun h => h.unique ho, ?_⟩, hparse⟩
    rintro rfl
    exact ho
  · intro text
    obtain ⟨o, ho, hparse⟩ := exists_matches .program text.toList
    refine ⟨commandLexemes text.toList, ?_, marksCommands text⟩
    rw [hparse, ho.unique (matches_program _), Itinerary.size_toList, lexemes_scan_eq]
    rfl
  · intro name i config route
    unfold Route.compileInput
    split
    · simp
    · exact Route.compile_ne_malformed _ _ _

end Grammar

end GridWalk
