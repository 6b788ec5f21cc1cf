import GridWalk.Grid.Point

/-!
# Lexemes of a route

Five characters are commands: four of them move, `$` visits. All others are
commentary. A route is a sequence of tokens, each of them a command or a character
of commentary, up to the end of the text. Commands leave lexemes behind, and
commentary leaves nothing.
-/

namespace GridWalk

/-- What a character tells the walker to do. -/
inductive Command where
  /-- Take a step. -/
  | move (direction : Direction)
  /-- Visit the current point. -/
  | visit
  deriving DecidableEq, Repr

namespace Command

/-- All commands, in the order in which they are tried. -/
def all : List Command := [.move .left, .move .down, .move .right, .move .up, .visit]

/-- The character of a command. -/
def char : Command → Char
  | .move .left => 'A'
  | .move .down => 'S'
  | .move .right => 'D'
  | .move .up => 'W'
  | .visit => '$'

/-- The command that a character stands for. -/
def ofChar? (c : Char) : Option Command := all.find? fun k => k.char == c

/-- Every command is read back from its character, and from no other. -/
theorem ofChar?_eq_some_iff {c : Char} {k : Command} : ofChar? c = some k ↔ c = k.char := by
  constructor
  · intro h
    have hk := List.find?_some h
    simpa using (beq_iff_eq.1 hk).symm
  · rintro rfl
    match k with
    | .move .left => rfl
    | .move .down => rfl
    | .move .right => rfl
    | .move .up => rfl
    | .visit => rfl

/-- Commands are characters of one byte. -/
theorem utf8Size_char (k : Command) : k.char.utf8Size = 1 := by
  rcases k with d | _
  · cases d <;> rfl
  · rfl

end Command

/-- A character of a route, classified. -/
inductive Token where
  | command (command : Command)
  | comment
  deriving DecidableEq, Repr

namespace Token

/-- Commentary is any character that is no command. -/
def comment? (c : Char) : Option Token :=
  if (Command.ofChar? c).isNone then some .comment else none

/-- A command if the character is one, else commentary. -/
def ofChar? (c : Char) : Option Token :=
  ((Command.ofChar? c).map .command).or (comment? c)

/-- Every character is a token. -/
theorem ofChar?_eq (c : Char) :
    ofChar? c = some ((Command.ofChar? c).elim .comment .command) := by
  unfold ofChar? comment?
  cases Command.ofChar? c with
  | none => rfl
  | some k => rfl

end Token

/-- What a lexeme marks. -/
inductive Mark where
  /-- A command. -/
  | command (command : Command)
  /-- The whole text. -/
  | program
  /-- The end of the text. -/
  | finish
  deriving DecidableEq, Repr

/-- A marked stretch of a text, in bytes. -/
structure Lexeme where
  /-- What the stretch is. -/
  mark : Mark
  /-- The number of bytes before it. -/
  start : Nat
  /-- The number of bytes up to its end. -/
  stop : Nat
  deriving DecidableEq, Repr

/-- The lexemes that the token of character `c` leaves at a position. -/
def Token.lexemes (t : Token) (c : Char) (position : Nat) : List Lexeme :=
  match t with
  | .command k => [⟨.command k, position, position + c.utf8Size⟩]
  | .comment => []

/-- How far a sequence of tokens reaches. -/
structure Scan where
  /-- The lexemes found. -/
  lexemes : List Lexeme
  /-- The number of bytes passed. -/
  position : Nat
  /-- The text that is left. -/
  rest : List Char
  deriving DecidableEq, Repr

/-- Take tokens from `position` on for as long as there are any. The lexemes `found` before
are held last one first. -/
def scan (found : List Lexeme) (position : Nat) : List Char → Scan
  | [] => ⟨found.reverse, position, []⟩
  | c :: rest =>
    match Token.ofChar? c with
    | some t => scan ((t.lexemes c position).reverse ++ found) (position + c.utf8Size) rest
    | none => ⟨found.reverse, position, c :: rest⟩

/-- The tokens of a text reach to its end. -/
@[simp] theorem rest_scan (found : List Lexeme) (position : Nat) (text : List Char) :
    (scan found position text).rest = [] := by
  induction text generalizing found position with
  | nil => rfl
  | cons c rest ih =>
    simp only [scan, Token.ofChar?_eq]
    exact ih _ _

/-- The lexemes of a text follow those found before it. -/
theorem lexemes_scan (found : List Lexeme) (position : Nat) (text : List Char) :
    (scan found position text).lexemes = found.reverse ++ (scan [] position text).lexemes := by
  induction text generalizing found position with
  | nil => simp [scan]
  | cons c rest ih =>
    simp only [scan, Token.ofChar?_eq]
    rw [ih, ih (_ ++ [])]
    simp

/-- The rules of the grammar of routes. -/
inductive Rule where
  /-- One given command. -/
  | command (command : Command)
  /-- One character of commentary. -/
  | comment
  /-- One command or one character of commentary. -/
  | token
  /-- Tokens up to the end of the text. -/
  | program
  deriving DecidableEq, Repr

/-- The lexemes of the match of a rule at the start of a text. Only `program` has to reach the
end of the text. -/
def Rule.parse? : Rule → List Char → Option (List Lexeme)
  | .program, text =>
    let s := scan [] 0 text
    if s.rest.isEmpty then
      some (⟨.program, 0, s.position⟩ :: s.lexemes ++ [⟨.finish, s.position, s.position⟩])
    else
      none
  | .command k, c :: _ => if c = k.char then some (Token.lexemes (.command k) c 0) else none
  | .comment, c :: _ => (Token.comment? c).map fun t => t.lexemes c 0
  | .token, c :: _ => (Token.ofChar? c).map fun t => t.lexemes c 0
  | _, [] => none

end GridWalk
