import GridWalk.Proofs.Advance
import GridWalk.Proofs.Layout
import GridWalk.Proofs.Scan

/-!
# A program that copies its input

The route `Copying.text` compiles to nine instructions. They read a character, leave if it is
zero, write it, make a zero and jump back on it. Each character up to the first zero costs nine
steps and leaves a zero on the stack, and the zero or the end of the input costs two more. So
the program writes what it reads, whatever the bytes are and whichever way it reacts to
failures, because none occurs.
-/

namespace GridWalk.Copying

open Machine Program

/-! ### The route and its layout -/

/-- The lines of the route. -/
def lines : List String := [
  "cat: copies input to output until the input runs dry", "",
  "bail out past every radius once a zero is read", "DADADADADADADADAASSS$", "",
  "read", "DDW$", "",
  "write", "DDDW$", "",
  "anchor", "DW$", "",
  "one", "W$", "",
  "and another", "AAAAWWWWW$", "",
  "make a zero", "AAAAAAAASSSSS$", "",
  "anchor", "DDDDDDDSSSSSSSSS$", "",
  "back to the read", "AS$", "DWWWWWWWWW$"]

/-- The text of the route. -/
def text : String := String.join (lines.map (· ++ "\n"))

theorem toList_text : text.toList = lines.flatMap fun line => line.toList ++ ['\n'] := by
  rw [text, String.toList_join, List.flatMap_map]
  simp only [String.toList_append]
  rfl

/-- The stops of the walk. -/
def visits : List Visit := [
  ⟨1, ⟨-1, -3⟩, 20, 121⟩, ⟨2, ⟨1, -2⟩, 3, 132⟩, ⟨3, ⟨4, -1⟩, 4, 145⟩, ⟨4, ⟨5, 0⟩, 2, 157⟩,
  ⟨5, ⟨5, 1⟩, 1, 165⟩, ⟨6, ⟨1, 6⟩, 9, 189⟩, ⟨7, ⟨-7, 1⟩, 13, 217⟩, ⟨8, ⟨0, -8⟩, 16, 243⟩,
  ⟨9, ⟨-1, -9⟩, 2, 265⟩]

theorem walk_text : walk (Itinerary.waypoints 0 text.toList) = .home visits none := by
  rw [toList_text]
  decide +kernel

/-- The instructions in layout order. -/
def instructions : List Instruction := [
  ⟨.getChar, ⟨1, -2⟩, ⟨2, 3⟩⟩,
  ⟨.jumpZero 20, ⟨-1, -3⟩, ⟨3, 4⟩⟩,
  ⟨.putChar, ⟨4, -1⟩, ⟨4, 5⟩⟩,
  ⟨.nop, ⟨5, 0⟩, ⟨5, 5⟩⟩,
  ⟨.push ⟨1⟩, ⟨5, 1⟩, ⟨5, 6⟩⟩,
  ⟨.dup, ⟨1, 6⟩, ⟨6, 7⟩⟩,
  ⟨.sub, ⟨-7, 1⟩, ⟨7, 8⟩⟩,
  ⟨.nop, ⟨0, -8⟩, ⟨8, 8⟩⟩,
  ⟨.jumpZero 2, ⟨-1, -9⟩, ⟨9, 10⟩⟩]

/-- The route compiles to these instructions, under any name and configuration. -/
theorem exists_compile (name : String) (config : Config) :
    ∃ c, Route.compile ⟨name, text⟩ config = .ok c ∧
      c.program.instructions.toList = instructions ∧ c.program.config = config := by
  have hwalk : walk (Itinerary.waypoints 0 (Route.mk name text).text.toList) = .home visits none :=
    walk_text
  refine ⟨_, Itinerary.compile_of_walk hwalk config, ?_, rfl⟩
  exact toList_ofList_of_perm config (by decide +kernel) (by decide +kernel) (by decide +kernel)

/-! ### One round and the last -/

section
variable {p : Program} (hp : p.instructions.toList = instructions)
  {cells : List Cell} {bytes rest accepted : List UInt8}
include hp

theorem getElem?_eq (pc : ℕ) : p.instructions[pc]? = instructions[pc]? := by
  rw [← hp, Array.getElem?_toList]

/-- The jump on the character that was read leads past the end. -/
theorem jumpTarget_out : p.jumpTarget 20 = 9 := by
  rw [jumpTarget_eq_countP, hp]
  decide

/-- The jump on the zero that was made leads to the first instruction. -/
theorem jumpTarget_back : p.jumpTarget 2 = 0 := by
  rw [jumpTarget_eq_countP, hp]
  decide

theorem isHalted_quiet : (p.quiet 9 cells bytes accepted).isHalted = true :=
  isHalted_iff.2 (getElem?_eq hp 9)

/-- A round copies one character in nine steps and leaves a zero. -/
theorem advances_round {c : Char} (hc : c ≠ '\x00')
    (hr : (Input.ofBytes bytes).readChar = (.ok (some c), .ofBytes rest)) :
    Advances 9 (p.quiet 0 cells bytes accepted)
      (p.quiet 0 (.zero :: cells) rest (accepted ++ Text.encode c)) := by
  have hz : (Cell.ofChar c).isZero = false := by rw [Cell.isZero_ofChar, decide_eq_false hc]
  calc
    Advances 1 (p.quiet 0 cells bytes accepted) (p.quiet 1 (.ofChar c :: cells) rest accepted) :=
      advances_quiet_get (getElem?_eq hp 0) rfl hr rfl
    Advances 1 _ (p.quiet 2 (.ofChar c :: cells) rest accepted) :=
      advances_quiet_stay (getElem?_eq hp 1) rfl hz
    Advances 1 _ (p.quiet 3 cells rest (accepted ++ Text.encode c)) :=
      advances_quiet_put (getElem?_eq hp 2) rfl (Cell.toChar_ofChar c)
    Advances 1 _ (p.quiet 4 cells rest (accepted ++ Text.encode c)) :=
      advances_quiet .next (getElem?_eq hp 3) rfl
    Advances 1 _ (p.quiet 5 (⟨1⟩ :: cells) rest (accepted ++ Text.encode c)) :=
      advances_quiet .next (getElem?_eq hp 4) rfl
    Advances 1 _ (p.quiet 6 (⟨1⟩ :: ⟨1⟩ :: cells) rest (accepted ++ Text.encode c)) :=
      advances_quiet .next (getElem?_eq hp 5) rfl
    Advances 1 _ (p.quiet 7 (.zero :: cells) rest (accepted ++ Text.encode c)) :=
      advances_quiet .next (getElem?_eq hp 6) rfl
    Advances 1 _ (p.quiet 8 (.zero :: cells) rest (accepted ++ Text.encode c)) :=
      advances_quiet .next (getElem?_eq hp 7) rfl
    Advances 1 _ (p.quiet 0 (.zero :: cells) rest (accepted ++ Text.encode c)) :=
      advances_quiet_jump (getElem?_eq hp 8) rfl rfl (jumpTarget_back hp)

/-- The last round reads a zero, or the end of the input in its place, and leaves in two steps. -/
theorem advances_last {o : Option Char} (ho : o.elim Cell.zero Cell.ofChar = .zero)
    (hr : (Input.ofBytes bytes).readChar = (.ok o, .ofBytes rest)) :
    Advances 2 (p.quiet 0 cells bytes accepted) (p.quiet 9 (.zero :: cells) rest accepted) :=
  calc
    Advances 1 (p.quiet 0 cells bytes accepted) (p.quiet 1 (.zero :: cells) rest accepted) :=
      advances_quiet_get (getElem?_eq hp 0) rfl hr ho
    Advances 1 _ (p.quiet 9 (.zero :: cells) rest accepted) :=
      advances_quiet_jump (getElem?_eq hp 1) rfl rfl (jumpTarget_out hp)

end

/-! ### Whole runs -/

/-- The characters that are read from bytes, up to the first zero. -/
def copied (bytes : List UInt8) : List Char :=
  (Input.ofBytes bytes).characters.takeWhile (· ≠ '\x00')

theorem copied_nil : copied [] = [] := by
  rw [copied, Input.characters_ofBytes_nil, List.takeWhile_nil]

theorem copied_group {lead : UInt8} {tails rest : List UInt8} (h : Text.Group lead tails rest) :
    copied (lead :: (tails ++ rest)) =
      if Text.character lead tails = '\x00' then [] else
        Text.character lead tails :: copied rest := by
  rw [copied, Input.characters_ofBytes h, List.takeWhile_cons, copied]
  by_cases hc : Text.character lead tails = '\x00'
  · simp [hc]
  · simp [hc]

/-- Text without a zero is copied whole. -/
theorem copied_encodeAll {chars : List Char} (h : '\x00' ∉ chars) :
    copied (Text.encodeAll chars) = chars := by
  rw [copied, Input.characters_encodeAll, List.takeWhile_eq_self_iff]
  intro c hc
  exact decide_eq_true fun hzero => h (hzero ▸ hc)

/-- A run copies the characters up to the first zero and leaves a zero for each and one more. Each
group of bytes is one round of it. -/
theorem advances_copied {p : Program} (hp : p.instructions.toList = instructions)
    (bytes : List UInt8) (cells : List Cell) (accepted : List UInt8) :
    ∃ rest, Advances (9 * (copied bytes).length + 2) (p.quiet 0 cells bytes accepted)
      (p.quiet 9 (List.replicate ((copied bytes).length + 1) .zero ++ cells) rest
        (accepted ++ Text.encodeAll (copied bytes))) := by
  induction bytes using Text.group_induction generalizing cells accepted with
  | nil =>
    rw [copied_nil, Text.encodeAll, List.flatMap_nil, List.append_nil]
    exact ⟨[], advances_last hp rfl Input.readChar_ofBytes_nil⟩
  | group lead tails rest hg ih =>
    have hr := Input.readChar_ofBytes hg
    rw [copied_group hg]
    split_ifs with hc
    · rw [Text.encodeAll, List.flatMap_nil, List.append_nil]
      rw [hc] at hr
      exact ⟨rest, advances_last hp rfl hr⟩
    · obtain ⟨left, hrun⟩ := ih (.zero :: cells)
        (accepted ++ Text.encode (Text.character lead tails))
      refine ⟨left, ?_⟩
      rw [List.length_cons, List.replicate_succ', List.append_assoc, List.singleton_append,
        Text.encodeAll, List.flatMap_cons, ← List.append_assoc, Nat.mul_succ, Nat.add_right_comm]
      exact (advances_round hp hc hr).trans hrun

/-- So the program halts within any limit that leaves room for these steps. -/
theorem exists_run? {p : Program} (hp : p.instructions.toList = instructions)
    (bytes : List UInt8) {limit : ℕ} (hl : 9 * (copied bytes).length + 2 ≤ limit) :
    ∃ l, (p.machine (.ofBytes bytes) {}).run? limit =
        some (.ok ⟨9 * (copied bytes).length + 2, 0⟩, l) ∧
      l.stack = ⟨List.replicate ((copied bytes).length + 1) .zero⟩ ∧
      l.output = ⟨[], { accepted := Text.encodeAll (copied bytes) }⟩ := by
  rw [machine_eq_quiet]
  obtain ⟨rest, hrun⟩ := advances_copied hp bytes [] []
  obtain ⟨l, hl, ha⟩ := hrun.exists_run? (isHalted_quiet hp) hl
  refine ⟨l, hl, ?_, ha.output⟩
  rw [ha.stack, quiet, List.append_nil]

/-- The program that copies its input is correct on all bytes. It writes the characters before the
first zero, so it writes a text without zeros back byte for byte. Under every configuration its
run halts after nine steps a character and two more, skips no failure and leaves a zero for each
character and one for the end. -/
theorem copies_every_input (bytes : List UInt8) (limit : ℕ)
    (hl : 9 * (copied bytes).length + 2 ≤ limit) :
    interpret? limit text bytes = some (.ok (Text.encodeAll (copied bytes))) ∧
    (∀ chars, '\x00' ∉ chars → bytes = Text.encodeAll chars →
      interpret? limit text bytes = some (.ok bytes)) ∧
    ∀ name config, ∃ c l, Route.compile ⟨name, text⟩ config = .ok c ∧
      c.program.config = config ∧
      (c.program.machine (.ofBytes bytes) {}).run? limit =
        some (.ok ⟨9 * (copied bytes).length + 2, 0⟩, l) ∧
      l.stack = ⟨List.replicate ((copied bytes).length + 1) .zero⟩ := by
  have hinterpret : interpret? limit text bytes = some (.ok (Text.encodeAll (copied bytes))) := by
    obtain ⟨c, hc, hp, -⟩ := exists_compile Route.anonymous {}
    obtain ⟨l, hrun, -, ho⟩ := exists_run? hp bytes hl
    rw [interpret?_of_run? hc hrun, close, ho]
    rfl
  refine ⟨hinterpret, ?_, ?_⟩
  · intro chars hzero hbytes
    have hcopied : copied bytes = chars := by rw [hbytes, copied_encodeAll hzero]
    rw [hinterpret, hcopied, ← hbytes]
  · intro name config
    obtain ⟨c, hc, hp, hconfig⟩ := exists_compile name config
    obtain ⟨l, hrun, hstack, -⟩ := exists_run? hp bytes hl
    exact ⟨c, l, hc, hconfig, hrun, hstack⟩

/-- A byte that starts no character and a zero with a letter behind it, and a text of three
characters. -/
theorem copies_every_input_malformed :
    (copied [104, 255, 195, 169, 0, 65]).length = 3 ∧
    interpret? 29 text [104, 255, 195, 169, 0, 65] =
      some (.ok [104, 239, 191, 189, 195, 169]) ∧
    '\x00' ∉ ['h', 'é', '€'] ∧
    interpret? 29 text (Text.encodeAll ['h', 'é', '€']) =
      some (.ok (Text.encodeAll ['h', 'é', '€'])) := by
  have hzero : '\x00' ∉ ['h', 'é', '€'] := by decide
  have hletter : copied [104, 255, 195, 169, 0, 65] = 'h' :: copied [255, 195, 169, 0, 65] :=
    (copied_group (.of_length_eq (List.forall_mem_nil _) rfl _)).trans (if_neg (by decide))
  have hstray : copied [255, 195, 169, 0, 65] = Text.replacement :: copied [195, 169, 0, 65] :=
    (copied_group (.of_length_eq (List.forall_mem_nil _) rfl _)).trans (if_neg (by decide))
  have haccent : copied [195, 169, 0, 65] = 'é' :: copied [0, 65] :=
    (copied_group (.of_length_eq (List.forall_mem_singleton.2 rfl) rfl _)).trans
      (if_neg (by decide))
  have hend : copied [0, 65] = [] :=
    (copied_group (.of_length_eq (List.forall_mem_nil _) rfl _)).trans (if_pos rfl)
  have hcopied : copied [104, 255, 195, 169, 0, 65] = ['h', Text.replacement, 'é'] := by
    rw [hletter, hstray, haccent, hend]
  obtain ⟨hout, -, -⟩ := copies_every_input [104, 255, 195, 169, 0, 65] 29
    (by rw [hcopied]; decide)
  obtain ⟨-, hsame, -⟩ := copies_every_input (Text.encodeAll ['h', 'é', '€']) 29
    (by rw [copied_encodeAll hzero]; decide)
  rw [hcopied] at hout
  exact ⟨by rw [hcopied]; rfl, hout, hzero, hsame ['h', 'é', '€'] hzero rfl⟩

end GridWalk.Copying
