import GridWalk.Proofs.Agreement
import GridWalk.Proofs.Redrawing
import GridWalk.Proofs.Scan

/-!
# What commentary cannot change

A walk looks at its commands and not at where they stand: other places give the same outcome at
other places. Reading bytes as text keeps every byte that is a command and makes no command of
anything else, whatever the bytes around it are. A route therefore compiles as its commands alone
do, up to places in the text.
-/

namespace GridWalk

/-! ### Other places -/

/-- Commands at other places are a redrawing that keeps directions and points. -/
def Redrawing.relocation (f : ℕ → ℕ) : Redrawing where
  onDirection d := d
  onPoint p := p
  onOffset := f
  onPoint_step _ _ := rfl
  radii_onPoint _ := rfl
  onPoint_eq_origin _ := Iff.rfl

/-- An instruction does not show where its visit stands in the text. -/
theorem Redrawing.instruction_onVisit_relocation (f : ℕ → ℕ) (v : Visit) :
    ((relocation f).onVisit v).instruction = v.instruction := rfl

/-- Visits that agree at other places have the same number and the same point. -/
theorem Redrawing.eq_of_onVisit_relocation {f : ℕ → ℕ} {u v : Visit}
    (h : (relocation f).onVisit u = (relocation f).onVisit v) :
    u.index = v.index ∧ u.point = v.point := by
  have hindex := congrArg Visit.index h
  have hpoint := congrArg Visit.point h
  exact ⟨hindex, hpoint⟩

/-! ### Bytes that are commands -/

/-- Characters beyond the first 128 are no commands. -/
theorem Command.ofChar?_eq_none {c : Char} (h : 128 ≤ c.toNat) : ofChar? c = none := by
  cases hc : ofChar? c with
  | none => rfl
  | some k =>
    have hk : k.char.toNat < 128 := by
      rcases k with d | _
      · cases d <;> decide
      · decide
    rw [ofChar?_eq_some_iff.1 hc] at h
    omega

namespace Text

theorem ofChar?_replacement : Command.ofChar? replacement = none :=
  Command.ofChar?_eq_none (by decide)

/-- The command that a byte stands for, if there is one. -/
def commandOfByte? (b : UInt8) : Option Command := Command.ofChar? (Char.ofNat b.toNat)

theorem commandOfByte?_eq_none {b : UInt8} (h : 128 ≤ b.toNat) : commandOfByte? b = none := by
  have hb := b.toNat_lt
  apply Command.ofChar?_eq_none
  rwa [toNat_ofNat_of_code (by omega)]

/-- Tail bytes are no commands. -/
theorem filterMap_commandOfByte?_tails {tails : List UInt8} (h : ∀ b ∈ tails, isTail b = true) :
    tails.filterMap commandOfByte? = [] := by
  rw [List.filterMap_eq_nil_iff]
  intro b hb
  exact commandOfByte?_eq_none (isTail_iff.1 (h b hb)).1

/-- A longer group is no command, whatever character it gives: the first 128 characters are written
by one byte. -/
theorem ofChar?_character {lead : UInt8} (h : 128 ≤ lead.toNat) (tails : List UInt8) :
    Command.ofChar? (character lead tails) = none := by
  rw [character]
  split_ifs with hg
  · cases hd : decode? (lead :: tails) with
    | none => exact ofChar?_replacement
    | some c =>
      apply Command.ofChar?_eq_none
      by_contra hlt
      have he := encode_of_decode? hd
      rw [Option.getD_some] at hlt
      rw [encode_eq, if_pos (by omega)] at he
      have hlead := congrArg UInt8.toNat (List.cons.inj he).1
      rw [UInt8.toNat_ofNat'] at hlead
      omega
  · exact ofChar?_replacement

/-- A group gives the command of its first byte, if that is one. -/
theorem ofChar?_character_group {lead : UInt8} {tails rest : List UInt8}
    (h : Group lead tails rest) : Command.ofChar? (character lead tails) = commandOfByte? lead := by
  by_cases hlead : lead.toNat < 128
  · have hg : groupLength? lead = some 1 := by rw [groupLength?_eq, if_pos hlead]
    have hl := h.length_le
    obtain rfl : tails = [] := by simpa [owed, hg] using hl
    rw [character, hg, decode?_singleton hlead]
    rfl
  · rw [ofChar?_character (by omega), commandOfByte?_eq_none (by omega)]

/-- Reading bytes as text keeps every command and makes none. What cannot be read becomes
replacement characters, which are no commands. -/
theorem filterMap_ofChar?_repair (bytes : List UInt8) :
    (repair bytes).filterMap Command.ofChar? = bytes.filterMap commandOfByte? := by
  induction bytes using group_induction with
  | nil => rfl
  | group lead tails rest hg ih =>
    have hcharacter := ofChar?_character_group hg
    have htails := filterMap_commandOfByte?_tails hg.tail
    rw [Decoder.repair_eq_remainder] at ih ⊢
    rw [List.filterMap_cons, List.filterMap_append, htails, List.nil_append, ← ih, ← hcharacter]
    rcases Decoder.remainder_group hg with hread | ⟨_, hc, hread⟩
    · rw [hread, List.filterMap_cons]
    · rw [hread, hc, List.filterMap_cons, List.filterMap_append, List.filterMap_replicate,
        ofChar?_replacement]
      rfl

/-- A group that is cut short by a move, and a byte that starts no group before a visit. -/
example : repair [0xe2, 0x82, 0x44, 0xff, 0x24] = [replacement, 'D', replacement, '$'] := by decide

end Text

/-! ### Routes with the same commands -/

namespace Route

open Itinerary

/-- The commands among some bytes as a text, every other byte left out. -/
def commandText (bytes : List UInt8) : String :=
  String.ofList ((bytes.map fun b => Char.ofNat b.toNat).filter isCommand)

/-- Two results of compiling that differ at most in places and texts. -/
inductive SameOutcome : Except CompileError Compilation → Except CompileError Compilation → Prop
  /-- The same program, and as many warnings. -/
  | ok {c c' : Compilation} : c.program = c'.program → c.warnings.length = c'.warnings.length →
      SameOutcome (.ok c) (.ok c')
  /-- A clash of visits with the same numbers at the same points. -/
  | clash {r r' : Route} {u v u' v' : Visit} : u.index = u'.index → u.point = u'.point →
      v.index = v'.index → v.point = v'.point →
      SameOutcome (.error (.clash r u v)) (.error (.clash r' u' v'))
  /-- A walk that is lost at the same point. -/
  | lost {r r' : Route} {finish : Point} :
      SameOutcome (.error (.lost r finish)) (.error (.lost r' finish))

/-- The message about a clash tells no more than the numbers and the points of the visits. -/
theorem message_clash_congr {u v u' v' : Visit} (hu : u.index = u'.index)
    (hpu : u.point = u'.point) (hv : v.index = v'.index) (hpv : v.point = v'.point)
    (r r' : Route) :
    (CompileError.clash r u v).message = (CompileError.clash r' u' v').message := by
  unfold CompileError.message CompileError.diagnostic
  dsimp only
  rw [hu, hpu, hv, hpv]

/-- Such results have the same program or the same message. -/
theorem SameOutcome.message_eq {a b : Except CompileError Compilation} (h : SameOutcome a b) :
    (a.mapError CompileError.message).map Compilation.program =
      (b.mapError CompileError.message).map Compilation.program := by
  cases h with
  | ok hp _ => exact congrArg Except.ok hp
  | @clash r r' _ _ _ _ hu hpu hv hpv =>
    exact congrArg Except.error (message_clash_congr hu hpu hv hpv r r')
  | lost => rfl

/-- Without their places, the commands of a text are those of its characters. -/
theorem map_relocation_waypoints (position : ℕ) (text : List Char) :
    (waypoints position text).map (Redrawing.relocation fun _ => 0).onWaypoint =
      (text.filterMap Command.ofChar?).map (Waypoint.mk · 0) := by
  induction text generalizing position with
  | nil => rfl
  | cons c rest ih =>
    rw [waypoints, List.map_append, ih, List.filterMap_cons]
    rcases Command.ofChar? c with _ | d | _ <;> rfl

/-- Routes whose walks end alike up to places compile alike up to places. -/
theorem sameOutcome_of_relocation {r r' : Route} (f : ℕ → ℕ)
    (h : (Redrawing.relocation f).onOutcome (walk (waypoints 0 r.text.toList)) =
      (Redrawing.relocation f).onOutcome (walk (waypoints 0 r'.text.toList))) (config : Config) :
    SameOutcome (r.compile config) (r'.compile config) := by
  simp only [compile, waypoints?_eq]
  generalize walk (waypoints 0 r.text.toList) = o at h ⊢
  generalize walk (waypoints 0 r'.text.toList) = o' at h ⊢
  cases o with
  | clash u v =>
    cases o' with
    | clash u' v' =>
      obtain ⟨hu, hv⟩ := Outcome.clash.inj h
      obtain ⟨hi, hp⟩ := Redrawing.eq_of_onVisit_relocation hu
      obtain ⟨hi', hp'⟩ := Redrawing.eq_of_onVisit_relocation hv
      exact .clash hi hp hi' hp'
    | lost finish => cases h
    | home visits trailing => cases h
  | lost finish =>
    cases o' with
    | clash u v => cases h
    | lost finish' =>
      obtain rfl := Outcome.lost.inj h
      exact .lost
    | home visits trailing => cases h
  | home visits trailing =>
    cases o' with
    | clash u v => cases h
    | lost finish => cases h
    | home visits' trailing' =>
      obtain ⟨hv, ht⟩ := Outcome.home.inj h
      have hinstructions := congrArg (List.map Visit.instruction) hv
      have htrailing := congrArg (fun t => t.toList.length) ht
      simp only [List.map_map, Function.comp_def, Redrawing.instruction_onVisit_relocation]
        at hinstructions
      simp only [Option.toList_map, List.length_map] at htrailing
      refine .ok ?_ ?_
      · exact congrArg (Program.ofList · config) hinstructions
      · simpa only [Option.toList_map, List.length_map] using htrailing

/-- Routes with the same commands compile alike up to places. -/
theorem sameOutcome_of_commands {r r' : Route}
    (h : r.text.toList.filterMap Command.ofChar? = r'.text.toList.filterMap Command.ofChar?)
    (config : Config) : SameOutcome (r.compile config) (r'.compile config) := by
  refine sameOutcome_of_relocation (fun _ => 0) ?_ config
  rw [← Redrawing.walk_map, ← Redrawing.walk_map, map_relocation_waypoints,
    map_relocation_waypoints, h]

/-- The commands among some bytes are the commands of their text. -/
theorem filterMap_ofChar?_commandText (bytes : List UInt8) :
    (commandText bytes).toList.filterMap Command.ofChar? = bytes.filterMap Text.commandOfByte? := by
  rw [commandText, String.toList_ofList, List.filterMap_filter, List.filterMap_map]
  apply List.filterMap_congr
  intro b _
  by_cases hb : isCommand (Char.ofNat b.toNat) = true
  · exact if_pos hb
  · have hnone := (comment_char (Bool.eq_false_iff.2 hb)).1
    exact (if_neg hb).trans hnone.symm

/-- Bytes of any kind compile as the commands among them do alone, up to places and texts: to the
same program with as many warnings, or to a clash of the same visits, or to a walk that is lost at
the same point. The program or the message of the error is therefore the same. -/
theorem compile_ignores_commentary (name : String) (bytes : List UInt8) (config : Config) :
    let whole := (ofBytes name bytes).compile config
    let bare := compile ⟨name, commandText bytes⟩ config
    SameOutcome whole bare ∧
    (whole.mapError CompileError.message).map Compilation.program =
      (bare.mapError CompileError.message).map Compilation.program := by
  intro whole bare
  have hsame : SameOutcome whole bare := by
    apply sameOutcome_of_commands
    rw [ofBytes, String.toList_ofList, Text.filterMap_ofChar?_repair, filterMap_ofChar?_commandText]
  exact ⟨hsame, hsame.message_eq⟩

end Route

end GridWalk
