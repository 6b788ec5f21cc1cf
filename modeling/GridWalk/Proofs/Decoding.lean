import GridWalk.Stream.Input
import Mathlib.Tactic

/-!
# Reading characters from bytes

Bytes are read group by group. A first byte asks for a number of tail bytes, and its group
takes as many of them as it finds, up to that number. What comes after the group is not
looked at, so a byte that is no tail always starts afresh. The group that writes a character
is complete, reads as that character, and starts with a byte that is no tail. Text therefore
reads back as it was written, whatever bytes come before it.
-/

namespace GridWalk

namespace Text

/-- The bytes that write a text. -/
def encodeAll (text : List Char) : List UInt8 := text.flatMap encode

/-- The number of tail bytes that a first byte asks for. -/
def owed (lead : UInt8) : ℕ := (groupLength? lead).getD 1 - 1

/-- The character that a first byte gives with the tail bytes it got. -/
def character (lead : UInt8) (tails : List UInt8) : Char :=
  if groupLength? lead = some (tails.length + 1) then (decode? (lead :: tails)).getD replacement
  else replacement

/-- Bytes that do not go on with a group. -/
def Fresh (bytes : List UInt8) : Prop := ∀ b ∈ bytes.head?, isTail b = false

/-- The group of a first byte consists of these tail bytes and leaves these bytes alone. -/
structure Group (lead : UInt8) (tails rest : List UInt8) : Prop where
  /-- The group goes on with tail bytes only. -/
  tail : ∀ b ∈ tails, isTail b = true
  /-- It has no more of them than it asks for. -/
  length_le : tails.length ≤ owed lead
  /-- It stops because it has them all or because no more follow. -/
  stops : tails.length = owed lead ∨ Fresh rest

/-! ### Bytes fall into groups -/

theorem isTail_iff {b : UInt8} : isTail b = true ↔ 128 ≤ b.toNat ∧ b.toNat < 192 := by
  simp [isTail, UInt8.le_iff_toNat_le, UInt8.lt_iff_toNat_lt]

theorem fresh_nil : Fresh [] := by
  intro b hb
  cases hb

theorem fresh_cons {b : UInt8} {bytes : List UInt8} : Fresh (b :: bytes) ↔ isTail b = false := by
  simp [Fresh]

/-- Bytes stay fresh when fresh bytes follow. -/
theorem Fresh.append {a b : List UInt8} (ha : Fresh a) (hb : Fresh b) : Fresh (a ++ b) := by
  cases a with
  | nil => exact hb
  | cons x a => exact fresh_cons.2 (fresh_cons.1 ha)

/-- A group is not changed by fresh bytes at the end. -/
theorem Group.append {lead : UInt8} {tails rest more : List UInt8} (h : Group lead tails rest)
    (hm : Fresh more) : Group lead tails (rest ++ more) :=
  ⟨h.tail, h.length_le, h.stops.imp_right fun hr => hr.append hm⟩

/-- A group that has all it asks for can be followed by anything. -/
theorem Group.of_length_eq {lead : UInt8} {tails : List UInt8} (ht : ∀ b ∈ tails, isTail b = true)
    (hl : tails.length = owed lead) (rest : List UInt8) : Group lead tails rest :=
  ⟨ht, hl.le, Or.inl hl⟩

/-- Bytes begin with tail bytes, at most `n` of them, and stop at `n` or before a fresh byte. -/
theorem exists_tails (n : ℕ) (bytes : List UInt8) :
    ∃ tails rest, bytes = tails ++ rest ∧ (∀ b ∈ tails, isTail b = true) ∧ tails.length ≤ n ∧
      (tails.length = n ∨ Fresh rest) := by
  induction n generalizing bytes with
  | zero => exact ⟨[], bytes, rfl, by simp, le_rfl, Or.inl rfl⟩
  | succ n ih =>
    cases bytes with
    | nil => exact ⟨[], [], rfl, by simp, Nat.zero_le _, Or.inr fresh_nil⟩
    | cons b bytes =>
      cases hb : isTail b with
      | false => exact ⟨[], b :: bytes, rfl, by simp, Nat.zero_le _, Or.inr (fresh_cons.2 hb)⟩
      | true =>
        obtain ⟨tails, rest, rfl, ht, hl, hs⟩ := ih bytes
        refine ⟨b :: tails, rest, rfl, ?_, Nat.succ_le_succ hl, ?_⟩
        · exact List.forall_mem_cons.2 ⟨hb, ht⟩
        · exact hs.imp_left (congrArg Nat.succ)

/-- Every first byte has a group. -/
theorem exists_group (lead : UInt8) (bytes : List UInt8) :
    ∃ tails rest, bytes = tails ++ rest ∧ Group lead tails rest := by
  obtain ⟨tails, rest, he, ht, hl, hs⟩ := exists_tails (owed lead) bytes
  exact ⟨tails, rest, he, ht, hl, hs⟩

/-- What holds of no bytes, and of a group with what follows it when it holds of what follows,
holds of all bytes. -/
theorem group_induction {motive : List UInt8 → Prop} (nil : motive [])
    (group : ∀ lead tails rest, Group lead tails rest → motive rest →
      motive (lead :: (tails ++ rest))) (bytes : List UInt8) : motive bytes := by
  induction hn : bytes.length using Nat.strong_induction_on generalizing bytes with
  | _ n ih =>
    cases bytes with
    | nil => exact nil
    | cons lead bytes =>
      obtain ⟨tails, rest, rfl, hg⟩ := exists_group lead bytes
      refine group lead tails rest hg (ih rest.length ?_ rest rfl)
      simp only [List.length_cons, List.length_append] at hn
      omega

/-! ### The groups that write characters -/

/-- The bytes of a character, by the size of its code. -/
theorem encode_eq (c : Char) :
    encode c =
      if c.toNat ≤ 127 then [.ofNat c.toNat]
      else if c.toNat ≤ 2047 then [.ofNat (c.toNat / 64 % 32 + 192), .ofNat (c.toNat % 64 + 128)]
      else if c.toNat ≤ 65535 then
        [.ofNat (c.toNat / 4096 % 16 + 224), .ofNat (c.toNat / 64 % 64 + 128),
          .ofNat (c.toNat % 64 + 128)]
      else
        [.ofNat (c.toNat / 262144 % 8 + 240), .ofNat (c.toNat / 4096 % 64 + 128),
          .ofNat (c.toNat / 64 % 64 + 128), .ofNat (c.toNat % 64 + 128)] :=
  rfl

theorem toNat_lt_of_char (c : Char) : c.toNat < 1114112 := by
  have hv : c.toNat < 55296 ∨ 57343 < c.toNat ∧ c.toNat < 1114112 := c.valid
  omega

/-- The payload bits of a written character spell its code. -/
theorem groupValue_encode (c : Char) : groupValue (encode c) = c.toNat := by
  have hc := toNat_lt_of_char c
  rw [encode_eq]
  split_ifs
  all_goals
    simp only [groupValue, UInt8.toNat_ofNat']
    omega

/-- A written character reads back. -/
theorem decode?_encode (c : Char) : decode? (encode c) = some c := by
  rw [decode?, groupValue_encode, Char.ofNat_toNat]
  exact Option.guard_eq_some_iff.2 ⟨rfl, beq_self_eq_true _⟩

/-- The length that a first byte announces, with the byte read as a number. -/
theorem groupLength?_eq (lead : UInt8) :
    groupLength? lead =
      if lead.toNat < 128 then some 1
      else if lead.toNat < 194 then none
      else if lead.toNat < 224 then some 2
      else if lead.toNat < 240 then some 3
      else if lead.toNat < 245 then some 4
      else none := by
  simp only [groupLength?, UInt8.lt_iff_toNat_lt, UInt8.reduceToNat]

theorem groupLength?_ne_zero {lead : UInt8} {n : ℕ} (h : groupLength? lead = some n) : n ≠ 0 := by
  rw [groupLength?_eq] at h
  split_ifs at h
  all_goals
    cases h
    decide

/-- Where a first byte announces a length, its character is the group's if the group is that
long. -/
theorem character_eq_of_groupLength? {lead : UInt8} {n : ℕ} (h : groupLength? lead = some n)
    (tails : List UInt8) :
    character lead tails =
      if tails.length = n - 1 then (decode? (lead :: tails)).getD replacement else replacement := by
  have hpos : n ≠ 0 := groupLength?_ne_zero h
  have hiff : some n = some (tails.length + 1) ↔ tails.length = n - 1 := by
    rw [Option.some.injEq]
    omega
  simp only [character, h, hiff]

/-- Six bits behind the mark of a tail byte make a tail byte. -/
theorem isTail_ofNat (n : ℕ) : isTail (.ofNat (n % 64 + 128)) = true := by
  rw [isTail_iff, UInt8.toNat_ofNat']
  omega

/-- A byte that announces a group is no tail. -/
theorem isTail_of_groupLength? {lead : UInt8} {n : ℕ} (h : groupLength? lead = some n) :
    isTail lead = false := by
  rw [Bool.eq_false_iff, ne_eq, isTail_iff]
  rintro ⟨hlow, hhigh⟩
  rw [groupLength?_eq, if_neg (by omega), if_pos (by omega)] at h
  cases h

/-- A character is written by a first byte and by as many tail bytes as it asks for. -/
theorem encode_eq_cons (c : Char) :
    ∃ lead tails, encode c = lead :: tails ∧ (∀ b ∈ tails, isTail b = true) ∧
      groupLength? lead = some (tails.length + 1) := by
  have hc := toNat_lt_of_char c
  rw [encode_eq]
  split_ifs with h1 h2 h3
  · refine ⟨_, _, rfl, List.forall_mem_nil _, ?_⟩
    rw [groupLength?_eq, UInt8.toNat_ofNat', if_pos (by omega)]
    rfl
  · refine ⟨_, _, rfl, List.forall_mem_singleton.2 (isTail_ofNat _), ?_⟩
    rw [groupLength?_eq, UInt8.toNat_ofNat', if_neg (by omega), if_neg (by omega),
      if_pos (by omega)]
    rfl
  · refine ⟨_, _, rfl, ?_, ?_⟩
    · refine List.forall_mem_cons.2 ⟨isTail_ofNat _, ?_⟩
      exact List.forall_mem_singleton.2 (isTail_ofNat _)
    · rw [groupLength?_eq, UInt8.toNat_ofNat', if_neg (by omega), if_neg (by omega),
        if_neg (by omega), if_pos (by omega)]
      rfl
  · refine ⟨_, _, rfl, ?_, ?_⟩
    · refine List.forall_mem_cons.2 ⟨isTail_ofNat _, List.forall_mem_cons.2 ⟨isTail_ofNat _, ?_⟩⟩
      exact List.forall_mem_singleton.2 (isTail_ofNat _)
    · rw [groupLength?_eq, UInt8.toNat_ofNat', if_neg (by omega), if_neg (by omega),
        if_neg (by omega), if_neg (by omega), if_pos (by omega)]
      rfl

/-- The group of a written character is complete and gives the character. -/
theorem exists_group_encode (c : Char) :
    ∃ lead tails, encode c = lead :: tails ∧ isTail lead = false ∧ character lead tails = c ∧
      ∀ rest, Group lead tails rest := by
  obtain ⟨lead, tails, he, htails, hlength⟩ := encode_eq_cons c
  refine ⟨lead, tails, he, isTail_of_groupLength? hlength, ?_, Group.of_length_eq htails ?_⟩
  · rw [character, if_pos hlength, ← he, decode?_encode]
    rfl
  · rw [owed, hlength]
    rfl

/-- Written text starts afresh. -/
theorem fresh_encodeAll (text : List Char) : Fresh (encodeAll text) := by
  cases text with
  | nil => exact fresh_nil
  | cons c text =>
    obtain ⟨lead, tails, he, hlead, _⟩ := exists_group_encode c
    rw [encodeAll, List.flatMap_cons, he]
    exact fresh_cons.2 hlead

end Text

namespace Input

open Text

/-! ### Reading from memory -/

/-- The tail bytes of a group are read up to the end of the group, and no further. -/
theorem readTail_ofBytes {n : ℕ} {tails rest : List UInt8} (group : List UInt8)
    (ht : ∀ b ∈ tails, isTail b = true) (hl : tails.length ≤ n)
    (hs : tails.length = n ∨ Fresh rest) :
    readTail n group (ofBytes (tails ++ rest)) =
      (.ok (some (if tails.length = n then (decode? (group ++ tails)).getD replacement
        else replacement)), ofBytes rest) := by
  induction tails generalizing n group with
  | nil =>
    cases n with
    | zero => simp [readTail]
    | succ n =>
      have hf : Fresh rest := hs.resolve_left (by simp)
      cases rest with
      | nil => simp [readTail, ofBytes, peek, peekComing]
      | cons b rest => simp [readTail, ofBytes, peek, fresh_cons.1 hf]
  | cons b tails ih =>
    obtain ⟨n, rfl⟩ := Nat.exists_eq_add_one_of_ne_zero (Nat.ne_zero_of_lt hl)
    obtain ⟨hb, ht⟩ := List.forall_mem_cons.1 ht
    have hrest := ih (group ++ [b]) ht (Nat.le_of_succ_le_succ hl) (hs.imp_left Nat.succ.inj)
    simp only [ofBytes, List.append_assoc, List.singleton_append] at hrest
    simp [readTail, ofBytes, peek, advance, hb, hrest]

/-- No bytes are the end of input. -/
theorem readChar_ofBytes_nil : (ofBytes []).readChar = (.ok none, ofBytes []) := rfl

/-- A character is read from the group of the first byte, and what follows is left. -/
theorem readChar_ofBytes {lead : UInt8} {tails rest : List UInt8} (h : Group lead tails rest) :
    (ofBytes (lead :: (tails ++ rest))).readChar =
      (.ok (some (character lead tails)), ofBytes rest) := by
  have hpeek : (ofBytes (lead :: (tails ++ rest))).peek =
      (.ok (some lead), ofBytes (lead :: (tails ++ rest))) := rfl
  have hadvance : (ofBytes (lead :: (tails ++ rest))).advance = ofBytes (tails ++ rest) := rfl
  have hl := h.length_le
  have hs := h.stops
  rw [readChar, hpeek]
  dsimp only
  rw [hadvance]
  cases hg : groupLength? lead with
  | none =>
    have hnil : tails = [] := by simpa [owed, hg] using hl
    simp [hnil, character, hg]
  | some n =>
    have hn : owed lead = n - 1 := by rw [owed, hg]; rfl
    rw [hn] at hl hs
    dsimp only
    rw [readTail_ofBytes [lead] h.tail hl hs, character_eq_of_groupLength? hg,
      List.singleton_append]

/-! ### Reading to the end -/

/-- Reading the tail bytes of a group adds none. -/
theorem length_data_readTail_le (n : ℕ) (group : List UInt8) (i : Input) :
    (readTail n group i).2.data.length ≤ i.data.length := by
  induction n generalizing group i with
  | zero => exact le_rfl
  | succ n ih =>
    have hdata := data_peek i
    rw [readTail]
    rcases hp : i.peek with ⟨_ | _ | b, j⟩
    · rw [hp] at hdata
      exact (congrArg List.length hdata).le
    · rw [hp] at hdata
      exact (congrArg List.length hdata).le
    · have hcons := congrArg List.length (data_eq_cons_of_peek hp)
      rw [hp] at hdata
      rw [List.length_cons] at hcons
      have hlength := congrArg List.length hdata
      dsimp only at hlength ⊢
      split_ifs with hb
      · have := ih (group ++ [b]) j.advance
        omega
      · exact hlength.le

/-- A character is read from at least one byte. -/
theorem length_data_lt_of_readChar {i j : Input} {c : Char}
    (h : i.readChar = (.ok (some c), j)) : j.data.length < i.data.length := by
  have hdata := data_peek i
  rw [readChar] at h
  rcases hp : i.peek with ⟨_ | _ | lead, k⟩
  · simp [hp] at h
  · simp [hp] at h
  · have hcons := congrArg List.length (data_eq_cons_of_peek hp)
    rw [hp] at hdata h
    have hlength := congrArg List.length hdata
    rw [List.length_cons] at hcons
    dsimp only at hlength h
    cases hg : groupLength? lead with
    | none =>
      rw [hg] at h
      cases h
      omega
    | some n =>
      rw [hg] at h
      dsimp only at h
      have hle := length_data_readTail_le (n - 1) [lead] k.advance
      rw [h] at hle
      exact hle.trans_lt (by omega)

/-- The characters that are read one after another, up to the first end of input or fault. -/
def characters (i : Input) : List Char :=
  match h : i.readChar with
  | (.ok (some c), j) =>
    have := length_data_lt_of_readChar h
    c :: j.characters
  | (.ok none, _) => []
  | (.error _, _) => []
termination_by i.data.length

@[simp] theorem characters_ofBytes_nil : (ofBytes []).characters = [] := by
  rw [characters]
  rfl

/-- Bytes in memory are read group by group. -/
theorem characters_ofBytes {lead : UInt8} {tails rest : List UInt8} (h : Group lead tails rest) :
    (ofBytes (lead :: (tails ++ rest))).characters =
      character lead tails :: (ofBytes rest).characters := by
  rw [characters]
  split
  · next c j he =>
    rw [readChar_ofBytes h] at he
    cases he
    rfl
  · next he => simp [readChar_ofBytes h] at he
  · next he => simp [readChar_ofBytes h] at he

/-- Bytes that start afresh are read as if nothing came before them. -/
theorem characters_append {bytes more : List UInt8} (h : Fresh more) :
    (ofBytes (bytes ++ more)).characters =
      (ofBytes bytes).characters ++ (ofBytes more).characters := by
  induction bytes using group_induction with
  | nil => rw [characters_ofBytes_nil, List.nil_append, List.nil_append]
  | group lead tails rest hg ih =>
    rw [List.cons_append, List.append_assoc, characters_ofBytes (hg.append h), ih,
      characters_ofBytes hg, List.cons_append]

/-- Written text is read back. -/
theorem characters_encodeAll (text : List Char) : (ofBytes (encodeAll text)).characters = text := by
  induction text with
  | nil => exact characters_ofBytes_nil
  | cons c text ih =>
    obtain ⟨lead, tails, he, _, hc, hg⟩ := exists_group_encode c
    rw [encodeAll, List.flatMap_cons, he, List.cons_append, characters_ofBytes (hg _), hc]
    exact congrArg (c :: ·) ih

/-- Reading from memory never fails. -/
theorem exists_readChar_ofBytes (bytes : List UInt8) :
    ∃ c rest, (ofBytes bytes).readChar = (.ok c, ofBytes rest) := by
  cases bytes with
  | nil => exact ⟨none, [], readChar_ofBytes_nil⟩
  | cons lead bytes =>
    obtain ⟨tails, rest, rfl, hg⟩ := exists_group lead bytes
    exact ⟨_, rest, readChar_ofBytes hg⟩

/-- Reading from memory goes on to the end of input. Written text is read back exactly, whatever
bytes come before it, and those are read as they would be alone. -/
theorem characters_append_encodeAll (bytes : List UInt8) (text : List Char) :
    (∃ c rest, (ofBytes bytes).readChar = (.ok c, ofBytes rest)) ∧
    (ofBytes (bytes ++ encodeAll text)).characters = (ofBytes bytes).characters ++ text ∧
    (ofBytes (encodeAll text)).characters = text := by
  have htext := characters_encodeAll text
  refine ⟨exists_readChar_ofBytes bytes, ?_, htext⟩
  rw [characters_append (fresh_encodeAll text), htext]

end Input

end GridWalk
