import GridWalk.Proofs.Decoding
import GridWalk.Route.Basic
import Mathlib.Tactic

/-!
# Two readings of the same bytes

A program reads its input character by character, and a route is read as a whole. Both give
the same characters for well-formed groups. They differ in what they make of the rest: the
program takes a group with all the tail bytes it asks for and replaces it by one character,
while a route has one replacement for each part that no well-formed group continues. Such a
part never reaches past the group, so the two readings meet again behind every group.
-/

namespace GridWalk

namespace Text

/-! ### Which groups write a character -/

/-- A number that is a code is the code of its character. -/
theorem toNat_ofNat_of_code {n : ℕ} (h : n < 55296 ∨ 57343 < n ∧ n < 1114112) :
    (Char.ofNat n).toNat = n := by
  rw [Char.ofNat, dif_pos h]
  rfl

theorem ofNat_eq_iff {n : ℕ} {b : UInt8} (h : n < 256) : UInt8.ofNat n = b ↔ n = b.toNat := by
  rw [← UInt8.toNat_inj, UInt8.toNat_ofNat', Nat.mod_eq_of_lt h]

/-- A byte below `80` is the group of its own code. -/
theorem decode?_singleton {b : UInt8} (h : b.toNat < 128) :
    decode? [b] = some (Char.ofNat b.toNat) := by
  have he : encode (Char.ofNat b.toNat) = [b] := by
    rw [encode_eq, toNat_ofNat_of_code (by omega), if_pos (by omega), UInt8.ofNat_toNat]
  rw [← he, decode?_encode]

/-- The second bytes that a first byte allows, among the tail bytes: those of which fewer bytes
would do, surrogates and codes beyond the last plane are left out. -/
def Allows (lead second : UInt8) : Prop :=
  (lead.toNat = 224 → 160 ≤ second.toNat) ∧ (lead.toNat = 237 → second.toNat < 160) ∧
    (lead.toNat = 240 → 144 ≤ second.toNat) ∧ (lead.toNat = 244 → second.toNat < 144)

section
variable {lead b : UInt8} {tails : List UInt8}

/-- A written character has a second byte that its first byte allows. -/
theorem allows_of_encode {c : Char} (h : encode c = lead :: b :: tails) : Allows lead b := by
  have hc : c.toNat < 55296 ∨ 57343 < c.toNat ∧ c.toNat < 1114112 := c.valid
  unfold Allows
  rw [encode_eq] at h
  split_ifs at h with h1 h2 h3
  · cases h
  all_goals
    simp only [List.cons.injEq, ← UInt8.toNat_inj, UInt8.toNat_ofNat'] at h
    omega

/-- The first bytes of longer groups, by the number of bytes behind the second. -/
theorem groupLength?_cases {n : ℕ} (h : groupLength? lead = some (n + 2)) :
    n = 0 ∧ 194 ≤ lead.toNat ∧ lead.toNat < 224 ∨
    n = 1 ∧ 224 ≤ lead.toNat ∧ lead.toNat < 240 ∨
    n = 2 ∧ 240 ≤ lead.toNat ∧ lead.toNat < 245 := by
  rw [groupLength?_eq] at h
  split_ifs at h
  all_goals
    rw [Option.some.injEq] at h
    omega

theorem toNat_lt_of_groupLength? (h : groupLength? lead = some 1) : lead.toNat < 128 := by
  rw [groupLength?_eq] at h
  split_ifs at h with hlt
  · exact hlt
  all_goals cases h

/-- A complete group whose second byte is allowed writes the character of its payload. -/
theorem encode_groupValue (hg : groupLength? lead = some (tails.length + 2))
    (ht : ∀ x ∈ b :: tails, isTail x = true) (ha : Allows lead b) :
    encode (Char.ofNat (groupValue (lead :: b :: tails))) = lead :: b :: tails := by
  unfold Allows at ha
  rcases groupLength?_cases hg with ⟨hl, hlow, hhigh⟩ | ⟨hl, hlow, hhigh⟩ | ⟨hl, hlow, hhigh⟩
  · obtain rfl := List.length_eq_zero_iff.1 hl
    simp only [List.forall_mem_cons, isTail_iff] at ht
    have hv : groupValue [lead, b] = lead.toNat % 32 * 64 + b.toNat % 64 := rfl
    generalize groupValue [lead, b] = v at hv
    rw [encode_eq, toNat_ofNat_of_code (by omega), if_neg (by omega), if_pos (by omega)]
    congr 2 <;> (rw [ofNat_eq_iff (by omega)]; omega)
  · obtain ⟨c, rfl⟩ := List.length_eq_one_iff.1 hl
    simp only [List.forall_mem_cons, isTail_iff] at ht
    have hv : groupValue [lead, b, c] =
        (lead.toNat % 16 * 64 + b.toNat % 64) * 64 + c.toNat % 64 := rfl
    generalize groupValue [lead, b, c] = v at hv
    rw [encode_eq, toNat_ofNat_of_code (by omega), if_neg (by omega), if_neg (by omega),
      if_pos (by omega)]
    congr 3 <;> (rw [ofNat_eq_iff (by omega)]; omega)
  · obtain ⟨c, d, rfl⟩ := List.length_eq_two.1 hl
    simp only [List.forall_mem_cons, isTail_iff] at ht
    have hv : groupValue [lead, b, c, d] =
        ((lead.toNat % 8 * 64 + b.toNat % 64) * 64 + c.toNat % 64) * 64 + d.toNat % 64 := rfl
    generalize groupValue [lead, b, c, d] = v at hv
    rw [encode_eq, toNat_ofNat_of_code (by omega), if_neg (by omega), if_neg (by omega),
      if_neg (by omega)]
    congr 4 <;> (rw [ofNat_eq_iff (by omega)]; omega)

/-- A complete group can be read exactly if its second byte is allowed. -/
theorem decode?_eq_of_allows (hg : groupLength? lead = some (tails.length + 2))
    (ht : ∀ x ∈ b :: tails, isTail x = true) (ha : Allows lead b) :
    decode? (lead :: b :: tails) = some (Char.ofNat (groupValue (lead :: b :: tails))) := by
  have he := decode?_encode (Char.ofNat (groupValue (lead :: b :: tails)))
  rwa [encode_groupValue hg ht ha] at he

theorem decode?_eq_none_of_not_allows (ha : ¬ Allows lead b) :
    decode? (lead :: b :: tails) = none := by
  rw [Option.eq_none_iff_forall_ne_some]
  intro c hc
  exact ha (allows_of_encode (encode_of_decode? hc))

/-- The payload of a group, when `value` was read before these tail bytes. -/
def payload (value : ℕ) (tails : List UInt8) : ℕ :=
  tails.foldl (fun value b => value * 64 + b.toNat % 64) value

/-- The payload of a longer group is read byte by byte. -/
theorem groupValue_eq_payload (hg : groupLength? lead = some (tails.length + 2)) :
    groupValue (lead :: b :: tails) =
      payload (lead.toNat % 2 ^ (5 - tails.length)) (b :: tails) := by
  rcases groupLength?_cases hg with ⟨hl, _⟩ | ⟨hl, _⟩ | ⟨hl, _⟩
  · obtain rfl := List.length_eq_zero_iff.1 hl
    rfl
  · obtain ⟨c, rfl⟩ := List.length_eq_one_iff.1 hl
    rfl
  · obtain ⟨c, d, rfl⟩ := List.length_eq_two.1 hl
    rfl

/-- A byte that announces a longer group opens one, which goes on with the tail bytes that the
byte allows. -/
theorem exists_open? {n : ℕ} (h : groupLength? lead = some (n + 2)) :
    ∃ p, Pending.open? lead = some p ∧ p.after = n ∧ p.value = lead.toNat % 2 ^ (5 - n) ∧
      ∀ b, p.low ≤ b ∧ b ≤ p.high ↔ isTail b = true ∧ Allows lead b := by
  have hrange := groupLength?_cases h
  simp only [Pending.open?, UInt8.lt_iff_toNat_lt, ← UInt8.toNat_inj, UInt8.reduceToNat]
  split_ifs
  all_goals try omega
  all_goals
    refine ⟨_, rfl, ?_, ?_, ?_⟩
    · dsimp only
      omega
    · dsimp only
      rcases hrange with ⟨rfl, _⟩ | ⟨rfl, _⟩ | ⟨rfl, _⟩ <;> omega
    · intro b
      simp only [UInt8.le_iff_toNat_le, isTail_iff, Allows, UInt8.reduceToNat]
      omega

end

namespace Decoder

/-! ### What is still to be read -/

/-- The text that a reader with this group under way makes of the bytes to come. -/
def remainder (pending : Option Pending) (bytes : List UInt8) : List Char :=
  (bytes.foldl feed { pending }).finish

theorem repair_eq_remainder (bytes : List UInt8) : repair bytes = remainder none bytes := rfl

theorem start_eq (text : List Char) (b : UInt8) :
    start text b = ⟨(start [] b).text ++ text, (start [] b).pending⟩ := by
  unfold start
  split
  · rfl
  · cases Pending.open? b <;> rfl

/-- The text so far does not matter to what is read next. -/
theorem feed_eq (text : List Char) (pending : Option Pending) (b : UInt8) :
    feed ⟨text, pending⟩ b =
      ⟨(feed { pending } b).text ++ text, (feed { pending } b).pending⟩ := by
  cases pending with
  | none => exact start_eq text b
  | some p =>
    simp only [feed]
    split
    · cases p.after <;> rfl
    · rw [start_eq (replacement :: text), start_eq [replacement], List.append_assoc]
      rfl

/-- The text so far comes first. -/
theorem finish_foldl_feed (bytes : List UInt8) (text : List Char) (pending : Option Pending) :
    (bytes.foldl feed ⟨text, pending⟩).finish = text.reverse ++ remainder pending bytes := by
  induction bytes generalizing text pending with
  | nil => cases pending <;> simp [remainder, finish]
  | cons b bytes ih =>
    have hrest := ih (feed { pending } b).text (feed { pending } b).pending
    rw [remainder, List.foldl_cons, List.foldl_cons, feed_eq, ih, List.reverse_append,
      List.append_assoc]
    exact congrArg (text.reverse ++ ·) hrest.symm

section
variable {b : UInt8} (bytes : List UInt8)

/-- A reader goes on from what the next byte makes of it. -/
theorem remainder_cons (pending : Option Pending) (b : UInt8) :
    remainder pending (b :: bytes) =
      (feed { pending } b).text.reverse ++ remainder (feed { pending } b).pending bytes :=
  finish_foldl_feed bytes _ _

/-- A byte below `80` is a character of its own. -/
theorem remainder_none_ascii (h : b < 0x80) :
    remainder none (b :: bytes) = Char.ofNat b.toNat :: remainder none bytes := by
  simp [remainder_cons, feed, start, h]

/-- A byte that opens no group is unreadable. -/
theorem remainder_none_unreadable (h : ¬ b < 0x80) (ho : Pending.open? b = none) :
    remainder none (b :: bytes) = replacement :: remainder none bytes := by
  simp [remainder_cons, feed, start, h, ho]

theorem remainder_none_open {p : Pending} (h : ¬ b < 0x80) (ho : Pending.open? b = some p) :
    remainder none (b :: bytes) = remainder (some p) bytes := by
  simp [remainder_cons, feed, start, h, ho]

variable {p : Pending}

/-- The last byte of a group completes a character. -/
theorem remainder_some_last (h : p.low ≤ b ∧ b ≤ p.high) (ha : p.after = 0) :
    remainder (some p) (b :: bytes) =
      Char.ofNat (p.value * 64 + b.toNat % 64) :: remainder none bytes := by
  simp [remainder_cons, feed, h, ha]

/-- Any other byte of a group leaves it under way. -/
theorem remainder_some_next {k : ℕ} (h : p.low ≤ b ∧ b ≤ p.high) (ha : p.after = k + 1) :
    remainder (some p) (b :: bytes) =
      remainder (some { value := p.value * 64 + b.toNat % 64, after := k }) bytes := by
  simp [remainder_cons, feed, h, ha]

/-- A byte that cannot continue a group leaves it unreadable, and is read afresh. -/
theorem remainder_some_broken (h : ¬ (p.low ≤ b ∧ b ≤ p.high)) :
    remainder (some p) (b :: bytes) = replacement :: remainder none (b :: bytes) := by
  simp only [remainder_cons, feed, h, if_false]
  rw [start_eq [replacement]]
  simp

end

/-- A byte that announces no group is unreadable. -/
theorem remainder_none_of_groupLength? {b : UInt8} (h : groupLength? b = none)
    (bytes : List UInt8) :
    remainder none (b :: bytes) = replacement :: remainder none bytes := by
  rw [groupLength?_eq] at h
  have hrange : 128 ≤ b.toNat ∧ b.toNat < 194 ∨ 245 ≤ b.toNat := by
    split_ifs at h
    · omega
    · omega
  apply remainder_none_unreadable
  · simp only [UInt8.lt_iff_toNat_lt, UInt8.reduceToNat]
    omega
  · simp only [Pending.open?, UInt8.lt_iff_toNat_lt, ← UInt8.toNat_inj, UInt8.reduceToNat]
    rcases hrange with ⟨-, hlow⟩ | hhigh
    · rw [if_pos hlow]
    · rw [if_neg (by omega), if_neg (by omega), if_neg (by omega), if_neg (by omega),
        if_neg (by omega), if_neg (by omega), if_neg (by omega), if_neg (by omega)]

/-- Tail bytes without a first byte are unreadable one by one. -/
theorem remainder_none_tails {tails : List UInt8} (ht : ∀ b ∈ tails, isTail b = true)
    (rest : List UInt8) :
    remainder none (tails ++ rest) =
      List.replicate tails.length replacement ++ remainder none rest := by
  induction tails with
  | nil => rfl
  | cons b tails ih =>
    obtain ⟨hb, ht⟩ := List.forall_mem_cons.1 ht
    have hnone : groupLength? b = none := by
      cases hg : groupLength? b with
      | none => rfl
      | some n => simp [isTail_of_groupLength? hg] at hb
    rw [List.cons_append, remainder_none_of_groupLength? hnone, ih ht]
    rfl

/-- A group under way is cut short by bytes that start afresh. -/
theorem remainder_some_fresh {p : Pending} {rest : List UInt8}
    (hp : ∀ b, p.low ≤ b ∧ b ≤ p.high → isTail b = true) (h : Fresh rest) :
    remainder (some p) rest = replacement :: remainder none rest := by
  cases rest with
  | nil => rfl
  | cons b rest =>
    apply remainder_some_broken
    intro hb
    have := hp b hb
    rw [fresh_cons.1 h] at this
    cases this

/-- The range of a group past its second byte is that of the tail bytes. -/
theorem tailRange_iff {b : UInt8} : (0x80 : UInt8) ≤ b ∧ b ≤ (0xbf : UInt8) ↔ isTail b = true := by
  simp only [isTail_iff, UInt8.le_iff_toNat_le, UInt8.reduceToNat]
  omega

/-- A group under way that can go on takes the tail bytes that follow, up to those that are owed.
It gives a character when it gets them all. -/
theorem remainder_some_tails {p : Pending} {b : UInt8} {tails rest : List UInt8}
    (hb : p.low ≤ b ∧ b ≤ p.high) (ht : ∀ x ∈ tails, isTail x = true)
    (hl : tails.length ≤ p.after) (hs : tails.length = p.after ∨ Fresh rest) :
    remainder (some p) (b :: (tails ++ rest)) =
      (if tails.length = p.after then Char.ofNat (payload p.value (b :: tails))
        else replacement) :: remainder none rest := by
  induction tails generalizing p b with
  | nil =>
    cases ha : p.after with
    | zero =>
      rw [remainder_some_last _ hb ha]
      rfl
    | succ k =>
      have hfresh : Fresh rest := hs.resolve_left (by simp [ha])
      rw [remainder_some_next _ hb ha, if_neg (by simp)]
      exact remainder_some_fresh (fun x hx => tailRange_iff.1 hx) hfresh
  | cons c tails ih =>
    obtain ⟨hc, ht⟩ := List.forall_mem_cons.1 ht
    obtain ⟨k, ha⟩ := Nat.exists_eq_add_one_of_ne_zero (Nat.ne_zero_of_lt hl)
    rw [ha] at hl hs ⊢
    have hrest := ih (p := { value := p.value * 64 + b.toNat % 64, after := k })
      (tailRange_iff.2 hc) ht (Nat.le_of_succ_le_succ hl) (hs.imp_left Nat.succ.inj)
    rw [remainder_some_next _ hb ha, List.cons_append, hrest]
    simp [payload]

/-! ### The two readings of a group -/

/-- A longer group whose second byte is allowed is one character to both readers, which is the
replacement if the group is cut short. -/
theorem remainder_of_allows {lead b : UInt8} {tails rest : List UInt8} {p : Pending}
    (hg : groupLength? lead = some (p.after + 2))
    (hvalue : p.value = lead.toNat % 2 ^ (5 - p.after))
    (hb : p.low ≤ b ∧ b ≤ p.high) (ha : Allows lead b) (h : Group lead (b :: tails) rest) :
    remainder (some p) (b :: (tails ++ rest)) =
      character lead (b :: tails) :: remainder none rest := by
  obtain ⟨_, ht⟩ := List.forall_mem_cons.1 h.tail
  have howed : owed lead = p.after + 1 := by rw [owed, hg]; rfl
  have hl := h.length_le
  have hs := h.stops
  rw [howed, List.length_cons] at hl hs
  rw [remainder_some_tails hb ht (Nat.le_of_succ_le_succ hl) (hs.imp_left Nat.succ.inj), character,
    hg, List.length_cons]
  by_cases hlength : tails.length = p.after
  · have hg' : groupLength? lead = some (tails.length + 2) := by rw [hg, hlength]
    rw [if_pos hlength, if_pos (by rw [hlength]), decode?_eq_of_allows hg' h.tail ha,
      groupValue_eq_payload hg', hlength, hvalue]
    rfl
  · have hne : some (p.after + 2) ≠ some (tails.length + 1 + 1) := by
      rw [ne_eq, Option.some.injEq]
      omega
    rw [if_neg hlength, if_neg hne]

/-- Behind a group, a reader of the whole is where a reader of single characters is. Before, the
two have read the same character, or the group cannot be read and all of it was replaced. -/
theorem remainder_group {lead : UInt8} {tails rest : List UInt8} (h : Group lead tails rest) :
    remainder none (lead :: (tails ++ rest)) = character lead tails :: remainder none rest ∨
    decode? (lead :: tails) = none ∧ character lead tails = replacement ∧
      remainder none (lead :: (tails ++ rest)) =
        replacement :: (List.replicate tails.length replacement ++ remainder none rest) := by
  have hl := h.length_le
  rw [owed] at hl
  rcases hg : groupLength? lead with _ | _ | _ | n
  · left
    obtain rfl : tails = [] := by simpa [hg] using hl
    rw [List.nil_append, remainder_none_of_groupLength? hg, character, hg, if_neg (by simp)]
  · exact absurd rfl (groupLength?_ne_zero hg)
  · left
    obtain rfl : tails = [] := by simpa [hg] using hl
    have hlead := toNat_lt_of_groupLength? hg
    have hascii : lead < 0x80 := by simpa [UInt8.lt_iff_toNat_lt] using hlead
    rw [List.nil_append, remainder_none_ascii _ hascii, character, hg, decode?_singleton hlead]
    rfl
  · obtain ⟨p, hopen, rfl, hvalue, hrange⟩ := exists_open? hg
    have hascii : ¬ lead < 0x80 := by
      have := groupLength?_cases hg
      simp only [UInt8.lt_iff_toNat_lt, UInt8.reduceToNat]
      omega
    rw [remainder_none_open _ hascii hopen]
    cases tails with
    | nil =>
      left
      have hfresh : Fresh rest := h.stops.resolve_left (by simp [owed, hg])
      rw [List.nil_append, character, hg, if_neg (by simp)]
      exact remainder_some_fresh (fun b hb => ((hrange b).1 hb).1) hfresh
    | cons b tails =>
      have hb : isTail b = true := h.tail b List.mem_cons_self
      by_cases ha : Allows lead b
      · left
        exact remainder_of_allows hg hvalue ((hrange b).2 ⟨hb, ha⟩) ha h
      · right
        have hnone : decode? (lead :: b :: tails) = none := decode?_eq_none_of_not_allows ha
        refine ⟨hnone, ?_, ?_⟩
        · rw [character, hnone, Option.getD_none, ite_self]
        · rw [List.cons_append, remainder_some_broken _ fun hin => ha ((hrange b).1 hin).2,
            ← List.cons_append, remainder_none_tails h.tail]

end Decoder

/-! ### The two readings of a text -/

/-- Written text is read as it was written. -/
theorem repair_encodeAll (text : List Char) : repair (encodeAll text) = text := by
  induction text with
  | nil => rfl
  | cons c text ih =>
    obtain ⟨lead, tails, he, _, hc, hg⟩ := exists_group_encode c
    have hsome := decode?_encode c
    rw [encodeAll, List.flatMap_cons, he, List.cons_append, Decoder.repair_eq_remainder]
    rcases Decoder.remainder_group (hg (encodeAll text)) with hread | ⟨hnone, _⟩
    · rw [hc] at hread
      exact hread.trans (congrArg (c :: ·) ih)
    · rw [he, hnone] at hsome
      cases hsome

/-- Reading character by character and reading as a whole give the same text up to replacements,
of which the first gives no more than the second. -/
theorem characters_repair (bytes : List UInt8) :
    (Input.ofBytes bytes).characters.filter (· ≠ replacement) =
      (repair bytes).filter (· ≠ replacement) ∧
    (Input.ofBytes bytes).characters.count replacement ≤ (repair bytes).count replacement := by
  induction bytes using group_induction with
  | nil => simp [Decoder.repair_eq_remainder, Decoder.remainder, Decoder.finish]
  | group lead tails rest hg ih =>
    obtain ⟨hfilter, hcount⟩ := ih
    rw [Input.characters_ofBytes hg, Decoder.repair_eq_remainder]
    rw [Decoder.repair_eq_remainder] at hfilter hcount
    rcases Decoder.remainder_group hg with hread | ⟨_, hc, hread⟩
    · rw [hread, List.filter_cons, List.filter_cons, hfilter, List.count_cons, List.count_cons]
      exact ⟨rfl, Nat.add_le_add_right hcount _⟩
    · rw [hread, hc]
      constructor
      · simpa using hfilter
      · rw [List.count_cons_self, List.count_cons_self, List.count_append]
        omega

end Text

/-- Whatever the bytes are, reading them character by character and reading them as the text of a
route give the same characters once replacements are left out, and the first gives no more
replacements than the second. Well-formed bytes read the same both ways. -/
theorem Route.characters_agree (name : String) (bytes : List UInt8) :
    let read := (Input.ofBytes bytes).characters
    let text := (Route.ofBytes name bytes).text.toList
    read.filter (· ≠ Text.replacement) = text.filter (· ≠ Text.replacement) ∧
    read.count Text.replacement ≤ text.count Text.replacement ∧
    ((⟨bytes.toArray⟩ : ByteArray).IsValidUTF8 → read = text) := by
  intro read text
  have htext : text = Text.repair bytes := String.toList_ofList
  obtain ⟨hfilter, hcount⟩ := Text.characters_repair bytes
  rw [htext]
  refine ⟨hfilter, hcount, ?_⟩
  rintro ⟨written, hw⟩
  have hbytes : bytes = Text.encodeAll written := by
    have hdata := congrArg (fun b => b.data.toList) hw
    change bytes = written.flatMap String.utf8EncodeChar
    simpa [List.utf8Encode] using hdata
  have hread : read = _ := congrArg (fun b => (Input.ofBytes b).characters) hbytes
  rw [hread, hbytes, Input.characters_encodeAll, Text.repair_encodeAll]

/-- A letter of two bytes and a replacement character that was written as such. -/
theorem Route.characters_agree_written :
    let bytes : List UInt8 := [0xc3, 0xa9, 0xef, 0xbf, 0xbd]
    (⟨bytes.toArray⟩ : ByteArray).IsValidUTF8 ∧
    (Route.ofBytes "text" bytes).text.toList = ['é', Text.replacement] ∧
    (Input.ofBytes bytes).characters = (Route.ofBytes "text" bytes).text.toList := by
  intro bytes
  have hvalid : (⟨bytes.toArray⟩ : ByteArray).IsValidUTF8 :=
    ⟨['é', Text.replacement], by decide⟩
  have htext : (Route.ofBytes "text" bytes).text.toList = ['é', Text.replacement] := by
    rw [Route.ofBytes, String.toList_ofList]
    decide
  exact ⟨hvalid, htext, (Route.characters_agree "text" bytes).2.2 hvalid⟩

end GridWalk
