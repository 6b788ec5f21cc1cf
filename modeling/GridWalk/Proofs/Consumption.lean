import GridWalk.Proofs.Decoding

/-!
# What reading consumes

Reading a character takes a group of bytes from the input, whatever disturbs it on the way. The
input may end for once or fail before any byte of the group. What was taken by then is gone, and
what was not is still to come. So the groups taken by the calls, one after another, are the bytes
that the input delivers, and a character can be held against the group that it was read from.
-/

namespace GridWalk

namespace Text

/-- A first byte asks for at most three tail bytes. -/
theorem owed_le_three (lead : UInt8) : owed lead ≤ 3 := by
  rw [owed, groupLength?_eq]
  split_ifs <;> decide

/-- A character is read from the group that writes it, unless it stands for something unreadable. -/
theorem encode_character {lead : UInt8} {tails : List UInt8}
    (h : character lead tails ≠ replacement) :
    encode (character lead tails) = lead :: tails := by
  unfold character at h ⊢
  split_ifs at h ⊢ with hlength
  · cases hd : decode? (lead :: tails) with
    | none => exact absurd (by rw [hd]; rfl) h
    | some c => exact encode_of_decode? hd
  · exact absurd rfl h

/-- The group that writes a character reads as that character and as no other. -/
theorem character_of_encode {c : Char} {lead : UInt8} {tails : List UInt8}
    (h : encode c = lead :: tails) : character lead tails = c := by
  obtain ⟨lead', tails', he, _, hc, _⟩ := exists_group_encode c
  obtain ⟨rfl, rfl⟩ := List.cons.inj (he.symm.trans h)
  exact hc

end Text

namespace Input

open Text

/-! ### One call -/

/-- A reader asks again after an interruption, so it never sees one. -/
theorem isInterrupted_of_peek {i j : Input} {f : Fault} (h : i.peek = (.error f, j)) :
    f.isInterrupted = false := by
  unfold peek at h
  split at h
  · simp at h
  · generalize i.coming = coming at h
    fun_induction peekComing coming with
    | case1 => simp at h
    | case2 bytes coming => simp at h
    | case3 f' coming hf ih => exact ih h
    | case4 f' coming hf =>
      simp only [Prod.mk.injEq, Except.error.injEq] at h
      rw [← h.1]
      simpa using hf

/-- The tail bytes of a group are taken one by one. They are fewer than asked for when a fault or
another byte comes between them. -/
theorem exists_tails_of_readTail {n : ℕ} {group : List UInt8} {i j : Input}
    {result : Except Fault (Option Char)} (h : readTail n group i = (result, j)) :
    ∃ tails, i.data = tails ++ j.data ∧ tails.length ≤ n ∧
      ((∃ f, result = .error f ∧ f.isInterrupted = false ∧ tails.length < n) ∨
        result = .ok (some (if tails.length = n then (decode? (group ++ tails)).getD replacement
          else replacement))) := by
  induction n generalizing group i with
  | zero =>
    cases h
    exact ⟨[], rfl, le_rfl, Or.inr (by simp)⟩
  | succ n ih =>
    have hdata := data_peek i
    rw [readTail] at h
    rcases hp : i.peek with ⟨f | _ | b, k⟩ <;> rw [hp] at h hdata <;> dsimp only at h hdata
    · cases h
      refine ⟨[], hdata.symm, Nat.zero_le _, Or.inl ⟨f, rfl, isInterrupted_of_peek hp, ?_⟩⟩
      exact Nat.succ_pos n
    · cases h
      exact ⟨[], hdata.symm, Nat.zero_le _, Or.inr (by simp)⟩
    · split_ifs at h with hb
      · obtain ⟨tails, htails, hlength, hresult⟩ := ih h
        refine ⟨b :: tails, ?_, Nat.succ_le_succ hlength, ?_⟩
        · rw [← hdata, data_eq_cons_of_peek hp, htails, List.cons_append]
        · simpa using hresult
      · cases h
        exact ⟨[], hdata.symm, Nat.zero_le _, Or.inr (by simp)⟩

/-- What a call that reads a character can take from the input, by what it returns. -/
inductive Takes : Except Fault (Option Char) → List UInt8 → Prop
  /-- The end of input takes nothing. -/
  | ended : Takes (.ok none) []
  /-- A character takes a first byte and no more tail bytes than that asks for. -/
  | character {lead tails} : tails.length ≤ owed lead →
      Takes (.ok (some (character lead tails))) (lead :: tails)
  /-- A fault comes before the last byte of a group. -/
  | fault {f group} : f.isInterrupted = false → group.length ≤ 3 → Takes (.error f) group

/-- Reading a character takes a group from the bytes to come and leaves the others. -/
theorem exists_takes (i : Input) :
    ∃ group, i.data = group ++ i.readChar.2.data ∧ Takes i.readChar.1 group := by
  have hdata := data_peek i
  rw [readChar]
  rcases hp : i.peek with ⟨f | _ | lead, k⟩ <;> rw [hp] at hdata <;> dsimp only at hdata ⊢
  · exact ⟨[], hdata.symm, .fault (isInterrupted_of_peek hp) (Nat.zero_le _)⟩
  · exact ⟨[], hdata.symm, .ended⟩
  · have hlead : i.data = lead :: k.advance.data := hdata.symm.trans (data_eq_cons_of_peek hp)
    cases hg : groupLength? lead with
    | none =>
      refine ⟨[lead], hlead, ?_⟩
      have hc : character lead [] = replacement := by simp [character, hg]
      exact hc ▸ .character (Nat.zero_le _)
    | some n =>
      have howed : owed lead = n - 1 := by rw [owed, hg]; rfl
      dsimp only
      rcases hr : readTail (n - 1) [lead] k.advance with ⟨result, j⟩
      obtain ⟨tails, htails, hlength, hresult⟩ := exists_tails_of_readTail hr
      refine ⟨lead :: tails, by rw [hlead, htails, List.cons_append], ?_⟩
      rcases hresult with ⟨f, rfl, hf, hshort⟩ | rfl
      · have hthree := owed_le_three lead
        have hgroup : (lead :: tails).length ≤ 3 := by
          rw [List.length_cons]
          omega
        exact .fault hf hgroup
      · rw [List.singleton_append, ← character_eq_of_groupLength? hg]
        exact .character (howed ▸ hlength)

/-! ### Call after call -/

/-- The input after so many calls that read a character, whatever they returned. -/
def afterReads (i : Input) (n : ℕ) : Input := (fun j => j.readChar.2)^[n] i

/-- The bytes that the next call that reads a character takes: those to come before it, without
those to come after it. -/
def taken (i : Input) : List UInt8 := i.data.take (i.data.length - i.readChar.2.data.length)

theorem afterReads_succ (i : Input) (n : ℕ) :
    i.afterReads (n + 1) = (i.afterReads n).readChar.2 :=
  Function.iterate_succ_apply' _ n i

/-- What a call takes and what it leaves are the bytes to come before it. -/
theorem taken_spec (i : Input) :
    i.taken ++ i.readChar.2.data = i.data ∧ Takes i.readChar.1 i.taken := by
  obtain ⟨group, hdata, htakes⟩ := i.exists_takes
  have htaken : i.taken = group := by
    rw [taken, hdata, List.length_append, Nat.add_sub_cancel, List.take_left]
  rw [htaken]
  exact ⟨hdata.symm, htakes⟩

/-- The groups taken by the calls are the bytes that are no longer to come. -/
theorem flatMap_taken (i : Input) (n : ℕ) :
    ((List.range n).flatMap fun k => (i.afterReads k).taken) ++ (i.afterReads n).data = i.data := by
  induction n with
  | zero => rfl
  | succ n ih =>
    rw [List.range_succ, List.flatMap_append, List.flatMap_singleton, List.append_assoc,
      afterReads_succ, (taken_spec _).1, ih]

/-- However the bytes of an input are cut up and whatever faults lie between them, the groups taken
by successive calls and the bytes still to come are the bytes of the input in order. A call that
returns a character takes one to four bytes: those that write the character, and for a replacement
character those that write it or none that write any. The end of input takes no byte, and a failing
call takes at most three and is never interrupted. -/
theorem reads_account_for_bytes (i : Input) (n : ℕ) :
    ((List.range n).flatMap fun k => (i.afterReads k).taken) ++ (i.afterReads n).data = i.data ∧
    ∀ k < n,
      let j := i.afterReads k
      j.data = j.taken ++ (i.afterReads (k + 1)).data ∧
      (∀ c, j.readChar.1 = .ok (some c) →
        1 ≤ j.taken.length ∧ j.taken.length ≤ 4 ∧
        (c ≠ '\ufffd' → j.taken = encode c) ∧
        (c = '\ufffd' → j.taken = [0xef, 0xbf, 0xbd] ∨ ∀ c', encode c' ≠ j.taken)) ∧
      (j.readChar.1 = .ok none → j.taken = []) ∧
      ∀ f, j.readChar.1 = .error f → j.taken.length ≤ 3 ∧ f.kind ≠ .interrupted := by
  refine ⟨i.flatMap_taken n, ?_⟩
  intro k _ j
  rw [afterReads_succ]
  obtain ⟨hdata, htakes⟩ := j.taken_spec
  refine ⟨hdata.symm, ?_⟩
  generalize j.readChar.1 = result at htakes
  generalize j.taken = group at htakes
  cases htakes with
  | ended => simp
  | @character lead tails hlength =>
    refine ⟨?_, by simp, by simp⟩
    rintro c hc
    obtain rfl : character lead tails = c := by simpa using hc
    have hthree := owed_le_three lead
    refine ⟨by simp, by rw [List.length_cons]; omega, fun hne => (encode_character hne).symm, ?_⟩
    intro heq
    by_contra hno
    push Not at hno
    obtain ⟨hother, c', hc'⟩ := hno
    rw [← hc', ← character_of_encode hc', heq] at hother
    exact hother rfl
  | @fault f group hf hlength =>
    refine ⟨by simp, by simp, ?_⟩
    rintro f' hf'
    obtain rfl : f = f' := by simpa using hf'
    exact ⟨hlength, by simpa [Fault.isInterrupted] using hf⟩

/-- A group of three bytes with an interruption in it and a fault before its last byte, which is
read by itself, and a group of two bytes across the end of a chunk. -/
theorem reads_account_for_bytes_disturbed :
    let pipe : Fault := ⟨.brokenPipe, "pipe"⟩
    let i : Input := ⟨[], [.chunk [0xe2], .fault ⟨.interrupted, "interrupted"⟩, .chunk [0x82],
      .fault pipe, .chunk [0xac, 0xc3], .chunk [0xa9], .chunk []]⟩
    (i.afterReads 0).readChar.1 = .error pipe ∧ (i.afterReads 0).taken.length ≤ 3 ∧
    (i.afterReads 1).readChar.1 = .ok (some '\ufffd') ∧ 1 ≤ (i.afterReads 1).taken.length ∧
    (i.afterReads 2).readChar.1 = .ok (some 'é') ∧ (i.afterReads 2).taken = encode 'é' ∧
    (i.afterReads 3).readChar.1 = .ok none ∧ (i.afterReads 3).taken = [] ∧
    (((List.range 4).flatMap fun k => (i.afterReads k).taken) ++ (i.afterReads 4).data =
      [0xe2, 0x82, 0xac, 0xc3, 0xa9]) := by
  intro pipe i
  obtain ⟨hbytes, hcalls⟩ := reads_account_for_bytes i 4
  have hpipe : (i.afterReads 0).readChar.1 = .error pipe := by decide
  have hreplaced : (i.afterReads 1).readChar.1 = .ok (some '\ufffd') := by decide
  have hread : (i.afterReads 2).readChar.1 = .ok (some 'é') := by decide
  have hended : (i.afterReads 3).readChar.1 = .ok none := by decide
  obtain ⟨_, _, _, hfault⟩ := hcalls 0 (by decide)
  obtain ⟨_, hlone, _, _⟩ := hcalls 1 (by decide)
  obtain ⟨_, hwritten, _, _⟩ := hcalls 2 (by decide)
  obtain ⟨_, _, hend, _⟩ := hcalls 3 (by decide)
  exact ⟨hpipe, (hfault pipe hpipe).1, hreplaced, (hlone _ hreplaced).1, hread,
    (hwritten 'é' hread).2.2.1 (by decide), hended, hend hended, hbytes⟩

end Input

end GridWalk
