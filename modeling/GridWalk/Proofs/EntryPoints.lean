import GridWalk.Proofs.Agreement
import GridWalk.Proofs.Delivery
import GridWalk.Route.Compile

/-!
# Ways to hand in a route

A route is given as a text, as the bytes of a text, or as an input that delivers bytes. The bytes
of a text spell the text, and an input is read up to its first end before anything is compiled.
All three therefore compile to the same, however the input cuts the bytes up. An input is
unreadable exactly if something other than an interruption fails before its first end.
-/

namespace GridWalk.Route

/-- The bytes of a text are those of its characters. -/
theorem toList_toUTF8 (text : String) : text.toUTF8.data.toList = Text.encodeAll text.toList := by
  rw [String.toUTF8_eq_toByteArray, ← String.utf8Encode_toList, List.utf8Encode]
  simp only [List.data_toByteArray]
  rfl

/-- The bytes of a text spell the text. -/
theorem ofBytes_toUTF8 (name text : String) :
    ofBytes name text.toUTF8.data.toList = ⟨name, text⟩ := by
  rw [ofBytes, toList_toUTF8, Text.repair_encodeAll, String.ofList_toList]

section
variable (name : String) (config : Config)

/-- Compiling never blames the reading. -/
theorem compile_ne_unreadable (r : Route) (f : Fault) :
    r.compile config ≠ .error (.unreadable f) := by
  unfold compile
  split
  · simp
  · split <;> simp

/-- An input compiles as its bytes before the first end do, unless a failure comes first. -/
theorem compileInput_eq (i : Input) :
    compileInput name i config = match i.failure? with
      | some f => .error (.unreadable f)
      | none => (ofBytes name i.source).compile config := by
  rw [compileInput, Input.readAll_eq]
  cases i.failure? <;> rfl

/-- Where nothing but interruptions comes before the first end, the bytes decide. -/
theorem compileInput_of_seamless {i : Input} (h : ∀ d ∈ i.untilEnd, d.Seamless) :
    compileInput name i config = (ofBytes name i.source).compile config := by
  rw [compileInput_eq, Input.failure?_eq_none_of_seamless h]

/-- An input is unreadable exactly if it has a failure before its first end. -/
theorem compileInput_eq_unreadable_iff (i : Input) (f : Fault) :
    compileInput name i config = .error (.unreadable f) ↔ i.failure? = some f := by
  rw [compileInput_eq]
  cases i.failure? with
  | none => simp [compile_ne_unreadable]
  | some g => simp

end

/-- A text, its bytes, and every input that delivers its bytes up to the first end, with nothing but
interruptions between them, compile to the same. Whatever its bytes, an input compiles as these
bytes do, and it is unreadable exactly if a failure that is no interruption comes before its first
end. -/
theorem compile_however_delivered (name : String) (config : Config) :
    (∀ text : String,
      (ofBytes name text.toUTF8.data.toList).compile config = compile ⟨name, text⟩ config ∧
      ∀ i : Input, (∀ d ∈ i.untilEnd, d.Seamless) → i.source = text.toUTF8.data.toList →
        compileInput name i config = compile ⟨name, text⟩ config) ∧
    (∀ i : Input, (∀ d ∈ i.untilEnd, d.Seamless) →
      compileInput name i config = (ofBytes name i.source).compile config) ∧
    ∀ i : Input, (∃ f, compileInput name i config = .error (.unreadable f)) ↔
      ∃ f, .fault f ∈ i.untilEnd ∧ f.isInterrupted = false := by
  refine ⟨?_, ?_, ?_⟩
  · intro text
    refine ⟨by rw [ofBytes_toUTF8], ?_⟩
    intro i hi hsource
    rw [compileInput_of_seamless name config hi, hsource, ofBytes_toUTF8]
  · intro i hi
    exact compileInput_of_seamless name config hi
  · intro i
    rw [← i.exists_failure?_iff]
    exact exists_congr (compileInput_eq_unreadable_iff name config i)

/-- A text whose first character is cut in the middle, with a failure behind the end of the input,
and the same input with the failure before its end. -/
theorem compile_however_delivered_cut :
    let pause : Delivery := .fault ⟨.interrupted, "interrupted"⟩
    let broken : Delivery := .fault ⟨.brokenPipe, "pipe"⟩
    let i : Input := ⟨[], [pause, .chunk [0xc3], pause, .chunk [0xa9, 0x24], .chunk [], broken]⟩
    let j : Input := ⟨[], [pause, .chunk [0xc3], broken, .chunk [0xa9, 0x24]]⟩
    (∀ d ∈ i.untilEnd, d.Seamless) ∧ i.source = "é$".toUTF8.data.toList ∧
    compileInput "cut" i {} = compile ⟨"cut", "é$"⟩ {} ∧
    compileInput "cut" i {} = (ofBytes "cut" i.source).compile {} ∧
    ∃ f, compileInput "cut" j {} = .error (.unreadable f) := by
  intro pause broken i j
  have hi : ∀ d ∈ i.untilEnd, d.Seamless := by decide
  have hsource : i.source = "é$".toUTF8.data.toList := by
    rw [toList_toUTF8]
    decide
  obtain ⟨htext, hbytes, hfails⟩ := compile_however_delivered "cut" {}
  exact ⟨hi, hsource, (htext "é$").2 i hi hsource, hbytes i hi,
    (hfails j).2 ⟨⟨.brokenPipe, "pipe"⟩, by decide, rfl⟩⟩

end GridWalk.Route
