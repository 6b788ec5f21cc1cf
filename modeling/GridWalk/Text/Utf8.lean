/-!
# UTF-8 groups

A scalar value is written as a group of one to four bytes. `encode` writes the
group, `groupLength?` reads its length off the first byte, and `decode?` reads a
complete group back. A group is accepted only if it is the very group that
`encode` writes, which leaves out overlong forms, surrogates and values beyond
the last plane.
-/

namespace GridWalk.Text

/-- The character that stands for whatever cannot be read. -/
def replacement : Char := '\ufffd'

/-- The bytes that write one character. -/
def encode (c : Char) : List UInt8 := String.utf8EncodeChar c

/-- Bytes `80` to `bf` continue a group. -/
def isTail (b : UInt8) : Bool := 0x80 ≤ b && b < 0xc0

/-- The length of the group that a first byte announces, or `none` where no group
starts with it. -/
def groupLength? (lead : UInt8) : Option Nat :=
  if lead < 0x80 then some 1
  else if lead < 0xc2 then none
  else if lead < 0xe0 then some 2
  else if lead < 0xf0 then some 3
  else if lead < 0xf5 then some 4
  else none

/-- The number that the payload bits of a group spell. -/
def groupValue : List UInt8 → Nat
  | [] => 0
  | [a] => a.toNat
  | [a, b] => a.toNat % 32 * 64 + b.toNat % 64
  | [a, b, c] => (a.toNat % 16 * 64 + b.toNat % 64) * 64 + c.toNat % 64
  | a :: b :: c :: d :: _ =>
    ((a.toNat % 8 * 64 + b.toNat % 64) * 64 + c.toNat % 64) * 64 + d.toNat % 64

/-- The character whose group this is, if there is one. -/
def decode? (group : List UInt8) : Option Char :=
  Option.guard (fun c => encode c == group) (Char.ofNat (groupValue group))

/-- A group reads as `c` only if it is the group that writes `c`. -/
theorem encode_of_decode? {group : List UInt8} {c : Char} (h : decode? group = some c) :
    encode c = group := by
  obtain ⟨rfl, hg⟩ := Option.guard_eq_some_iff.1 h
  simpa using hg

end GridWalk.Text
