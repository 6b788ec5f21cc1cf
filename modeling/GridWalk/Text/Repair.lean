import GridWalk.Text.Utf8

/-!
# Reading bytes as text

`repair` reads any bytes as text. Well-formed groups give their characters, and
each maximal part that no well-formed group continues gives one replacement
character. The bytes are fed one by one to a `Decoder`, which holds the text so
far and the group under way.
-/

namespace GridWalk.Text

/-- A group under way. The second byte of some groups is confined to part of the tail
bytes, which keeps out overlong forms, surrogates and values beyond the last plane. -/
structure Pending where
  /-- The payload read so far. -/
  value : Nat
  /-- How many tail bytes follow the next one. -/
  after : Nat
  /-- The least byte that may come next. -/
  low : UInt8 := 0x80
  /-- The greatest byte that may come next. -/
  high : UInt8 := 0xbf
  deriving DecidableEq, Repr

/-- The group that a first byte opens, or `none` where it opens no group of two bytes or
more. -/
def Pending.open? (lead : UInt8) : Option Pending :=
  if lead < 0xc2 then none
  else if lead < 0xe0 then some ⟨lead.toNat % 32, 0, 0x80, 0xbf⟩
  else if lead = 0xe0 then some ⟨lead.toNat % 16, 1, 0xa0, 0xbf⟩
  else if lead = 0xed then some ⟨lead.toNat % 16, 1, 0x80, 0x9f⟩
  else if lead < 0xf0 then some ⟨lead.toNat % 16, 1, 0x80, 0xbf⟩
  else if lead = 0xf0 then some ⟨lead.toNat % 8, 2, 0x90, 0xbf⟩
  else if lead < 0xf4 then some ⟨lead.toNat % 8, 2, 0x80, 0xbf⟩
  else if lead = 0xf4 then some ⟨lead.toNat % 8, 2, 0x80, 0x8f⟩
  else none

/-- A reader of bytes between two of them. -/
structure Decoder where
  /-- The characters read so far, the last one first. -/
  text : List Char := []
  /-- The group under way, if there is one. -/
  pending : Option Pending := none
  deriving DecidableEq, Repr

namespace Decoder

/-- Read a byte where no group is under way. -/
def start (text : List Char) (b : UInt8) : Decoder :=
  if b < 0x80 then
    { text := Char.ofNat b.toNat :: text }
  else
    match Pending.open? b with
    | some p => { text := text, pending := some p }
    | none => { text := replacement :: text }

/-- Read one byte. A byte that cannot continue the group under way closes it as
unreadable and is read afresh. -/
def feed (d : Decoder) (b : UInt8) : Decoder :=
  match d.pending with
  | none => start d.text b
  | some p =>
    if p.low ≤ b ∧ b ≤ p.high then
      let value := p.value * 64 + b.toNat % 64
      match p.after with
      | 0 => { text := Char.ofNat value :: d.text }
      | k + 1 => { text := d.text, pending := some { value := value, after := k } }
    else
      start (replacement :: d.text) b

/-- The text when no more bytes come. A group under way is unreadable. -/
def finish (d : Decoder) : List Char :=
  match d.pending with
  | none => d.text.reverse
  | some _ => (replacement :: d.text).reverse

end Decoder

/-- Bytes read as text, with one replacement character for each unreadable part. -/
def repair (bytes : List UInt8) : List Char :=
  (bytes.foldl Decoder.feed {}).finish

end GridWalk.Text
