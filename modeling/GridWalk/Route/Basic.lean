import GridWalk.Text.Repair

/-!
# Routes

A route is the text of a walk together with the name that reports give it.
Positions in a route count bytes of its UTF-8 form.
-/

namespace GridWalk

/-- A named source text. -/
structure Route where
  /-- The name used in reports. -/
  name : String
  /-- The text. -/
  text : String
  deriving DecidableEq, Repr

/-- A stretch of bytes of a text. -/
structure Span where
  /-- The number of bytes before it. -/
  offset : Nat
  /-- The number of bytes in it. -/
  length : Nat
  deriving DecidableEq, Repr

namespace Route

/-- The name of a route that was given none. -/
def anonymous : String := "<input>"

/-- The route that these bytes spell, unreadable parts replaced. -/
def ofBytes (name : String) (bytes : List UInt8) : Route :=
  ⟨name, String.ofList (Text.repair bytes)⟩

/-- The number of bytes of the text. -/
def size (r : Route) : Nat := r.text.utf8ByteSize

/-- The empty span behind the last byte. -/
def endSpan (r : Route) : Span := ⟨r.size, 0⟩

/-- The text under a span, empty where the span does not fall on character boundaries. -/
def slice (r : Route) (s : Span) : String :=
  (String.fromUTF8? (r.text.toUTF8.extract s.offset (s.offset + s.length))).getD ""

end Route

end GridWalk
