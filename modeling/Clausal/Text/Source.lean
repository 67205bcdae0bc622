/-!
# Sources of lines

A source is read line by line. A line ends with a line feed or with the source, and can be read if
its bytes are UTF-8.
-/

namespace Clausal.Text

/-- The lines of a source, without their line feeds; `none` for a line that cannot be read. -/
abbrev Source := List (Option (List Char))

/-- The pieces that each end with a mark, the marks left out. What follows the last mark is a piece
if there is any. -/
def endedBy {α : Type} [BEq α] (mark : α) (xs : List α) : List (List α) :=
  let pieces := xs.splitOn mark
  if (pieces.getLast?.getD []).isEmpty then pieces.dropLast else pieces

namespace Source

/-- The lines of a text, all of which can be read. -/
def ofText (text : String) : Source := (endedBy '\n' text.toList).map some

def lineFeed : UInt8 := 10

/-- The characters of some bytes, if they are UTF-8. -/
def decode? (bytes : List UInt8) : Option (List Char) :=
  (String.fromUTF8? ⟨bytes.toArray⟩).map String.toList

def ofBytes (bytes : List UInt8) : Source := (endedBy lineFeed bytes).map decode?

/-- A source that can be opened and of which nothing can be read. -/
def unreadable : Source := [none]

end Source

end Clausal.Text
