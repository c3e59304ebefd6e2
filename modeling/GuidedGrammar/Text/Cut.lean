/-!
# Cutting text to a number of bytes

A text is cut to its longest beginning that has at most a given number of bytes in UTF-8 and ends
between two characters. An ellipsis marks that something was cut off.
-/

namespace GuidedGrammar.Text

/-- Appends the characters to `taken` while they fit into `room` bytes. -/
def takeBytesFrom (taken : String) (room : Nat) : List Char → String
  | [] => taken
  | c :: cs =>
    if c.utf8Size ≤ room then takeBytesFrom (taken.push c) (room - c.utf8Size) cs else taken

/-- **The longest beginning of a text with at most `limit` bytes.** -/
def takeBytes (limit : Nat) (s : String) : String :=
  takeBytesFrom "" limit s.toList

/-- What stands for text that was cut off. -/
def ellipsis : String := "..."

/-- **A text cut to `limit` bytes**, with an ellipsis if it is longer. -/
def truncate (limit : Nat) (s : String) : String :=
  if s.utf8ByteSize ≤ limit then s else takeBytes limit s ++ ellipsis

/-- **Writes pieces of text** behind `written` as long as the whole stays within `limit` bytes. The
first piece that does not fit is cut, an ellipsis is added, and the pieces after it are not looked
at. -/
def writeWithin {α : Type} (limit : Nat) (toText : α → String) (written : String) :
    List α → String
  | [] => written
  | piece :: rest =>
    let s := toText piece
    if written.utf8ByteSize + s.utf8ByteSize ≤ limit then
      writeWithin limit toText (written ++ s) rest
    else written ++ takeBytes (limit - written.utf8ByteSize) s ++ ellipsis

end GuidedGrammar.Text
