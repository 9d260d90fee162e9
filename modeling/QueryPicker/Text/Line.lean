/-!
# Lines

A line ends before a line feed, or before a carriage return that a line feed follows. A carriage
return elsewhere is a character of its line, and so is every other separator.
-/

namespace QueryPicker.Text

def firstLineChars : List Char → List Char
  | [] => []
  | '\n' :: _ => []
  | '\r' :: '\n' :: _ => []
  | c :: cs => c :: firstLineChars cs

def firstLine (s : String) : String := String.ofList (firstLineChars s.toList)

end QueryPicker.Text
