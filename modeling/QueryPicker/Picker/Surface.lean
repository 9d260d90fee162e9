import QueryPicker.Text.Quoted

/-!
# The text surface

The place where the query text is shown and edited. An edit is announced to the listeners in turn;
a silent change is not. A listener may answer every announcement with a silent change of its own,
which the listeners after it find on the surface though they are told of the edit.
-/

namespace QueryPicker

structure TextListener where
  label : Nat
  /-- What the listener puts on the surface in answer. -/
  reply? : Option String

/-- An announcement: who was told of which text, and the text on the surface at that moment. -/
structure TextHeard where
  label : Nat
  text : String
  shown : String
  deriving DecidableEq

structure TextSurface where
  text : String
  listeners : List TextListener
  nextLabel : Nat

namespace TextSurface

def showing (text : String) : TextSurface := ⟨text, [], 0⟩

def setTextSilently (s : TextSurface) (text : String) : TextSurface := { s with text }

/-- Tells the listeners of an edit, and gives the text that is shown in the end. -/
def announce (edit : String) (shown : String) : List TextListener → String × List TextHeard
  | [] => (shown, [])
  | l :: ls =>
    let (last, heard) := announce edit (l.reply?.getD shown) ls
    (last, ⟨l.label, edit, shown⟩ :: heard)

def setText (s : TextSurface) (text : String) : TextSurface × List TextHeard :=
  let (shown, heard) := announce text text s.listeners
  ({ s with text := shown }, heard)

def listen (s : TextSurface) (reply? : Option String) : TextSurface × Nat :=
  ({ s with listeners := s.listeners ++ [⟨s.nextLabel, reply?⟩], nextLabel := s.nextLabel + 1 },
    s.nextLabel)

def unlisten (s : TextSurface) (label : Nat) : TextSurface × Bool :=
  ({ s with listeners := s.listeners.filter (·.label != label) },
    s.listeners.any (·.label == label))

def summary (s : TextSurface) : String :=
  "BufferTextSurface \x7b text: " ++ Text.quoted s.text ++ ", listeners: " ++
    toString s.listeners.length ++ " \x7d"

end TextSurface

end QueryPicker
