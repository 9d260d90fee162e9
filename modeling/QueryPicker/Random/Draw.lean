import QueryPicker.Binary64.Basic
import QueryPicker.Random.ChaCha

/-!
# Random draws

Whole numbers, fractions and truth values drawn from any generator of random words. A whole number
is the high half of the product of a word and the size of the range; if the low half shows that the
word lies in the uneven rest, another word is drawn. So is another one for a fraction that is
rounded up to the end of its range. Nothing bounds how many words are refused, and a draw from a
generator all of whose words are refused does not end. Two generators are given: the stream of a
seed, and a list of words that goes on by linear congruence.
-/

namespace QueryPicker.Random

/-- How words are taken from a state. -/
structure Generator (σ : Type) where
  next32 : σ → UInt32 × σ
  next64 : σ → UInt64 × σ

/-- A draw: how a word is taken, and what an accepted word stands for. -/
structure Draw (σ ω α : Type) where
  next : σ → ω × σ
  accept? : ω → Option α

/-- Takes words until one is accepted. If all words to come are refused there is no value. -/
def Draw.firstAccepted? {σ ω α : Type} (draw : Draw σ ω α) (state : σ) : Option (α × σ) :=
  let taken := draw.next state
  match draw.accept? taken.1 with
  | some a => some (a, taken.2)
  | none => draw |>.firstAccepted? taken.2
partial_fixpoint

/-- The number below `size` that a word of `width` bits stands for; the rest that does not divide
evenly stands for none. -/
def scaled? (width size word : Nat) : Option Nat :=
  let zone := size * Nat.pow 2 (width - (size.log2 + 1)) - 1
  let product := word * size
  if product % Nat.pow 2 width ≤ zone then some (product / Nat.pow 2 width) else none

/-- The number that a word of 64 bits stands for from `lo` up to `hi`: its upper 52 bits, as a
fraction, are stretched to the range. Rounded up to `hi` it stands for none. -/
def stretched? (lo hi word : Nat) : Option Binary64 :=
  let (num, den) :=
    (Binary64.ofRatio false (word / Nat.pow 2 12 * (hi - lo)) (Nat.pow 2 52)).ratio
  let x := Binary64.ofRatio false (num + lo * den) den
  if x.ratio.1 < hi * x.ratio.2 then some x else none

namespace Generator

variable {σ : Type} (g : Generator σ)

/-- A number from `lo` up to `hi`, without `hi`, from words of 64 bits. -/
def wholeNumber? (lo hi : Nat) (state : σ) : Option (Nat × σ) :=
  Draw.firstAccepted? ⟨g.next64, fun w => (scaled? 64 (hi - lo) w.toNat).map (lo + ·)⟩ state

/-- The same from words of 32 bits. -/
def smallNumber? (lo hi : Nat) (state : σ) : Option (Nat × σ) :=
  Draw.firstAccepted? ⟨g.next32, fun w => (scaled? 32 (hi - lo) w.toNat).map (lo + ·)⟩ state

def fraction? (lo hi : Nat) (state : σ) : Option (Binary64 × σ) :=
  Draw.firstAccepted? ⟨g.next64, fun w => stretched? lo hi w.toNat⟩ state

def coin (state : σ) : Bool × σ :=
  let (w, state) := g.next64 state
  (decide (w.toNat < Nat.pow 2 63), state)

end Generator

inductive Source where
  /-- A stream from a position on. -/
  | stream (key : ChaCha.Key) (position : Nat)
  /-- Words still to come, and the last word that came. -/
  | words (rest : List UInt64) (last : UInt64)

namespace Source

def ofSeed (seed : UInt64) : Source := .stream (ChaCha.keyOfSeed seed) 0

def ofWords (given : List UInt64) : Source := .words given 0

/-- Goes on after the last word of a list. -/
def successor (last : UInt64) : UInt64 := last * 6364136223846793005 + 1442695040888963407

/-- Of a stream, the low half comes first. -/
def next64 : Source → UInt64 × Source
  | stream key position =>
    ((ChaCha.word key (position + 1)).toUInt64 <<< 32 ||| (ChaCha.word key position).toUInt64,
      stream key (position + 2))
  | words [] last => (successor last, words [] (successor last))
  | words (w :: rest) _ => (w, words rest w)

/-- Of a list of words, the low half is used and the other is lost. -/
def next32 : Source → UInt32 × Source
  | stream key position => (ChaCha.word key position, stream key (position + 1))
  | words rest last =>
    let (w, source) := next64 (.words rest last)
    (w.toUInt32, source)

def generator : Generator Source := ⟨next32, next64⟩

end Source

end QueryPicker.Random
