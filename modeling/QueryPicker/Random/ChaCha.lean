/-!
# The ChaCha stream

A key of eight words determines an endless stream of 32-bit words, made in blocks of sixteen. Each
block mixes four constants, the key and the number of the block in twelve rounds. A 64-bit seed is
stretched to a key by a linear congruential generator with permuted output.
-/

namespace QueryPicker.Random

def rotateLeft (x n : UInt32) : UInt32 := (x <<< n) ||| (x >>> (32 - n))

def rotateRight (x n : UInt32) : UInt32 := (x >>> n) ||| (x <<< (32 - n))

namespace ChaCha

abbrev Block := Vector UInt32 16

/-- One word is added to another, which a third takes up and rotates. -/
def mix (a b c : Fin 16) (distance : UInt32) (s : Block) : Block :=
  let s := s.set a (s.get a + s.get b)
  s.set c (rotateLeft (s.get c ^^^ s.get a) distance)

def quarterRound (a b c d : Fin 16) (s : Block) : Block :=
  mix c d b 7 (mix a b d 8 (mix c d b 12 (mix a b d 16 s)))

/-- The columns and then the diagonals. -/
def doubleRound (s : Block) : Block :=
  let s := quarterRound 0 4 8 12 s
  let s := quarterRound 1 5 9 13 s
  let s := quarterRound 2 6 10 14 s
  let s := quarterRound 3 7 11 15 s
  let s := quarterRound 0 5 10 15 s
  let s := quarterRound 1 6 11 12 s
  let s := quarterRound 2 7 8 13 s
  quarterRound 3 4 9 14 s

abbrev Key := Vector UInt32 8

def constants : Vector UInt32 4 := #v[0x61707865, 0x3320646e, 0x79622d32, 0x6b206574]

/-- The number of the block takes two words, the low half first. -/
def numberWords (number : Nat) : Vector UInt32 4 :=
  #v[UInt32.ofNat number, UInt32.ofNat (number / UInt32.size), 0, 0]

def initial (key : Key) (number : Nat) : Block := constants ++ key ++ numberWords number

/-- The block with the number: what twelve rounds make of its start, added to its start. -/
def block (key : Key) (number : Nat) : Block :=
  let start := initial key number
  let mixed := Nat.repeat doubleRound 6 start
  start.zipWith (· + ·) mixed

/-- The word at a position of the stream. -/
def word (key : Key) (position : Nat) : UInt32 :=
  (block key (position / 16)).get ⟨position % 16, Nat.mod_lt _ (by decide)⟩

def seedStep (seed : UInt64) : UInt64 := seed * 6364136223846793005 + 11634580027462260723

/-- The word that a state of the seed gives. -/
def seedWord (state : UInt64) : UInt32 :=
  rotateRight (((state >>> 18) ^^^ state) >>> 27).toUInt32 (state >>> 59).toUInt32

/-- Each word of the key comes from the next state. -/
def keyOfSeed (seed : UInt64) : Key :=
  .ofFn fun i => seedWord (Nat.repeat seedStep (i + 1) seed)

end ChaCha

end QueryPicker.Random
