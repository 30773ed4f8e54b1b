namespace RelinCeremony
namespace Random

/-!
# The ChaCha keystream

A block of ChaCha is a square of 16 words of 32 bits.  It is kept by rows, since
a round treats the four columns alike: the column round is one quarter round on
whole rows, and the diagonal round is the same with the rows turned.

`ChaCha` is the stream of words of the successive blocks, read one by one.
-/

/-- Four words of 32 bits. -/
structure Row where
  a : UInt32
  b : UInt32
  c : UInt32
  d : UInt32
deriving DecidableEq

namespace Row

def add (x y : Row) : Row := ⟨x.a + y.a, x.b + y.b, x.c + y.c, x.d + y.d⟩

def xor (x y : Row) : Row := ⟨x.a ^^^ y.a, x.b ^^^ y.b, x.c ^^^ y.c, x.d ^^^ y.d⟩

/-- A word turned left by `n` bits, `0 < n < 32`. -/
def turnWord (x n : UInt32) : UInt32 := (x <<< n) ||| (x >>> (32 - n))

def turn (x : Row) (n : UInt32) : Row :=
  ⟨turnWord x.a n, turnWord x.b n, turnWord x.c n, turnWord x.d n⟩

def shift (x : Row) : Row := ⟨x.b, x.c, x.d, x.a⟩

def toList (x : Row) : List UInt32 := [x.a, x.b, x.c, x.d]

end Row

/-- Four rows of four words. -/
structure Block where
  first : Row
  second : Row
  third : Row
  fourth : Row
deriving DecidableEq

namespace Block

/-- The quarter round, on the four columns at once. -/
def quarter (x : Block) : Block :=
  let a := x.first.add x.second
  let d := (x.fourth.xor a).turn 16
  let c := x.third.add d
  let b := (x.second.xor c).turn 12
  let a := a.add b
  let d := (d.xor a).turn 8
  let c := c.add d
  let b := (b.xor c).turn 7
  ⟨a, b, c, d⟩

/-- Turns the rows so that the diagonals become columns. -/
def toDiagonal (x : Block) : Block :=
  ⟨x.first, x.second.shift, x.third.shift.shift, x.fourth.shift.shift.shift⟩

def ofDiagonal (x : Block) : Block :=
  ⟨x.first, x.second.shift.shift.shift, x.third.shift.shift, x.fourth.shift⟩

/-- A column round and a diagonal round. -/
def doubleRound (x : Block) : Block := x.quarter.toDiagonal.quarter.ofDiagonal

def add (x y : Block) : Block :=
  ⟨x.first.add y.first, x.second.add y.second, x.third.add y.third, x.fourth.add y.fourth⟩

/-- The keystream block of an input block: the double rounds, added to the
input. -/
def keystream (doubleRounds : Nat) (x : Block) : Block :=
  (Nat.repeat doubleRound doubleRounds x).add x

def toList (x : Block) : List UInt32 :=
  x.first.toList ++ x.second.toList ++ x.third.toList ++ x.fourth.toList

end Block

/-- A seed of 256 bits, eight words of 32 bits. -/
structure Seed where
  first : Row
  second : Row
deriving DecidableEq

namespace Seed

/-- The multiplier of the generator that spreads a word into a seed. -/
def spreadMultiplier : UInt64 := 6364136223846793005

def spreadIncrement : UInt64 := 11634580027462260723

/-- The word that a state of the spreading generator gives: its high half folded
and turned by its highest five bits. -/
def spreadOutput (state : UInt64) : UInt32 :=
  let folded := (((state >>> 18) ^^^ state) >>> 27).toUInt32
  let turn := (state >>> 59).toUInt32
  (folded >>> turn) ||| (folded <<< ((32 - turn) &&& 31))

def spreadStep (state : UInt64) : UInt64 := state * spreadMultiplier + spreadIncrement

/-- Four words of the spreading generator, and its state after them. -/
def spreadRow (state : UInt64) : Row × UInt64 :=
  let s₁ := spreadStep state
  let s₂ := spreadStep s₁
  let s₃ := spreadStep s₂
  let s₄ := spreadStep s₃
  (⟨spreadOutput s₁, spreadOutput s₂, spreadOutput s₃, spreadOutput s₄⟩, s₄)

/-- The seed that a single word of 64 bits spreads into. -/
def ofWord (word : UInt64) : Seed :=
  let (first, state) := spreadRow word
  ⟨first, (spreadRow state).1⟩

end Seed

/-- A position in the keystream of a seed. -/
structure ChaCha where
  doubleRounds : Nat
  seed : Seed
  /-- The number of the next block. -/
  counter : UInt64
  /-- The words of the current block that are not read yet. -/
  pending : List UInt32
deriving DecidableEq

namespace ChaCha

def ofSeed (doubleRounds : Nat) (seed : Seed) : ChaCha := ⟨doubleRounds, seed, 0, []⟩

/-- The constant first row of every input block. -/
def constants : Row := ⟨0x61707865, 0x3320646e, 0x79622d32, 0x6b206574⟩

/-- The input block with the given number: the constants, the seed, and the
number in two words before two words of zero. -/
def input (seed : Seed) (counter : UInt64) : Block :=
  ⟨constants, seed.first, seed.second,
    ⟨counter.toUInt32, (counter >>> 32).toUInt32, 0, 0⟩⟩

def nextBlock (s : ChaCha) : List UInt32 :=
  ((input s.seed s.counter).keystream s.doubleRounds).toList

def next (s : ChaCha) : UInt32 × ChaCha :=
  match s.pending with
  | word :: rest => (word, { s with pending := rest })
  | [] =>
      match s.nextBlock with
      | word :: rest => (word, { s with counter := s.counter + 1, pending := rest })
      | [] => (0, s)

end ChaCha
end Random
end RelinCeremony
