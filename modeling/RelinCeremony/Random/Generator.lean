import RelinCeremony.DoubleWord
import RelinCeremony.Fault
import RelinCeremony.Random.ChaCha

namespace RelinCeremony
namespace Random

/-!
# Generators

A generator is a value: drawing from it gives a word and the generator after
the draw.  Besides the ChaCha keystreams there is a scripted generator, which
gives a fixed list of words and then a fixed mixed sequence.

`Draw` is the type of computations that draw from a generator, uniform numbers below
a bound among them.
-/

/-- A source of random words. -/
inductive Generator where
  | chacha (stream : ChaCha)
  /-- The words of a script, and the state of the sequence that follows them. -/
  | script (words : List UInt64) (state : UInt64)
deriving DecidableEq

namespace Generator

/-- The keystream with 8 rounds of a seed. -/
def chacha8 (seed : Seed) : Generator := .chacha (.ofSeed 4 seed)

def chacha20 (seed : Seed) : Generator := .chacha (.ofSeed 10 seed)

/-- The scripted generator of a list of words. -/
def ofScript (words : List UInt64) : Generator := .script words 0

/-- The word that a state of the mixed sequence gives. -/
def mix (state : UInt64) : UInt64 :=
  let z := (state ^^^ (state >>> 30)) * 0xbf58476d1ce4e5b9
  let z := (z ^^^ (z >>> 27)) * 0x94d049bb133111eb
  z ^^^ (z >>> 31)

def nextScripted : List UInt64 → UInt64 → UInt64 × Generator
  | word :: words, state => (word, .script words state)
  | [], state =>
      let state := state + 0x9e3779b97f4a7c15
      (mix state, .script [] state)

/-- The next word of 32 bits.  A script gives the low half of a word. -/
def next32 : Generator → UInt32 × Generator
  | .chacha stream =>
      let (word, stream) := stream.next
      (word, .chacha stream)
  | .script words state =>
      let (word, generator) := nextScripted words state
      (word.toUInt32, generator)

/-- The next word of 64 bits.  A keystream gives its low half first. -/
def next64 : Generator → UInt64 × Generator
  | .chacha stream =>
      let (low, stream) := stream.next
      let (high, stream) := stream.next
      (low.toUInt64 ||| (high.toUInt64 <<< 32), .chacha stream)
  | .script words state => nextScripted words state

/-- A row of 128 bits, the words of 64 bits low half first. -/
def nextRow (g : Generator) : Row × Generator :=
  let (x, g) := g.next64
  let (y, g) := g.next64
  (⟨x.toUInt32, (x >>> 32).toUInt32, y.toUInt32, (y >>> 32).toUInt32⟩, g)

def nextSeed (g : Generator) : Seed × Generator :=
  let (first, g) := g.nextRow
  let (second, g) := g.nextRow
  (⟨first, second⟩, g)

end Generator

/-- A computation that draws from a generator and can fault. -/
abbrev Draw (α : Type) : Type := StateT Generator Checked α

namespace Draw

def word : Draw UInt64 := fun g => .ok g.next64

def word64 : Draw Nat := return (← word).toNat

/-- A fair coin: the highest bit of a word of 32 bits. -/
def coin : Draw Bool := fun g =>
  let (word, g) := g.next32
  .ok (word >>> 31 == 1, g)

def seed : Draw Seed := fun g => .ok g.nextSeed

/-- As many draws as asked for, in order. -/
def times {α : Type} (draw : Draw α) : Nat → Draw (List α)
  | 0 => return []
  | n + 1 => do
      let value ← draw
      return value :: (← times draw n)

/-- The number of attempts that a rejection loop is given.  No stream of words
that is not made for it comes near this number. -/
@[noinline] def attempts : Nat := 2 ^ 62

/-- Draws until something is accepted, at most the given number of times. -/
def firstAccepted {α : Type} (draw : Draw (Option α)) : Nat → Draw (Option α)
  | 0 => return none
  | n + 1 => do
      match ← draw with
      | some value => return some value
      | none => firstAccepted draw n

/-- Draws until something is accepted, which has to happen within `attempts`. -/
def untilAccepted {α : Type} (draw : Draw (Option α)) : Draw α := do
  match ← firstAccepted draw attempts with
  | some value => return value
  | none => throw .endlessRejection

end Draw

/-! ## Uniform numbers below a bound

A word `v` is scaled to `v * p`; the high word of the product is below `p`, and
it is uniform if the low word is at most a limit, above which words are drawn
again.  Two limits are in use: `exactLimit` rejects as few words as possible,
`shiftedLimit` is cheaper to compute and rejects up to half of them. -/

/-- The limit that leaves the greatest multiple of `p` many words. -/
def exactLimit (p : Nat) : Nat := Word.size - 1 - Word.size % p

/-- The limit made of `p` with its leading zeros shifted out. -/
def shiftedLimit (p : Nat) : Nat := p * 2 ^ (64 - Word.bitLength p) - 1

namespace Draw

/-- One attempt at a number below `p` with the given limit. -/
def attemptBelow (limit p : UInt64) : Draw (Option Nat) := do
  let product := DoubleWord.ofProduct (← word) p
  return if product.low ≤ limit then some product.high.toNat else none

/-- A uniform number below `p`, with the limit `exactLimit`. -/
def below (p : Nat) : Draw Nat := untilAccepted (attemptBelow (.ofNat (exactLimit p)) (.ofNat p))

/-- A uniform number below `p`, with the limit `shiftedLimit`; none if the
attempts are used up. -/
def belowShifted? (p : Nat) : Draw (Option Nat) :=
  firstAccepted (attemptBelow (.ofNat (shiftedLimit p)) (.ofNat p)) attempts

end Draw
end Random
end RelinCeremony
