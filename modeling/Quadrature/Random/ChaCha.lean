/-!
# The ChaCha stream

A stream of 64-bit words from the ChaCha block function with eight rounds. A
generator is a key and the number of words drawn so far; its words are a
function of the two.
-/

namespace Quadrature

structure ChaCha where
  key : Vector UInt32 8
  /-- The number of 64-bit words drawn. -/
  drawn : Nat
  deriving DecidableEq

namespace ChaCha

def rotateLeft (x k : UInt32) : UInt32 :=
  (x <<< k) ||| (x >>> (32 - k))

abbrev Block := Vector UInt32 16

def quarterRound (s : Block) (i j k l : Fin 16) : Block :=
  let a := s[i] + s[j]
  let d := rotateLeft (s[l] ^^^ a) 16
  let c := s[k] + d
  let b := rotateLeft (s[j] ^^^ c) 12
  let a := a + b
  let d := rotateLeft (d ^^^ a) 8
  let c := c + d
  let b := rotateLeft (b ^^^ c) 7
  (((s.set i a).set j b).set k c).set l d

/-- The four columns, then the four diagonals. -/
def doubleRound (s : Block) : Block :=
  let s := quarterRound s 0 4 8 12
  let s := quarterRound s 1 5 9 13
  let s := quarterRound s 2 6 10 14
  let s := quarterRound s 3 7 11 15
  let s := quarterRound s 0 5 10 15
  let s := quarterRound s 1 6 11 12
  let s := quarterRound s 2 7 8 13
  quarterRound s 3 4 9 14

/-- The constants, the key, the block number and a zero nonce. -/
def initial (key : Vector UInt32 8) (number : UInt64) : Block :=
  #v[0x61707865, 0x3320646e, 0x79622d32, 0x6b206574,
    key[0], key[1], key[2], key[3], key[4], key[5], key[6], key[7],
    number.toUInt32, (number >>> 32).toUInt32, 0, 0]

def block (key : Vector UInt32 8) (number : UInt64) : Block :=
  let s := initial key number
  Vector.zipWith (· + ·) s (doubleRound (doubleRound (doubleRound (doubleRound s))))

/-- The word at a position of the stream, eight to a block, low half first. -/
def word (key : Vector UInt32 8) (position : Nat) : UInt64 :=
  let b := block key (position / 8).toUInt64
  let low := b.get ⟨2 * (position % 8), by omega⟩
  let high := b.get ⟨2 * (position % 8) + 1, by omega⟩
  low.toUInt64 ||| (high.toUInt64 <<< 32)

def next (g : ChaCha) : UInt64 × ChaCha :=
  (word g.key g.drawn, { g with drawn := g.drawn + 1 })

/-! ## Seeding -/

def seedStep (state : UInt64) : UInt64 :=
  state * 6364136223846793005 + 11634580027462260723

/-- The key word of a state: a shifted mixture of its halves, rotated right by its
top five bits. -/
def seedWord (state : UInt64) : UInt32 :=
  let x := (((state >>> 18) ^^^ state) >>> 27).toUInt32
  rotateLeft x ((32 : UInt32) - (state >>> 59).toUInt32)

/-- Key word `i` comes from the state after `i + 1` steps. -/
def ofSeed (seed : UInt64) : ChaCha :=
  ⟨Vector.ofFn fun i => seedWord (Nat.repeat seedStep (i.val + 1) seed), 0⟩

end ChaCha

end Quadrature
