/-!
# Key stream blocks

The block function of the ChaCha cipher with eight rounds: sixteen 32-bit words are mixed by
additions, exclusive ors and rotations, and added to where they started. A key and a block number
give sixteen pseudorandom words. `Key.ofSeed` spreads a 64-bit seed over a key with a linear
congruential generator whose state is permuted on output.

This is the generator behind the seeded provider: `block` is its key stream, and `Key.ofSeed` how it
is made from a 64-bit seed.

Out of scope: the words that name a stream of the cipher. They are zero for every seed.
-/

namespace PaxosLog.KeyStream

/-- The sixteen words that a block is mixed in. -/
abbrev Words := Vector UInt32 16

/-- The eight words of a key. -/
abbrev Key := Vector UInt32 8

/-- `x` with its bits rotated left by `k` places, for `k` from 1 to 31. -/
def rotateLeft (x k : UInt32) : UInt32 := (x <<< k) ||| (x >>> (32 - k))

/-- `x` with its bits rotated right by `k` places, for `k` from 0 to 31. -/
def rotateRight (x k : UInt32) : UInt32 := (x >>> k) ||| (x <<< ((32 - k) % 32))

/-- Mixes the four words at `a`, `b`, `c` and `d`. -/
def quarterRound (w : Words) (a b c d : Fin 16) : Words :=
  let x := w[a] + w[b]
  let z := rotateLeft (w[d] ^^^ x) 16
  let y := w[c] + z
  let v := rotateLeft (w[b] ^^^ y) 12
  let x := x + v
  let z := rotateLeft (z ^^^ x) 8
  let y := y + z
  let v := rotateLeft (v ^^^ y) 7
  (((w.set a x).set b v).set c y).set d z

/-- One round down the columns of the four by four square and one along its diagonals. -/
def doubleRound (w : Words) : Words :=
  let w := quarterRound w 0 4 8 12
  let w := quarterRound w 1 5 9 13
  let w := quarterRound w 2 6 10 14
  let w := quarterRound w 3 7 11 15
  let w := quarterRound w 0 5 10 15
  let w := quarterRound w 1 6 11 12
  let w := quarterRound w 2 7 8 13
  quarterRound w 3 4 9 14

/-- The words a block starts from: four constants, the key, the block number and two zeros. -/
def start (key : Key) (number : UInt64) : Words :=
  (#v[0x61707865, 0x3320646e, 0x79622d32, 0x6b206574] : Vector UInt32 4) ++ key ++
    (#v[number.toUInt32, (number >>> 32).toUInt32, 0, 0] : Vector UInt32 4)

/-- The block with a given number. -/
def block (key : Key) (number : UInt64) : Words :=
  let w := start key number
  (doubleRound (doubleRound (doubleRound (doubleRound w)))).zipWith (· + ·) w

/-- The next state of the generator that spreads a seed. -/
def spreadStep (state : UInt64) : UInt64 := state * 6364136223846793005 + 11634580027462260723

/-- The word that a state of the spreading generator puts out. -/
def spreadWord (state : UInt64) : UInt32 :=
  rotateRight (((state >>> 18) ^^^ state) >>> 27).toUInt32 (state >>> 59).toUInt32

/-- `n` steps of the spreading generator. -/
def spreadFrom (seed : UInt64) : Nat → UInt64
  | 0 => seed
  | n + 1 => spreadStep (spreadFrom seed n)

/-- The key of a seed: the words of the first eight states after it. -/
def Key.ofSeed (seed : UInt64) : Key :=
  Vector.ofFn fun i => spreadWord (spreadFrom seed (i.val + 1))

end PaxosLog.KeyStream
