/-
# The ChaCha20 block function

A key of eight words and a block number give sixteen words.  The state is a four
by four matrix of words: four constants, the key, the block number in two words,
and two zeros.  Twenty rounds, alternately on the columns and the diagonals, mix
it, and then the state before the rounds is added.
-/

namespace DiceFormula
namespace ChaCha

abbrev Key := Vector UInt32 8

abbrev Block := Vector UInt32 16

def rotateLeft (x : UInt32) (n : UInt32) : UInt32 := (x <<< n) ||| (x >>> (32 - n))

/-- Mixes four words of the state. -/
def quarterRound (b : Block) (i j k l : Fin 16) : Block :=
  let p := b[i] + b[j]
  let s := rotateLeft (b[l] ^^^ p) 16
  let r := b[k] + s
  let q := rotateLeft (b[j] ^^^ r) 12
  let p := p + q
  let s := rotateLeft (s ^^^ p) 8
  let r := r + s
  let q := rotateLeft (q ^^^ r) 7
  (((b.set i p).set j q).set k r).set l s

/-- Mixes the columns and then the diagonals. -/
def doubleRound (b : Block) : Block :=
  let b := quarterRound b 0 4 8 12
  let b := quarterRound b 1 5 9 13
  let b := quarterRound b 2 6 10 14
  let b := quarterRound b 3 7 11 15
  let b := quarterRound b 0 5 10 15
  let b := quarterRound b 1 6 11 12
  let b := quarterRound b 2 7 8 13
  quarterRound b 3 4 9 14

/-- The state before the rounds. -/
def start (key : Key) (number : UInt64) : Block :=
  #v[0x61707865, 0x3320646e, 0x79622d32, 0x6b206574,
    key[0], key[1], key[2], key[3], key[4], key[5], key[6], key[7],
    number.toUInt32, (number >>> 32).toUInt32, 0, 0]

/-- The words of a block. -/
def block (key : Key) (number : UInt64) : Block :=
  let first := start key number
  let mixed := Nat.repeat doubleRound 10 first
  mixed.zipWith (· + ·) first

end ChaCha
end DiceFormula
