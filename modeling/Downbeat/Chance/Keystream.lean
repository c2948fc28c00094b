/-!
# The ChaCha keystream

The source of all chance in a show is the ChaCha stream cipher with twelve rounds, run
on an empty message : a key and a block number give sixteen words (`Keystream.block`).
The sixteen words of the cipher's state stand in a square of four rows. A double round
mixes the four columns and then the four diagonals, and a diagonal is a column once row
`i` is turned by `i` places.
-/

namespace Downbeat.Keystream

/-- Four words side by side. -/
structure Row where
  w0 : UInt32
  w1 : UInt32
  w2 : UInt32
  w3 : UInt32

namespace Row

/-- Applies `f` to the words of two rows, place by place. -/
@[inline] def zip (f : UInt32 → UInt32 → UInt32) (a b : Row) : Row :=
  ⟨f a.w0 b.w0, f a.w1 b.w1, f a.w2 b.w2, f a.w3 b.w3⟩

/-- Applies `f` to every word of a row. -/
@[inline] def map (f : UInt32 → UInt32) (a : Row) : Row :=
  ⟨f a.w0, f a.w1, f a.w2, f a.w3⟩

/-- The row turned one place to the left. -/
@[inline] def turn (a : Row) : Row := ⟨a.w1, a.w2, a.w3, a.w0⟩

/-- The words of a row, from the left. -/
def toList (a : Row) : List UInt32 := [a.w0, a.w1, a.w2, a.w3]

end Row

/-- The word `x` with its bits turned left by `n` places, for `0 < n < 32`. -/
@[inline] def rotl (n x : UInt32) : UInt32 := (x <<< n) ||| (x >>> (32 - n))

/-- The state of the cipher. -/
structure Square where
  a : Row
  b : Row
  c : Row
  d : Row

namespace Square

/-- Mixes each column. -/
@[inline] def mixColumns (s : Square) : Square :=
  let a := s.a.zip (· + ·) s.b
  let d := (s.d.zip (· ^^^ ·) a).map (rotl 16)
  let c := s.c.zip (· + ·) d
  let b := (s.b.zip (· ^^^ ·) c).map (rotl 12)
  let a := a.zip (· + ·) b
  let d := (d.zip (· ^^^ ·) a).map (rotl 8)
  let c := c.zip (· + ·) d
  let b := (b.zip (· ^^^ ·) c).map (rotl 7)
  ⟨a, b, c, d⟩

/-- Turns row `i` by `i` places, so that diagonals become columns. -/
@[inline] def shear (s : Square) : Square :=
  ⟨s.a, s.b.turn, s.c.turn.turn, s.d.turn.turn.turn⟩

/-- Undoes `shear`. -/
@[inline] def unshear (s : Square) : Square :=
  ⟨s.a, s.b.turn.turn.turn, s.c.turn.turn, s.d.turn⟩

/-- Mixes each column and then each diagonal. -/
def doubleRound (s : Square) : Square :=
  s.mixColumns.shear.mixColumns.unshear

/-- `n` double rounds. -/
def doubleRounds : Nat → Square → Square
  | 0, s => s
  | n + 1, s => doubleRounds n s.doubleRound

/-- The words of a square, row by row. -/
def toList (s : Square) : List UInt32 :=
  s.a.toList ++ s.b.toList ++ s.c.toList ++ s.d.toList

theorem unshear_shear (s : Square) : s.shear.unshear = s := rfl

end Square

/-- The key of a stream. -/
structure Key where
  lower : Row
  upper : Row

/-- The four words that start every state. -/
def constants : Row := ⟨0x61707865, 0x3320646e, 0x79622d32, 0x6b206574⟩

/-- Block `n` of the stream of `key` : six double rounds, added to where they began. -/
def block (key : Key) (n : UInt64) : List UInt32 :=
  let start : Square :=
    ⟨constants, key.lower, key.upper, ⟨n.toUInt32, (n >>> 32).toUInt32, 0, 0⟩⟩
  let mixed := Square.doubleRounds 6 start
  List.zipWith (· + ·) mixed.toList start.toList

/-- One step of the generator that stretches a seed into a key. -/
def stretch (s : UInt64) : UInt64 := s * 6364136223846793005 + 11634580027462260723

/-- The word that a state of the stretching generator gives. -/
def wordOf (s : UInt64) : UInt32 :=
  let x := (((s >>> 18) ^^^ s) >>> 27).toUInt32
  let n := (s >>> 59).toUInt32
  (x >>> n) ||| (x <<< ((32 - n) % 32))

/-- The first `n` words stretched from `s`. -/
def words : Nat → UInt64 → List UInt32
  | 0, _ => []
  | n + 1, s => wordOf (stretch s) :: words n (stretch s)

/-- The key stretched from a seed. -/
def Key.ofSeed (seed : UInt64) : Key :=
  let word := fun i => (words 8 seed).getD i 0
  ⟨⟨word 0, word 1, word 2, word 3⟩, ⟨word 4, word 5, word 6, word 7⟩⟩

end Downbeat.Keystream
