import Ethereum.HashFunction

/-!
# Keccak-256

The sponge of Keccak with a rate of 136 bytes and a digest of 32, padded by the bit `1` of the
first submission, so that its digests are not those of the later standard.

The state is a 5 × 5 array of 64-bit lanes, held as five planes of five lanes each: lane `x` of
plane `y` is the lane at column `x`, row `y`. The round is the composition of its layers: `theta`
mixes columns, `rhoPi` rotates each lane and moves it, `chi` mixes rows, and `iota` adds the round
constant to the first lane.
-/

namespace Ethereum.Keccak

/-- Five lanes of one row of the state, by column. -/
structure Plane where
  x0 : UInt64
  x1 : UInt64
  x2 : UInt64
  x3 : UInt64
  x4 : UInt64
  deriving DecidableEq, Inhabited

/-- The state of the permutation: five planes, by row. -/
structure State where
  y0 : Plane
  y1 : Plane
  y2 : Plane
  y3 : Plane
  y4 : Plane
  deriving DecidableEq, Inhabited

/-- A lane rotated to the left, by a distance between 1 and 63. -/
@[inline] def rotate (lane distance : UInt64) : UInt64 :=
  lane <<< distance ||| lane >>> (64 - distance)

namespace Plane

/-- The lane-wise sum of two planes. -/
def add (p q : Plane) : Plane :=
  ⟨p.x0 ^^^ q.x0, p.x1 ^^^ q.x1, p.x2 ^^^ q.x2, p.x3 ^^^ q.x3, p.x4 ^^^ q.x4⟩

/-- The nonlinear layer on one row: each lane takes in the two that follow it. -/
def chi (p : Plane) : Plane :=
  ⟨p.x0 ^^^ (~~~p.x1 &&& p.x2), p.x1 ^^^ (~~~p.x2 &&& p.x3), p.x2 ^^^ (~~~p.x3 &&& p.x4),
    p.x3 ^^^ (~~~p.x4 &&& p.x0), p.x4 ^^^ (~~~p.x0 &&& p.x1)⟩

/-- The plane of zeros. -/
def zero : Plane := ⟨0, 0, 0, 0, 0⟩

end Plane

namespace State

/-- The lane-wise sum of two states. -/
def add (s t : State) : State :=
  ⟨s.y0.add t.y0, s.y1.add t.y1, s.y2.add t.y2, s.y3.add t.y3, s.y4.add t.y4⟩

/-- The state of zeros. -/
def zero : State := ⟨.zero, .zero, .zero, .zero, .zero⟩

/-- Adds to every lane the parities of the column before it and, rotated, of the one after it. -/
def theta (s : State) : State :=
  let c := ((((s.y0.add s.y1).add s.y2).add s.y3).add s.y4)
  let d : Plane :=
    ⟨c.x4 ^^^ rotate c.x1 1, c.x0 ^^^ rotate c.x2 1, c.x1 ^^^ rotate c.x3 1,
      c.x2 ^^^ rotate c.x4 1, c.x3 ^^^ rotate c.x0 1⟩
  ⟨s.y0.add d, s.y1.add d, s.y2.add d, s.y3.add d, s.y4.add d⟩

/-- Rotates each lane by its own distance and moves lane `(x, y)` to `(y, 2x + 3y)`. -/
def rhoPi (s : State) : State where
  y0 := ⟨s.y0.x0, rotate s.y1.x1 44, rotate s.y2.x2 43, rotate s.y3.x3 21, rotate s.y4.x4 14⟩
  y1 := ⟨rotate s.y0.x3 28, rotate s.y1.x4 20, rotate s.y2.x0 3, rotate s.y3.x1 45,
    rotate s.y4.x2 61⟩
  y2 := ⟨rotate s.y0.x1 1, rotate s.y1.x2 6, rotate s.y2.x3 25, rotate s.y3.x4 8,
    rotate s.y4.x0 18⟩
  y3 := ⟨rotate s.y0.x4 27, rotate s.y1.x0 36, rotate s.y2.x1 10, rotate s.y3.x2 15,
    rotate s.y4.x3 56⟩
  y4 := ⟨rotate s.y0.x2 62, rotate s.y1.x3 55, rotate s.y2.x4 39, rotate s.y3.x0 41,
    rotate s.y4.x1 2⟩

/-- The nonlinear layer, row by row. -/
def chi (s : State) : State := ⟨s.y0.chi, s.y1.chi, s.y2.chi, s.y3.chi, s.y4.chi⟩

/-- Adds a round constant to the first lane. -/
def iota (constant : UInt64) (s : State) : State :=
  { s with y0.x0 := s.y0.x0 ^^^ constant }

/-- One round of the permutation. -/
def round (s : State) (constant : UInt64) : State := iota constant s.theta.rhoPi.chi

/-- The constants of the 24 rounds. -/
def roundConstants : List UInt64 :=
  [0x0000000000000001, 0x0000000000008082, 0x800000000000808a, 0x8000000080008000,
    0x000000000000808b, 0x0000000080000001, 0x8000000080008081, 0x8000000000008009,
    0x000000000000008a, 0x0000000000000088, 0x0000000080008009, 0x000000008000000a,
    0x000000008000808b, 0x800000000000008b, 0x8000000000008089, 0x8000000000008003,
    0x8000000000008002, 0x8000000000000080, 0x000000000000800a, 0x800000008000000a,
    0x8000000080008081, 0x8000000000008080, 0x0000000080000001, 0x8000000080008008]

/-- The permutation: 24 rounds. -/
def permute (s : State) : State := roundConstants.foldl round s

end State

/-! ## The sponge -/

/-- How many bytes one application of the permutation takes in. -/
def rate : Nat := 136

/-- The lane that eight bytes write, least significant first. Missing bytes count as zero. -/
def laneOfBytes (bs : Bytes) : UInt64 :=
  (bs.take 8).foldr (fun b lane => lane <<< 8 ||| b.toUInt64) 0

/-- The eight bytes of a lane, least significant first. -/
def bytesOfLane (lane : UInt64) : Bytes :=
  [lane.toUInt8, (lane >>> 8).toUInt8, (lane >>> 16).toUInt8, (lane >>> 24).toUInt8,
    (lane >>> 32).toUInt8, (lane >>> 40).toUInt8, (lane >>> 48).toUInt8, (lane >>> 56).toUInt8]

/-- Five lanes off the front of a byte string. -/
def Plane.ofBytes (bs : Bytes) : Plane :=
  ⟨laneOfBytes bs, laneOfBytes (bs.drop 8), laneOfBytes (bs.drop 16), laneOfBytes (bs.drop 24),
    laneOfBytes (bs.drop 32)⟩

/-- The state whose lanes are written by a block; the lanes past its end are zero. -/
def State.ofBytes (block : Bytes) : State :=
  ⟨.ofBytes block, .ofBytes (block.drop 40), .ofBytes (block.drop 80), .ofBytes (block.drop 120),
    .zero⟩

/-- Fills a partial block up to the rate: a first bit, zeros, and a last bit. -/
def pad (bs : Bytes) : Bytes :=
  if bs.length + 1 = rate then bs ++ [0x81]
  else bs ++ 0x01 :: List.replicate (rate - 2 - bs.length) 0 ++ [0x80]

/-- Takes in `blocks` full blocks and then the padded rest. -/
def absorb : (blocks : Nat) → State → Bytes → State
  | 0, s, bs => (s.add (.ofBytes (pad bs))).permute
  | blocks + 1, s, bs =>
    absorb blocks (s.add (.ofBytes (bs.take rate))).permute (bs.drop rate)

/-- The first 32 bytes of a state. -/
def squeeze (s : State) : Hash :=
  ⟨bytesOfLane s.y0.x0 ++ bytesOfLane s.y0.x1 ++ bytesOfLane s.y0.x2 ++ bytesOfLane s.y0.x3,
    by simp [bytesOfLane]⟩

/-- The Keccak-256 digest of a byte string. -/
def keccak256 (bs : Bytes) : Hash := squeeze (absorb (bs.length / rate) .zero bs)

/-- The hash function of the chain is Keccak-256. -/
instance : HashFunction := ⟨keccak256⟩

/-- The digest of the empty string. -/
def emptyDigest : Hash :=
  .ofNat 32 0xc5d2460186f7233c927e7db2dcc703c0e500b653ca82273b7bfad8045d85a470

/-- The digest of an empty list's encoding, which is the uncles hash of a block without uncles. -/
def emptyListDigest : Hash :=
  .ofNat 32 0x1dcc4de8dec75d7aab85b567b6ccd41ad312451b948a7413f0a142fd40d49347

/-- The root of a trie without entries, which is the transactions root of a block without any. -/
def emptyTrieRoot : Hash :=
  .ofNat 32 0x56e81f171bcc55a6ff8345e692c0f86e5b48e01b996cadc001622fb5e363b421

end Ethereum.Keccak
