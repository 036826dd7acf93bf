import FutureQ.Core.ByteOrder

/-!
# xxhash64

`TopicHash` is the 64-bit variant of xxhash with seed 0.  Results about the
broker take the hash as a parameter; this module has the algorithm itself, so
that they can be evaluated on topics whose hashes collide.
-/

namespace FutureQ.XXHash

open FutureQ.ByteOrder

def prime1 : UInt64 := 11400714785074694791
def prime2 : UInt64 := 14029467366897019727
def prime3 : UInt64 := 1609587929392839161
def prime4 : UInt64 := 9650029242287828579
def prime5 : UInt64 := 2870177450012600261

def rotl (value count : UInt64) : UInt64 :=
  (value <<< count) ||| (value >>> (64 - count))

def round (acc input : UInt64) : UInt64 :=
  rotl (acc + input * prime2) 31 * prime1

def mergeRound (acc value : UInt64) : UInt64 :=
  (acc ^^^ round 0 value) * prime1 + prime4

/-- The little-endian word at the front. -/
def word (bytes : Bytes) : UInt64 := UInt64.ofNat (decodeLE (bytes.take 8))

/-- The four accumulators of an input of at least 32 bytes. -/
structure Lanes where
  v1 : UInt64
  v2 : UInt64
  v3 : UInt64
  v4 : UInt64

def Lanes.start : Lanes := ⟨prime1 + prime2, prime2, 0, 0 - prime1⟩

def Lanes.merge (lanes : Lanes) : UInt64 :=
  let sum := rotl lanes.v1 1 + rotl lanes.v2 7 + rotl lanes.v3 12 + rotl lanes.v4 18
  mergeRound (mergeRound (mergeRound (mergeRound sum lanes.v1) lanes.v2) lanes.v3)
    lanes.v4

def stripes : ℕ → Lanes → Bytes → Lanes × Bytes
  | 0, lanes, bytes => (lanes, bytes)
  | count + 1, lanes, bytes =>
      stripes count
        ⟨round lanes.v1 (word bytes), round lanes.v2 (word (bytes.drop 8)),
          round lanes.v3 (word (bytes.drop 16)), round lanes.v4 (word (bytes.drop 24))⟩
        (bytes.drop 32)

def mixBytes (acc : UInt64) : Bytes → UInt64
  | [] => acc
  | byte :: bytes =>
      mixBytes (rotl (acc ^^^ (byte.toUInt64 * prime5)) 11 * prime1) bytes

def mixHalfWord (acc : UInt64) : Bytes → UInt64
  | a :: b :: c :: d :: bytes =>
      mixBytes (rotl (acc ^^^ (word [a, b, c, d] * prime1)) 23 * prime2 + prime3) bytes
  | bytes => mixBytes acc bytes

def mixWords (acc : UInt64) : Bytes → UInt64
  | a :: b :: c :: d :: e :: f :: g :: h :: bytes =>
      mixWords (rotl (acc ^^^ round 0 (word [a, b, c, d, e, f, g, h])) 27 * prime1 +
        prime4) bytes
  | bytes => mixHalfWord acc bytes

def avalanche (acc : UInt64) : UInt64 :=
  let acc := (acc ^^^ (acc >>> 33)) * prime2
  let acc := (acc ^^^ (acc >>> 29)) * prime3
  acc ^^^ (acc >>> 32)

def sum64 (bytes : Bytes) : UInt64 :=
  let length := UInt64.ofNat bytes.length
  if bytes.length < 32 then avalanche (mixWords (prime5 + length) bytes)
  else
    let (lanes, rest) := stripes (bytes.length / 32) .start bytes
    avalanche (mixWords (lanes.merge + length) rest)

def sum64String (text : String) : UInt64 := sum64 text.toUTF8.toList

example : sum64String "asdf" = 0x415872f599cea71e := by decide +kernel

example :
    sum64String "Call me Ishmael. Some years ago--never mind how long precisely-" =
      0x02a2e85470d6fd96 := by decide +kernel

/-- Two topics with one hash. -/
theorem sum64String_collides :
    "orders.eu.sensor" ≠ "btqmwuxk3GLi/.u." ∧
      sum64String "orders.eu.sensor" = sum64String "btqmwuxk3GLi/.u." := by
  decide +kernel

end FutureQ.XXHash
