/-!
# String Digest

The 64-bit digest under which a string is filed in a map.

Two strings with one digest share a slot, so the digest is observable: it
decides which pairs replace each other and in which order a map is printed.
The function is a folded multiply over the bytes of the text. Two words of
state absorb the input, short texts in one step and long ones in chunks of
sixteen bytes followed by the last sixteen, which may overlap the final
chunk. A last multiplication and rotation spread the result over the word.

## Main definitions

* `foldedMultiply`: The two halves of a 128-bit product, combined.
* `littleEndian`: The word that a run of bytes spells, lowest byte first.
* `hashBytes`: The state after absorbing a text, folded once more.
* `digest`: The digest of a string.
-/

namespace Monkey

namespace Text

/-- The 128-bit product of two words with its halves combined by exclusive
    or. -/
def foldedMultiply (x y : UInt64) : UInt64 :=
  let product := x.toNat * y.toNat
  UInt64.ofNat product ^^^ UInt64.ofNat (product >>> 64)

/-- The word that at most eight bytes spell, lowest byte first. -/
def littleEndian (bytes : List UInt8) : UInt64 :=
  bytes.foldr (fun b acc => (acc <<< 8) ||| b.toUInt64) 0

/-- The two words that absorb a text. -/
structure DigestState where
  /-- The word that takes the front of a short text. -/
  first : UInt64
  /-- The word that takes the end of it. -/
  second : UInt64

/-- The state before any text is absorbed. -/
def DigestState.start : DigestState :=
  ⟨0x243f6a8885a308d3, 0x13198a2e03707344⟩

/-- Absorbs the given number of chunks of sixteen bytes from the front. -/
def absorbChunks : Nat → DigestState → List UInt8 → DigestState
  | 0, s, _ => s
  | n + 1, s, bytes =>
    let low := littleEndian (bytes.take 8)
    let high := littleEndian ((bytes.drop 8).take 8)
    absorbChunks n
      ⟨s.second, foldedMultiply (s.first ^^^ low) (0xa4093822299f31d0 ^^^ high)⟩
      (bytes.drop 16)

/-- Mixes two last words into the state. -/
def DigestState.finish (s : DigestState) (low high : UInt64) : DigestState :=
  ⟨s.first ^^^ low, s.second ^^^ high⟩

/-- The state that the bytes of a text leave behind. Texts of one to three
    bytes, of four to seven, of eight to sixteen and longer ones are read in
    pieces of different width; pieces may overlap, so that no byte is left
    out. -/
def absorb (bytes : List UInt8) : DigestState :=
  let n := bytes.length
  let start := DigestState.start
  if n = 0 then start
  else if n < 4 then
    let low := littleEndian (bytes.take 1)
    let last := littleEndian (bytes.drop (n - 1))
    let middle := littleEndian ((bytes.drop (n / 2)).take 1)
    start.finish low ((last <<< 8) ||| middle)
  else if n < 8 then
    start.finish (littleEndian (bytes.take 4)) (littleEndian (bytes.drop (n - 4)))
  else if n ≤ 16 then
    start.finish (littleEndian (bytes.take 8)) (littleEndian (bytes.drop (n - 8)))
  else
    -- The last byte never completes a chunk; the final sixteen are read anyway.
    (absorbChunks ((n - 1) / 16) start bytes).finish
      (littleEndian ((bytes.drop (n - 16)).take 8)) (littleEndian (bytes.drop (n - 8)))

/-- The bytes of a text folded into one word, its length included. -/
def hashBytes (bytes : List UInt8) : UInt64 :=
  let s := absorb bytes
  foldedMultiply s.first s.second ^^^ UInt64.ofNat bytes.length

/-- A word rotated to the left by 26 bits. -/
def rotateLeft26 (x : UInt64) : UInt64 :=
  (x <<< 26) ||| (x >>> 38)

/-- The digest of a string, computed on its UTF-8 bytes. -/
def digest (s : String) : UInt64 :=
  rotateLeft26 (hashBytes s.toByteArray.data.toList * 0xf1357aea2e62a9c5)

end Text

end Monkey
