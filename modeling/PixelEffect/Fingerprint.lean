import PixelEffect.Digest.Xxh3

namespace PixelEffect

/-- The 128 bits that stand for a program key. -/
structure Fingerprint where
  high : UInt64
  low : UInt64
deriving DecidableEq

namespace Fingerprint

/-- The seed of all fingerprints. -/
def seed : UInt64 := 0x6a09e667f3bcc909

/-- Digests the number of words and then the words, every one with its lowest byte first. -/
def ofWords (words : List UInt32) : Fingerprint :=
  let bytes := Xxh3.wordBytes words.length.toUInt64
    ++ words.flatMap fun w => (Xxh3.wordBytes w.toUInt64).take 4
  let digest := Xxh3.digest ⟨bytes.toArray⟩ seed
  ⟨digest.high, digest.low⟩

/-- A number in hexadecimal digits, with zeros in front up to a width. -/
def hex (width n : Nat) : String :=
  let digits := Nat.toDigits 16 n
  String.ofList (List.replicate (width - digits.length) '0' ++ digits)

def text (f : Fingerprint) : String := hex 16 f.high.toNat ++ hex 16 f.low.toNat

end Fingerprint

end PixelEffect
