/-!
Fingerprints of tagged messages.

A fingerprint decides the order in which operands are written, so it depends on the message
alone. Each byte is mixed in by exclusive or, followed by a multiplication with a fixed prime
modulo `2 ^ 64`.
-/

namespace Mechanism.Fingerprint

def start : UInt64 := 0xcbf29ce484222325

def prime : UInt64 := 0x100000001b3

def mixByte (state : UInt64) (byte : UInt8) : UInt64 :=
  (state ^^^ byte.toUInt64) * prime

def mixText (state : UInt64) (text : String) : UInt64 :=
  text.toUTF8.data.foldl mixByte state

def mixWord (state word : UInt64) : UInt64 :=
  let s := mixByte state word.toUInt8
  let s := mixByte s (word >>> 8).toUInt8
  let s := mixByte s (word >>> 16).toUInt8
  let s := mixByte s (word >>> 24).toUInt8
  let s := mixByte s (word >>> 32).toUInt8
  let s := mixByte s (word >>> 40).toUInt8
  let s := mixByte s (word >>> 48).toUInt8
  mixByte s (word >>> 56).toUInt8

def tagged (tag : String) : UInt64 := mixText start tag

def mixWords (state : UInt64) (words : List UInt64) : UInt64 :=
  words.foldl mixWord state

def hexDigits (value : Nat) : List Char :=
  let digits := Nat.toDigits 16 value
  List.replicate (16 - digits.length) '0' ++ digits

def render (fingerprint : UInt64) : String :=
  String.ofList (hexDigits fingerprint.toNat)

end Mechanism.Fingerprint
