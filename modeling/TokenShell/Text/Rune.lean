import TokenShell.Text.Bytes

/-! Reading bytes as UTF-8. Bytes that belong to no well-formed sequence stand for themselves. -/
namespace TokenShell

/-- A decoded character: a code point, or a byte outside every well-formed sequence. -/
inductive Rune where
  | scalar (code : Nat)
  | stray (byte : UInt8)
  deriving Repr, DecidableEq

namespace Rune

/-- A continuation byte, `10xxxxxx`. -/
def isTail (b : UInt8) : Bool := 0x80 ≤ b && b ≤ 0xbf

/-- The low six bits of a continuation byte. -/
def tailBits (b : UInt8) : Nat := b.toNat % 64

def isPair (a b : UInt8) : Bool := 0xc2 ≤ a && a ≤ 0xdf && isTail b

/-- Three bytes; no overlong form and no surrogate. -/
def isTriple (a b c : UInt8) : Bool :=
  0xe0 ≤ a && a ≤ 0xef && isTail b && isTail c &&
    (a != 0xe0 || 0xa0 ≤ b) && (a != 0xed || b ≤ 0x9f)

/-- Four bytes; no overlong form and nothing above U+10FFFF. -/
def isQuad (a b c d : UInt8) : Bool :=
  0xf0 ≤ a && a ≤ 0xf4 && isTail b && isTail c && isTail d &&
    (a != 0xf0 || 0x90 ≤ b) && (a != 0xf4 || b ≤ 0x8f)

def pairCode (a b : UInt8) : Nat := (a.toNat % 32) * 64 + tailBits b

def tripleCode (a b c : UInt8) : Nat := ((a.toNat % 16) * 64 + tailBits b) * 64 + tailBits c

def quadCode (a b c d : UInt8) : Nat :=
  (((a.toNat % 8) * 64 + tailBits b) * 64 + tailBits c) * 64 + tailBits d

/-- The character that starts with a byte, and how many of the following bytes belong to it. -/
def lead (a : UInt8) : Bytes → Rune × Nat
  | b :: c :: d :: _ =>
    if a < 0x80 then (.scalar a.toNat, 0)
    else if isPair a b then (.scalar (pairCode a b), 1)
    else if isTriple a b c then (.scalar (tripleCode a b c), 2)
    else if isQuad a b c d then (.scalar (quadCode a b c d), 3)
    else (.stray a, 0)
  | [b, c] =>
    if a < 0x80 then (.scalar a.toNat, 0)
    else if isPair a b then (.scalar (pairCode a b), 1)
    else if isTriple a b c then (.scalar (tripleCode a b c), 2)
    else (.stray a, 0)
  | [b] =>
    if a < 0x80 then (.scalar a.toNat, 0)
    else if isPair a b then (.scalar (pairCode a b), 1)
    else (.stray a, 0)
  | [] => if a < 0x80 then (.scalar a.toNat, 0) else (.stray a, 0)

/-- The characters after a number of bytes that belong to an earlier one. -/
def decodeAfter : Nat → Bytes → List Rune
  | _, [] => []
  | n + 1, _ :: t => decodeAfter n t
  | 0, a :: t =>
    let (r, n) := lead a t
    r :: decodeAfter n t

/-- The characters of a byte string, from left to right. -/
def decode (b : Bytes) : List Rune := decodeAfter 0 b

/-- The bytes a character was read from. -/
def bytes : Rune → Bytes
  | scalar n => Bytes.ofScalar n
  | stray b => [b]

end Rune

/-- Whether the whole byte string is well-formed UTF-8. -/
def Bytes.isUtf8 (b : Bytes) : Bool := (Rune.decode b).all fun
  | .scalar _ => true
  | .stray _ => false

end TokenShell
