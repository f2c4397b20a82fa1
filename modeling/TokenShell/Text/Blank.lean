import TokenShell.Text.Rune

/-! White space and trimming. -/
namespace TokenShell.Text

/-- The code points with the White_Space property. -/
def isBlank (n : Nat) : Bool :=
  (0x09 ≤ n && n ≤ 0x0d) || n == 0x20 || n == 0x85 || n == 0xa0 || n == 0x1680 ||
    (0x2000 ≤ n && n ≤ 0x200a) || n == 0x2028 || n == 0x2029 || n == 0x202f || n == 0x205f ||
    n == 0x3000

end TokenShell.Text

namespace TokenShell

def Rune.isBlank : Rune → Bool
  | scalar n => Text.isBlank n
  | stray _ => false

/-- The text without white space at either end. -/
def Bytes.trim (b : Bytes) : Bytes :=
  (((Rune.decode b).dropWhile Rune.isBlank).reverse.dropWhile Rune.isBlank).reverse.flatMap
    Rune.bytes

end TokenShell
