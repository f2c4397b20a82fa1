import TokenShell.Text.Printable
import TokenShell.Text.Rune

/-! Quoted text: printable characters as themselves, all others as backslash escapes. -/
namespace TokenShell.Text

/-- The one-letter escape of a code point, if it has one. -/
def shortEscape? : Nat → Option UInt8
  | 0x07 => some 0x61
  | 0x08 => some 0x62
  | 0x0c => some 0x66
  | 0x0a => some 0x6e
  | 0x0d => some 0x72
  | 0x09 => some 0x74
  | 0x0b => some 0x76
  | _ => none

/-- A code point inside quotes of the given kind. -/
def escapeScalar (quote n : Nat) : Bytes :=
  if n = quote || n = 0x5c then 0x5c :: Bytes.ofScalar n
  else if isPrintable n then Bytes.ofScalar n
  else
    match shortEscape? n with
    | some c => [0x5c, c]
    | none =>
      if n < 0x20 || n = 0x7f then "\\x" ++ Bytes.hexadecimal 2 n
      else if n < 0x10000 then "\\u" ++ Bytes.hexadecimal 4 n
      else "\\U" ++ Bytes.hexadecimal 8 n

/-- A character inside quotes of the given kind; a stray byte is written as its number. -/
def escapeRune (quote : Nat) : Rune → Bytes
  | .scalar n => escapeScalar quote n
  | .stray b => "\\x" ++ Bytes.hexadecimal 2 b.toNat

/-- The text in double quotes. -/
def quoted (b : Bytes) : Bytes :=
  0x22 :: (Rune.decode b).flatMap (escapeRune 0x22) ++ [0x22]

/-- One code point in single quotes. -/
def quotedScalar (n : Nat) : Bytes := 0x27 :: escapeScalar 0x27 n ++ [0x27]

end TokenShell.Text
