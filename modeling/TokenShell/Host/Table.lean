import TokenShell.Text.Blank

/-! Tables with ruled lines: headers in capitals and centred, numbers to the right, all else to the
left. -/
namespace TokenShell.Table

/-- The columns a text takes up. -/
def width (b : Bytes) : Nat := (Rune.decode b).length

def blanks (n : Nat) : Bytes := List.replicate n 0x20

def padRight (w : Nat) (b : Bytes) : Bytes := b ++ blanks (w - width b)

def padLeft (w : Nat) (b : Bytes) : Bytes := blanks (w - width b) ++ b

/-- Centred; an odd blank goes to the right. -/
def center (w : Nat) (b : Bytes) : Bytes :=
  let gap := w - width b
  blanks (gap / 2) ++ b ++ blanks (gap - gap / 2)

def capital (b : UInt8) : UInt8 := if 0x61 ≤ b && b ≤ 0x7a then b - 0x20 else b

def isDigits (b : Bytes) : Bool := !b.isEmpty && b.all Bytes.isDigit

/-- Digits alone, or in groups of three with commas between them. -/
def isWhole (b : Bytes) : Bool :=
  match Bytes.split 0x2c b with
  | [] => false
  | [ds] => isDigits ds
  | first :: groups =>
    isDigits first && first.length ≤ 3 && groups.all fun g => isDigits g && g.length == 3

/-- A decimal number with an optional sign and fraction. -/
def isNumber (b : Bytes) : Bool :=
  let b := match b with
    | 0x2d :: bs => bs
    | bs => bs
  match Bytes.split 0x2e b with
  | [whole] => isWhole whole
  | [whole, fraction] => isWhole whole && isDigits fraction
  | _ => false

def cell (w : Nat) (b : Bytes) : Bytes :=
  if isNumber (Bytes.trim b) then padLeft w b else padRight w b

def rule (widths : List Nat) : Bytes :=
  0x2b :: widths.flatMap (fun w => List.replicate (w + 2) 0x2d ++ [0x2b]) ++ [Bytes.newline]

def row (cells : List Bytes) : Bytes :=
  0x7c :: cells.flatMap (fun c => 0x20 :: c ++ [0x20, 0x7c]) ++ [Bytes.newline]

/-- The width of each column: that of its widest cell, the header included. -/
def widths (header : List Bytes) (rows : List (List Bytes)) : List Nat :=
  rows.foldl (fun ws r => ws.zipWith (fun w c => max w (width c)) r) (header.map width)

/-- The whole table. -/
def render (header : List Bytes) (rows : List (List Bytes)) : Bytes :=
  let header := header.map (·.map capital)
  let ws := widths header rows
  rule ws ++ row (ws.zipWith center header) ++ rule ws ++
    rows.flatMap (fun r => row (ws.zipWith cell r)) ++ rule ws

end TokenShell.Table
