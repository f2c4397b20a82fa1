import TokenShell.Error.Fault

/-! Listing the tokens of an input, one a line or line by line in canonical form. -/
namespace TokenShell.Line

/-- A listing and the error that ended it, if one did. -/
structure Listing where
  text : Bytes := []
  fault : Option Fault := none

/-- What is listed for a line with the given number. -/
def listLine (canonical : Bool) (number : Nat) (line : Bytes) (toks : List Token) : Bytes :=
  let body :=
    if canonical then format toks ++ [Bytes.newline]
    else toks.flatMap fun t => t.text ++ [Bytes.newline]
  let d := depth line
  if d = 0 then body
  else
    body ++ ("# line " : Bytes) ++ Bytes.decimal number ++ (" leaves " : Bytes) ++
      Bytes.integer d ++ (" open\n" : Bytes)

/-- Lists lines, the first of which has the given number, up to the first malformed one. -/
def listLines (canonical : Bool) (number : Nat) : List Bytes → Listing
  | [] => {}
  | line :: rest =>
    match tokenize line with
    | .error e =>
      { fault := some (.during (("line " : Bytes) ++ Bytes.decimal number) (.malformed e)) }
    | .ok toks =>
      let r := listLines canonical (number + 1) rest
      { r with text := listLine canonical number line toks ++ r.text }

/-- Lists a whole input. -/
def list (canonical : Bool) (input : Bytes) : Listing := listLines canonical 1 (Bytes.lines input)

end TokenShell.Line
