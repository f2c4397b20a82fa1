import TokenShell.Text.Bytes

/-! File paths with slashes. -/
namespace TokenShell.Path

def slash : UInt8 := 0x2f

/-- One step of cleaning, on the parts kept so far, the last one first. -/
def cleanStep (rooted : Bool) (kept : List Bytes) (part : Bytes) : List Bytes :=
  if part = [] || part = "." then kept
  else if part = ".." then
    match kept with
    | [] => if rooted then [] else [part]
    | top :: rest => if top = ".." then part :: kept else rest
  else part :: kept

/-- The shortest path to the same place. -/
def clean (path : Bytes) : Bytes :=
  let rooted := path.head? == some slash
  let kept := ((Bytes.split slash path).foldl (cleanStep rooted) []).reverse
  let body := Bytes.join [slash] kept
  if rooted then slash :: body else if body.isEmpty then "." else body

/-- A name inside a directory, cleaned. -/
def join (directory name : Bytes) : Bytes := clean (directory ++ slash :: name)

/-- The last part of a path from its last dot on; empty if it has no dot. -/
def extension (path : Bytes) : Bytes :=
  let base := (path.reverse.takeWhile (· != slash)).reverse
  let tail := (base.reverse.takeWhile (· != 0x2e)).reverse
  if tail.length < base.length then 0x2e :: tail else []

end TokenShell.Path
