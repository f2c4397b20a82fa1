import Std.Time.DateTime.Timestamp
import TokenShell.Host.System

/-! The program: reads its arguments, files and standard input, and writes what the call leaves. -/
namespace TokenShell

def Bytes.toArray (b : Bytes) : ByteArray := ⟨List.toArray b⟩

/-- The content of a file, if it can be read. -/
def readFile? (path : String) : IO (Option Bytes) := do
  try
    return some (← IO.FS.readBinFile path).toList
  catch _ => return none

/-- The files that the arguments may name. -/
def readFiles (args : List String) : IO Directory := do
  let mut files : List (Bytes × Bytes) := []
  for arg in args do
    let name := ((arg.splitOn "=").getLast?).getD arg
    if let some content ← readFile? name then
      files := files ++ [(Path.clean name, content)]
  return ⟨files⟩

/-- A fresh name for a session: 32 hexadecimal digits in the usual five groups. -/
def sessionName : IO Bytes := do
  let mut groups : List Bytes := []
  for width in [8, 4, 4, 4, 12] do
    groups := groups ++ [Bytes.hexadecimal width (← IO.rand 0 (Nat.pow 16 width - 1))]
  return Bytes.join "-" groups

/-- All of a stream. -/
partial def readAll (s : IO.FS.Stream) (acc : ByteArray) : IO ByteArray := do
  let chunk ← s.read 65536
  if chunk.isEmpty then return acc else readAll s (acc ++ chunk)

def report (p : Settings.Problem) : Bytes :=
  match p with
  | .fault f => ("error: " : Bytes) ++ f.text ++ [Bytes.newline]
  | .rejected path => ("error: parsing " : Bytes) ++ path ++ [Bytes.newline]

end TokenShell

open TokenShell in
def main (args : List String) : IO UInt32 := do
  let directory ← readFiles args
  let stdin ← readAll (← IO.getStdin) ByteArray.empty
  let now := (← Std.Time.Timestamp.now).toMillisecondsSinceUnixEpoch.val
  let session ← sessionName
  let r := CommandLine.run .system
    { args := args.map Bytes.ofString, directory, stdin := stdin.toList, session, now }
  (← IO.getStdout).write (Bytes.toArray r.out)
  (← IO.getStderr).write (Bytes.toArray r.err)
  for (name, content) in r.directory.files do
    if directory.files.lookup name != some content then
      if let some path := String.fromUTF8? (Bytes.toArray name) then
        IO.FS.writeBinFile path (Bytes.toArray content)
  match r.problem with
  | none => return 0
  | some p =>
    (← IO.getStderr).write (Bytes.toArray (report p))
    return 1
