import TokenShell.Dispatch.Basic

/-! The line protocol: a command goes out as one request line, its status comes back as one line. -/
namespace TokenShell

/-- The two ends of a protocol channel. -/
structure LineChannel where
  /-- What the other side has still to say. -/
  input : Bytes := []
  /-- Everything written so far. -/
  wire : Bytes := []
  /-- Why writing fails, if it does. -/
  broken : Option Bytes := none

namespace LineChannel

/-- What starts every request. -/
def requestMark : Bytes := "CMD:"

def isLineBreak (b : UInt8) : Bool := b = Bytes.newline || b = Bytes.carriageReturn

/-- The request line of a command. -/
def request (command : Bytes) : Bytes := requestMark ++ command ++ [Bytes.newline]

/-- Reads one status line; its line break does not belong to it. -/
def readStatus (command : Bytes) (c : LineChannel) : Reply × LineChannel :=
  match c.input with
  | [] => ({ answer := .error (.during "read status" (.plain "EOF")) }, c)
  | _ =>
    let (line, rest) := Bytes.cutLine c.input
    let line := Bytes.trimRight isLineBreak line
    ({ answer := .ok line, notices := [.statusLine command line] }, { c with input := rest })

/-- Sends a command and waits for its status. A line break in a command would forge a second request
and is refused. -/
def send (cancelled : Bool) (command : Bytes) (c : LineChannel) : Reply × LineChannel :=
  if command.any isLineBreak then
    let text := ("command " : Bytes) ++ Text.quoted command ++ (" contains a line break" : Bytes)
    ({ answer := .error (.plain text) }, c)
  else if cancelled then ({ answer := .error .cancelled }, c)
  else
    match c.broken with
    | some text => ({ answer := .error (.during "write command" (.plain text)) }, c)
    | none => readStatus command { c with wire := c.wire ++ request command }

def dispatcher : Dispatcher LineChannel := ⟨send⟩

end LineChannel

end TokenShell
