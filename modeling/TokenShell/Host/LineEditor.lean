import TokenShell.Session.Interactive
import TokenShell.Text.Control

/-! A line editor on plain input, with its history. -/
namespace TokenShell

/-- The lines entered, oldest first. -/
structure History where
  entries : List Bytes := []

/-- A line as the editor reads it. -/
structure EditorLine where
  text : Bytes
  rest : Bytes
  /-- Whether the line went on past the editor's buffer. -/
  cut : Bool := false

namespace EditorLine

/-- The editor takes at most this many bytes as a line. -/
def bufferSize : Nat := 4096

/-- Drops one carriage return at the end. -/
def dropReturn (b : Bytes) : Bytes :=
  if b.getLast? = some Bytes.carriageReturn then b.dropLast else b

/-- Reads a line without its line break. A line that fills the buffer is cut there; a carriage
return is not cut off from what may be its newline. -/
def read? (input : Bytes) : Option EditorLine :=
  if input.isEmpty then none
  else
    let window := input.take bufferSize
    let line := window.takeWhile (· != Bytes.newline)
    if line.length < window.length then some ⟨dropReturn line, input.drop (line.length + 1), false⟩
    else if window.length < bufferSize then some ⟨window, [], false⟩
    else
      let text := dropReturn window
      some ⟨text, input.drop text.length, true⟩

end EditorLine

namespace History

/-- Older entries are dropped beyond this many. -/
def limit : Nat := 1000

def add (h : History) (line : Bytes) : History :=
  let entries := h.entries ++ [line]
  ⟨if limit < entries.length then entries.drop 1 else entries⟩

/-- Adds a line unless it repeats the last entry. -/
def append (h : History) (line : Bytes) : History :=
  if h.entries.getLast? = some line then h else h.add line

/-- Loads lines up to the first that is too long or not UTF-8. `fuel` bounds the number of lines. -/
def loadFor (h : History) (input : Bytes) : Nat → History
  | 0 => h
  | fuel + 1 =>
    match EditorLine.read? input with
    | none => h
    | some l => if l.cut || !Bytes.isUtf8 l.text then h else (h.add l.text).loadFor l.rest fuel

def load (file : Bytes) : History := ({} : History).loadFor file file.length

/-- The history as a file. -/
def save (h : History) : Bytes := h.entries.flatMap (· ++ [Bytes.newline])

end History

/-- The input of an editor that is still unread, and its history. -/
structure LineEditor where
  input : Bytes
  history : History := {}

namespace LineEditor

/-- A prompt must hold no control characters. -/
def promptIsValid (b : Bytes) : Bool := (Rune.decode b).all fun
  | .scalar n => !Text.isControl n
  | .stray _ => true

def ask (prompt : Bytes) (e : LineEditor) : Asked LineEditor :=
  if !promptIsValid prompt then { entry := .failed (.plain "invalid prompt"), state := e }
  else
    match EditorLine.read? e.input with
    | none => { screen := prompt, entry := .ended, state := e }
    | some l => { screen := prompt, entry := .line l.text, state := { e with input := l.rest } }

def remember (line : Bytes) (e : LineEditor) : LineEditor :=
  { e with history := e.history.append line }

def editor : Editor LineEditor := ⟨ask, remember⟩

end LineEditor

end TokenShell
