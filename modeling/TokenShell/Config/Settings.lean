import TokenShell.Error.Fault

/-! The settings of a session. -/
namespace TokenShell

structure Settings where
  logLevel : Bytes := "warn"
  logFile : Bytes := []
  dispatch : Bytes := "shell"
  printTree : Bool := false
  prompt : Bytes := "lush> "
  historyFile : Bytes := []
  deriving Repr, DecidableEq

namespace Settings

def lineDispatch : Bytes := "line"

def shellDispatch : Bytes := "shell"

/-- Commands run by one of two dispatchers. -/
def validate (s : Settings) : Except Fault Unit :=
  if s.dispatch = lineDispatch || s.dispatch = shellDispatch then .ok ()
  else
    .error (.plain (("dispatch must be " : Bytes) ++ Text.quoted lineDispatch ++ (" or " : Bytes) ++
      Text.quoted shellDispatch ++ (", got " : Bytes) ++ Text.quoted s.dispatch))

/-- The settings a file may give: five texts and one switch. -/
inductive Key where
  | logLevel
  | logFile
  | dispatch
  | printTree
  | prompt
  | historyFile
  deriving Repr, DecidableEq

namespace Key

def all : List Key := [logLevel, logFile, dispatch, printTree, prompt, historyFile]

def name : Key → Bytes
  | logLevel => "log_level"
  | logFile => "log_file"
  | dispatch => "dispatch"
  | printTree => "print_tree"
  | prompt => "prompt"
  | historyFile => "history_file"

def ofName? (n : Bytes) : Option Key := all.find? (·.name == n)

end Key

/-- Gives a setting a text; the switch takes none. -/
def setText (s : Settings) (text : Bytes) : Key → Option Settings
  | .logLevel => some { s with logLevel := text }
  | .logFile => some { s with logFile := text }
  | .dispatch => some { s with dispatch := text }
  | .prompt => some { s with prompt := text }
  | .historyFile => some { s with historyFile := text }
  | .printTree => none

/-- Sets the switch; the texts take no truth value. -/
def setSwitch (s : Settings) (on : Bool) : Key → Option Settings
  | .printTree => some { s with printTree := on }
  | _ => none

end Settings

end TokenShell
