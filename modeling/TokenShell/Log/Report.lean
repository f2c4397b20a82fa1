import TokenShell.Log.Handler
import TokenShell.Text.Blank
import TokenShell.Text.Lowercase
import TokenShell.Tree.Event

/-! Events as log records, and level names. -/
namespace TokenShell

namespace Event

def text (key value : Bytes) : Log.Attr := .single key (.string value)

def number (key : Bytes) (n : Int) : Log.Attr := .single key (.integer n)

def problem (f : Failure) : Log.Attr := .single "err" (.error f.fault.text)

/-- The log record of an event. -/
def record : Event → Log.Record
  | insert t => { level := Log.debug, message := "insert", attrs := [text "token" t.text] }
  | unknownName name =>
    { level := Log.debug
      message := "unknown token name becomes a command-operator"
      attrs := [text "name" name] }
  | insertFailed t f =>
    { level := Log.warn
      message := "insert failed, resetting"
      attrs := [text "token" t.text, problem f] }
  | discarded n =>
    { level := Log.warn, message := "reset discarded fragments", attrs := [number "count" n] }
  | ready node level =>
    { level := Log.info
      message := "fragment ready"
      attrs := [text "node" node, text "scope" (Scopes.describe level)] }
  | evaluationFailed node f =>
    { level := Log.warn
      message := "evaluation failed, discarding fragment"
      attrs := [text "node" node, problem f] }
  | commandSkipped =>
    { level := Log.debug, message := "command skipped", attrs := [text "reason" "code block"] }
  | dispatching _ command =>
    { level := Log.info, message := "dispatching command", attrs := [text "cmd" command] }
  | statusLine command line =>
    { level := Log.debug
      message := "status line"
      attrs := [text "cmd" command, text "line" line] }
  | shellFinished command status =>
    { level := Log.debug
      message := "shell command finished"
      attrs := [text "cmd" command, number "status" status] }
  | commandFinished command status =>
    { level := Log.debug
      message := "command finished"
      attrs := [text "cmd" command, number "status" status.toInt] }
  | sessionStarted dispatch =>
    { level := Log.debug, message := "session started", attrs := [text "dispatch" dispatch] }

end Event

namespace Log

/-- The lines of those events that a handler lets through. -/
def Handler.lines (h : Handler) (events : List Event) : Bytes :=
  events.flatMap fun e => if h.enabled e.record.level then h.line e.record else []

/-- The level of a name, in any case and with white space around it. No name means `info`. -/
def levelNamed (s : Bytes) : Except Fault Level :=
  let name := Bytes.lower (Bytes.trim s)
  if name = "debug" then .ok debug
  else if name = [] || name = "info" then .ok info
  else if name = "warn" || name = "warning" then .ok warn
  else if name = "error" then .ok error
  else .error (.plain (("unknown log level " : Bytes) ++ Text.quoted s))

end Log

end TokenShell
