import TokenShell.Tree.Cause

/-! What happens to a tree and its commands, as it is reported to the log. -/
namespace TokenShell

inductive Event where
  | insert (t : Token)
  | unknownName (name : Bytes)
  | insertFailed (t : Token) (f : Failure)
  | discarded (count : Nat)
  | ready (node : Bytes) (level : Nat)
  | evaluationFailed (node : Bytes) (f : Failure)
  | commandSkipped
  /-- A command is handed to the dispatcher; `serial` tells which node it is. -/
  | dispatching (serial : Nat) (command : Bytes)
  | statusLine (command line : Bytes)
  | shellFinished (command : Bytes) (status : Nat)
  | commandFinished (command : Bytes) (status : Int64)
  | sessionStarted (dispatch : Bytes)
  deriving Repr

/-- Who writes to a channel: the session itself, or a dispatcher at work on a command. -/
inductive Writer where
  | session
  | dispatcher
  deriving Repr, DecidableEq

/-- What a run shows, in order: log events, and text for its two output channels. -/
inductive Output where
  | log (e : Event)
  | out (writer : Writer) (text : Bytes)
  | err (writer : Writer) (text : Bytes)
  deriving Repr

end TokenShell
