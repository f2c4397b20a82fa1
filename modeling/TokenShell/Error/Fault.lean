import TokenShell.Token.Line

/-! Errors as they are reported: a kind, a message, a place, and the error behind it. -/
namespace TokenShell

/-- The kinds of evaluator error. Other numbers have no name of their own. -/
inductive ErrorKind where
  | structural
  | scope
  | precedence
  | protocol
  | runtime
  | other (n : Int)
  deriving Repr, DecidableEq

namespace ErrorKind

def text : ErrorKind → Bytes
  | structural => "structural error"
  | scope => "scope error"
  | precedence => "precedence error"
  | protocol => "protocol error"
  | runtime => "runtime error"
  | other n => ("ErrorKind(" : Bytes) ++ Bytes.integer n ++ (")" : Bytes)

/-- The kinds that have a name, in order; the first is number one. -/
def named : List ErrorKind := [structural, scope, precedence, protocol, runtime]

def ofNumber (n : Int) : ErrorKind :=
  if 0 < n then (named[n.toNat - 1]?).getD (other n) else other n

end ErrorKind

/-- A reported error. -/
inductive Fault where
  /-- A text and nothing else. -/
  | plain (text : Bytes)
  /-- The run was cancelled. -/
  | cancelled
  /-- A malformed token line. -/
  | malformed (e : Line.SyntaxError)
  /-- A note put in front of another error. -/
  | during (note : Bytes) (inner : Fault)
  /-- An evaluator error: kind, message, node and token (empty or absent if unknown), cause. -/
  | report (kind : ErrorKind) (message node : Bytes) (token : Option Token) (inner : Option Fault)
  deriving Repr, Inhabited

namespace Fault

/-- A text between two others, or nothing if it is empty. -/
def enclosed (before text after : Bytes) : Bytes :=
  if text.isEmpty then [] else before ++ text ++ after

/-- The full text of an error, with that of every error behind it. -/
def text : Fault → Bytes
  | plain t => t
  | cancelled => "context canceled"
  | malformed e => e.text
  | during note inner => note ++ (": " : Bytes) ++ inner.text
  | report kind message node token inner =>
    kind.text ++ enclosed ": " message [] ++ enclosed " (at " node ")" ++
      (match token with
        | none => []
        | some t => (" (token " : Bytes) ++ t.text ++ (")" : Bytes)) ++
      (match inner with
        | none => []
        | some f => (": " : Bytes) ++ f.text)

/-- The kinds of the evaluator errors in the chain, outermost first. -/
def kinds : Fault → List ErrorKind
  | plain _ | cancelled | malformed _ => []
  | during _ inner => inner.kinds
  | report kind _ _ _ none => [kind]
  | report kind _ _ _ (some f) => kind :: f.kinds

/-- The class a caller sees: the outermost evaluator error decides, then what else is in the chain.
-/
inductive Class where
  | evaluator (kind : ErrorKind)
  | malformed
  | cancelled
  | other
  deriving Repr, DecidableEq

def innermost : Fault → Class
  | plain _ => .other
  | cancelled => .cancelled
  | malformed _ => .malformed
  | during _ inner => inner.innermost
  | report _ _ _ _ none => .other
  | report _ _ _ _ (some f) => f.innermost

def classify (f : Fault) : Class :=
  match f.kinds with
  | k :: _ => .evaluator k
  | [] => f.innermost

end Fault

end TokenShell
