import TokenShell.Log.Clock
import TokenShell.Number.Decimal
import TokenShell.Text.Quoted

/-! Log records written as lines: level, time, message, and attributes as `key=value`. -/
namespace TokenShell.Log

/-- Levels are numbers; these four have names. -/
abbrev Level := Int

def debug : Level := -4

def info : Level := 0

def warn : Level := 4

def error : Level := 8

/-- A single attribute value. -/
inductive Scalar where
  | string (s : Bytes)
  | integer (n : Int)
  | float (x : Binary64)
  | bool (b : Bool)
  | duration (nanos : Int)
  | time (millis : Int)
  | error (text : Bytes)
  | nil
  deriving Repr, DecidableEq

/-- A named value, or a named group of attributes. -/
inductive Attr where
  | single (key : Bytes) (value : Scalar)
  | group (key : Bytes) (members : List Attr)
  deriving Repr, Inhabited

structure Record where
  level : Level
  message : Bytes
  attrs : List Attr := []
  /-- Milliseconds since 1970; without it the handler's clock is asked. -/
  time : Option Int := none

/-- The plain text of a value. -/
def Scalar.text : Scalar → Bytes
  | string s => s
  | integer n => Bytes.integer n
  | float x => Decimal.general.text x
  | bool b => if b then "true" else "false"
  | duration n => Clock.span n
  | time n => Clock.stamp n
  | error t => t
  | nil => "<nil>"

/-- The bytes that make a value be quoted. -/
def isDelimiter (b : UInt8) : Bool := b = 0x20 || b = 0x09 || b = 0x0a || b = 0x22 || b = 0x3d

/-- A value as it is written: quoted if it is empty or could be misread. Times never are. -/
def Scalar.written (v : Scalar) : Bytes :=
  match v with
  | time n => Clock.stamp n
  | v => if v.text.isEmpty || v.text.any isDelimiter then Text.quoted v.text else v.text

/-- A key below a group. -/
def qualified (outer key : Bytes) : Bytes := if outer.isEmpty then key else outer ++ 0x2e :: key

namespace Attr

/-- The empty attribute, which is not written. -/
def isBlank : Attr → Bool
  | single key .nil => key.isEmpty
  | _ => false

mutual

/-- An attribute below a group; the members of a group are written one by one. -/
def written (outer : Bytes) : Attr → Bytes
  | single key value =>
    if (single key value).isBlank then []
    else 0x20 :: qualified outer key ++ 0x3d :: value.written
  | group key members => writtenAll (qualified outer key) members

def writtenAll (outer : Bytes) : List Attr → Bytes
  | [] => []
  | a :: as => a.written outer ++ writtenAll outer as

end

/-- The attribute with its key below a group. -/
def under (outer : Bytes) : Attr → Attr
  | single key value => single (qualified outer key) value
  | group key members => group (qualified outer key) members

end Attr

/-- The colors of level tags. -/
inductive Color where
  | red
  | yellow
  | green
  | cyan
  deriving Repr, DecidableEq

/-- A way to color a text, which stays on its line. -/
structure Paint where
  color : Color → Bytes → Bytes
  oneLine : ∀ c text, Bytes.newline ∉ text → Bytes.newline ∉ color c text

/-- A writer of records at or above a level. -/
structure Handler where
  level : Level
  /-- How level tags are colored, if they are. -/
  paint : Option Paint := none
  /-- Attributes attached beforehand, with full keys. -/
  attrs : List Attr := []
  groups : List Bytes := []
  /-- The time of records that have none. -/
  now : Int := 0

namespace Handler

def enabled (h : Handler) (l : Level) : Bool := h.level ≤ l

/-- The key that the open groups make up. -/
def outer (h : Handler) : Bytes := Bytes.join "." h.groups

def withAttrs (h : Handler) (attrs : List Attr) : Handler :=
  { h with attrs := h.attrs ++ attrs.map (Attr.under h.outer) }

def withGroup (h : Handler) (name : Bytes) : Handler :=
  if name.isEmpty then h else { h with groups := h.groups ++ [name] }

/-- The tag of a level and its color. -/
def tag (l : Level) : Bytes × Color :=
  if error ≤ l then ("EROR", .red)
  else if warn ≤ l then ("WARN", .yellow)
  else if info ≤ l then ("INFO", .green)
  else ("DBUG", .cyan)

def levelTag (h : Handler) (l : Level) : Bytes :=
  match h.paint with
  | none => (tag l).1
  | some p => p.color (tag l).2 (tag l).1

/-- The line of a record. -/
def line (h : Handler) (r : Record) : Bytes :=
  h.levelTag r.level ++ (" [" : Bytes) ++ Clock.stamp (r.time.getD h.now) ++ ("] " : Bytes) ++
    r.message ++ Attr.writtenAll [] h.attrs ++ Attr.writtenAll h.outer r.attrs ++ [Bytes.newline]

end Handler

end TokenShell.Log
