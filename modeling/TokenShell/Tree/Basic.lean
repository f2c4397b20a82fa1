import TokenShell.Tree.Analysis
import TokenShell.Tree.Completion
import TokenShell.Tree.Event
import TokenShell.Tree.Reorder

/-! The evaluation tree while it grows: closed top-level fragments, the path of open nodes down to
the cursor, and the global scope. -/
namespace TokenShell

structure Tree where
  /-- The closed top-level fragments in source order. -/
  fragments : List Node := []
  /-- The open nodes, innermost first. Each one's open child is not yet among its children. -/
  path : List Node := []
  /-- An opening parenthesis still waits for its head. -/
  expectHead : Bool := false
  globals : Scope := {}
  /-- How many tokens have been inserted. -/
  clock : Nat := 0

namespace Tree

/-- The token the root shows itself as. -/
def rootToken : Token := ⟨"root", []⟩

/-- The token of the node at the cursor. -/
def cursor (t : Tree) : Token :=
  match t.path with
  | [] => rootToken
  | n :: _ => n.label.token

/-- Whether the cursor is at the root or at a block, where fragments are collected. -/
def atScope (t : Tree) : Bool :=
  match t.path with
  | [] => true
  | n :: _ => n.isBlock

/-- The number of the node at the cursor. -/
def cursorNumber (t : Tree) : Nat :=
  match t.path with
  | [] => 0
  | n :: _ => n.label.serial

/-- The number of the block for children of the cursor node. -/
def innerBlock (t : Tree) : Option Nat :=
  match t.path with
  | [] => some 0
  | n :: _ => n.label.innerBlock

end Tree

namespace Node

/-- The node with one more child. -/
def push (n k : Node) : Node := mk n.label (n.kids ++ [k])

def scope? (n : Node) : Option Scope :=
  match n.form with
  | .block _ s => some s
  | _ => none

def setScope (n : Node) (s : Scope) : Node :=
  match n.form with
  | .block kind _ => n.setLabel { n.label with form := .block kind s }
  | _ => n

/-- Whether a closing marker matches the marker that opened the node. -/
def closedBy (n : Node) (m : Marker) : Bool := n.label.opener.any (·.closer? == some m)

/-- Takes a closed fragment through setup, completion, reordering and analysis. -/
def cascade (within : Option Nat) (n : Node) : Analysis Node := do
  let n ← (n.setUp within : Except Failure Node)
  let n ← (n.complete false : Except Failure Node)
  let n ← (n.reorder : Except Failure Node)
  n.analyze false

end Node

/-- The children of a container after its pending fragments were taken through the phases. -/
structure Flushed where
  kids : List Node
  scopes : Scopes
  events : List Event := []
  failure : Option Failure := none

/-- Takes every child that is not analyzed through the phases, in order, up to the first failure. -/
def Flushed.of (within : Option Nat) (scopes : Scopes) : List Node → Flushed
  | [] => { kids := [], scopes }
  | n :: ns =>
    if n.flags.analyzed then
      let rest := of within scopes ns
      { rest with kids := n :: rest.kids }
    else
      match n.cascade within scopes with
      | (.error f, scopes) => { kids := n :: ns, scopes, failure := some f }
      | (.ok n, scopes) =>
        let rest := of within scopes ns
        { rest with
          kids := n :: rest.kids
          events := .ready n.text (scopes.depth n.label.block) :: rest.events }

/-- The result of an operation on a tree. -/
structure Step where
  tree : Tree
  events : List Event := []
  failure : Option Failure := none

/-- Goes on with a step unless it failed. -/
def Step.next (s : Step) (f : Tree → Step) : Step :=
  match s.failure with
  | some _ => s
  | none =>
    let r := f s.tree
    { r with events := s.events ++ r.events }

namespace Tree

/-- A failure at the cursor that leaves the tree as it is. -/
def refuse (t : Tree) (c : Cause) : Step :=
  { tree := t, failure := some { cause := c, node := some t.cursor } }

/-- The scopes around the children of the cursor node, innermost first. -/
def scopes (t : Tree) : Scopes := t.path.filterMap Node.scope? ++ [t.globals]

/-- Takes the pending fragments at the cursor through the phases. -/
def flush (t : Tree) : Step :=
  match t.path with
  | [] =>
    let r := Flushed.of t.innerBlock t.scopes t.fragments
    { tree := { t with fragments := r.kids, globals := r.scopes.head?.getD t.globals }
      events := r.events
      failure := r.failure }
  | n :: path =>
    let r := Flushed.of t.innerBlock t.scopes n.kids
    { tree := { t with path := (Node.mk n.label r.kids).setScope (r.scopes.head?.getD {}) :: path }
      events := r.events
      failure := r.failure }

/-- Puts a closed node under the cursor. -/
def append (t : Tree) (n : Node) : Tree :=
  match t.path with
  | [] => { t with fragments := t.fragments ++ [n] }
  | p :: path => { t with path := p.push n :: path }

/-- Puts a fresh node under the cursor. An opened node becomes the cursor. -/
def attach (t : Tree) (tok : Token) (opener : Option Marker) : Step :=
  let n := (Node.ofToken tok t.clock).adopt (some t.cursorNumber)
  if t.path.head?.any (·.flags.complete) then t.refuse (.attachToCompleted n.text)
  else
    match n.setUp t.innerBlock with
    | .error f => { tree := t, failure := some f }
    | .ok n =>
      match opener with
      | none => { tree := t.append n }
      | some m =>
        let n := n.setLabel { n.label with opener := some m }
        { tree := { t with path := n :: t.path, expectHead := false } }

/-- Closes the cursor node and moves to its parent, where fragments may become ready. -/
def closeCursor (t : Tree) : Step :=
  match t.path with
  | [] => { tree := t }
  | n :: path =>
    let n := n.setLabel { n.label with closedAt := some t.clock }
    let t := { t with path }.append n
    if t.atScope then t.flush else { tree := t }

/-- Handles a closing marker. A block first takes its own pending fragments through the phases. -/
def close (t : Tree) (tok : Token) (m : Marker) : Step :=
  if t.expectHead then t.refuse (.closerAfterOpen tok.name)
  else
    match t.path with
    | [] => t.refuse (.unmatched tok.name)
    | n :: _ =>
      if !n.closedBy m then t.refuse (.unmatched tok.name)
      else if m = .closeBlock then t.flush.next closeCursor
      else t.closeCursor

/-- Handles the terminator, which makes the pending fragments at the cursor ready. -/
def terminate (t : Tree) : Step :=
  if t.expectHead then t.refuse .terminatorAfterOpen
  else if !t.atScope then t.refuse (.terminatorInside t.cursor.name)
  else t.flush

/-- Handles a token that makes a node. -/
def grow (t : Tree) (tok : Token) : Step :=
  let opener : Option Marker :=
    if t.expectHead then some .openGroup
    else
      match tok.kind with
      | .marker m => some m
      | _ => none
  let events := if tok.kind = .word then [.unknownName tok.name] else []
  let r := t.attach tok opener
  { r with events := events ++ r.events }

/-- Inserts a token without cleaning up after a failure. -/
def place (t : Tree) (tok : Token) : Step :=
  match tok.kind with
  | .marker .openGroup =>
    if t.expectHead then t.refuse .headMissing else { tree := { t with expectHead := true } }
  | .marker .terminator => t.terminate
  | .marker .closeGroup => t.close tok .closeGroup
  | .marker .closeBlock => t.close tok .closeBlock
  | .marker .closeCommand => t.close tok .closeCommand
  | .marker _ => if t.expectHead then t.refuse (.openerAsHead tok.name) else t.grow tok
  | _ => t.grow tok

end Tree

/-- Takes back the declarations a discarded tree made. -/
def Scope.rollback (s : Scope) (n : Node) : Scope :=
  n.labels.foldl
    (fun s l =>
      match l.form with
      | .variable .. => s.retract l.token.value l.serial
      | _ => s)
    s

def Node.isReady (n : Node) : Bool := n.flags.complete && n.flags.analyzed

namespace Tree

/-- The outermost open node, if any, with the rest of the path under it. -/
def openFragment (path : List Node) : Option Node :=
  match path with
  | [] => none
  | n :: path => some (path.foldl (fun n p => p.push n) n)

/-- The children of the root: the closed fragments, then the open one. -/
def roots (t : Tree) : List Node := t.fragments ++ (openFragment t.path).toList

/-- Discards every top-level fragment that is not complete and analyzed, with its declarations, and
returns the cursor to the root. -/
def reset (t : Tree) : Step :=
  let dropped := t.roots.filter (!·.isReady)
  { tree :=
      { t with
        fragments := t.roots.filter (·.isReady)
        path := []
        expectHead := false
        globals := dropped.foldl Scope.rollback t.globals }
    events := if dropped.isEmpty then [] else [.discarded dropped.length] }

/-- Inserts one token. A failure discards the fragment it belongs to. -/
def insert (t : Tree) (tok : Token) : Step :=
  let r := { t with clock := t.clock + 1 }.place tok
  match r.failure with
  | none => { r with events := .insert tok :: r.events }
  | some f =>
    let cleared := r.tree.reset
    { tree := cleared.tree
      events := .insert tok :: r.events ++ .insertFailed tok f :: cleared.events
      failure := some (f.withToken tok) }

/-- Inserts tokens in order up to the first failure. -/
def insertAll (t : Tree) : List Token → Step
  | [] => { tree := t }
  | tok :: toks => (t.insert tok).next (insertAll · toks)

end Tree

end TokenShell
