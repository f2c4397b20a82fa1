import TokenShell.Config.Load
import TokenShell.Log.Report
import TokenShell.Session.Run
import TokenShell.Token.Listing

/-! The command line: its flags, the files it touches, and what a call writes where. -/
namespace TokenShell

/-- Files by their paths; directories are there if a file is in them. -/
structure Directory where
  files : List (Bytes × Bytes) := []

namespace Directory

def startsWith (start b : Bytes) : Bool := start.isPrefixOf b

/-- Why a path cannot be opened, or the content of its file; a directory can be opened but not read.
-/
def lookup (d : Directory) (path : Bytes) : Except FileError Bytes :=
  let p := Path.clean path
  match d.files.lookup p with
  | some content => .ok content
  | none =>
    if path.isEmpty then .error .missing
    else if p = "." || d.files.any fun f => startsWith (p ++ [Path.slash]) f.1 then
      .error .directory
    else if d.files.any fun f => startsWith (f.1 ++ [Path.slash]) p then .error .throughFile
    else .error .missing

def openFault (path : Bytes) (e : FileError) : Fault :=
  .plain (("open " : Bytes) ++ path ++ (": " : Bytes) ++ e.text)

def readFault (path : Bytes) : Fault :=
  .plain (("read " : Bytes) ++ path ++ (": " : Bytes) ++ FileError.text .directory)

/-- The whole content of a file. -/
def read (d : Directory) (path : Bytes) : Except Fault Bytes :=
  match d.lookup path with
  | .ok b => .ok b
  | .error .directory => .error (readFault path)
  | .error e => .error (openFault path e)

/-- Adds text at the end of a file, which is made if it is not there. -/
def append (d : Directory) (path text : Bytes) : Directory :=
  let p := Path.clean path
  if d.files.any (·.1 == p) then
    ⟨d.files.map fun f => if f.1 == p then (f.1, f.2 ++ text) else f⟩
  else ⟨d.files ++ [(p, text)]⟩

/-- The directory part of a path. -/
def parent (path : Bytes) : Bytes :=
  Path.clean (path.reverse.dropWhile (· != Path.slash)).reverse

/-- Opens a file for appending. -/
def create (d : Directory) (path : Bytes) : Except Fault Directory :=
  match d.lookup path with
  | .ok _ => .ok d
  | .error .missing =>
    match d.lookup (parent path) with
    | .error .directory => .ok (d.append path [])
    | _ => .error (openFault path .missing)
  | .error e => .error (openFault path e)

end Directory

namespace CommandLine

/-- The two commands. -/
inductive Command where
  | eval
  | tokens
  deriving Repr, DecidableEq

/-- The flags, with the values given last. -/
structure Options where
  version : Bool := false
  command : Option Command := none
  config : Option Bytes := none
  logLevel : Option Bytes := none
  logFile : Option Bytes := none
  dispatch : Option Bytes := none
  print : Option Bool := none
  line : Option Bool := none
  names : List Bytes := []
  deriving Repr

inductive Flag where
  | version
  | config
  | logLevel
  | logFile
  | dispatch
  | print
  | line
  deriving Repr, DecidableEq

namespace Flag

/-- The names of a flag, without dashes. -/
def names : Flag → List Bytes
  | version => ["version", "v"]
  | config => ["config", "c"]
  | logLevel => ["log-level"]
  | logFile => ["log-file"]
  | dispatch => ["dispatch", "d"]
  | print => ["print", "p"]
  | line => ["line", "l"]

/-- The flags known inside a command. -/
def known : Option Command → List Flag
  | none => [version, config, logLevel, logFile]
  | some .eval => [config, logLevel, logFile, dispatch, print]
  | some .tokens => [config, logLevel, logFile, line]

def ofName? (c : Option Command) (name : Bytes) : Option Flag :=
  (known c).find? (·.names.contains name)

def isSwitch : Flag → Bool
  | version | print | line => true
  | _ => false

/-- Sets a switch. -/
def switch (o : Options) (on : Bool) : Flag → Options
  | version => { o with version := on }
  | print => { o with print := some on }
  | line => { o with line := some on }
  | _ => o

/-- Gives a flag its text. -/
def give (o : Options) (text : Bytes) : Flag → Options
  | config => { o with config := some text }
  | logLevel => { o with logLevel := some text }
  | logFile => { o with logFile := some text }
  | dispatch => { o with dispatch := some text }
  | f => f.switch o (text = "true")

end Flag

def usage (text : Bytes) : Fault := .plain text

/-- The name and the attached value of an argument without its dashes. -/
def cutValue (b : Bytes) : Bytes × Option Bytes :=
  let name := b.takeWhile (· != 0x3d)
  (name, if name.length < b.length then some (b.drop (name.length + 1)) else none)

/-- One-letter switches in a row, all but the last of them. -/
def cluster (o : Options) : Bytes → Option (Options × Bytes)
  | [] => none
  | [c] => some (o, [c])
  | c :: rest =>
    match Flag.ofName? o.command [c] with
    | some f => if f.isSwitch then cluster (f.switch o true) rest else none
    | none => none

/-- Reads a flag that still may need its value. -/
def readFlag (o : Options) (name : Bytes) (attached : Option Bytes) :
    Except Fault (Options ⊕ (Bytes → Options)) :=
  match Flag.ofName? o.command name, attached with
  | none, _ => .error (usage (("flag provided but not defined: -" : Bytes) ++ name))
  | some f, some text => .ok (.inl (f.give o text))
  | some f, none => if f.isSwitch then .ok (.inl (f.switch o true)) else .ok (.inr (f.give o))

/-- The flag of an argument that starts with a dash. -/
def readDashed (o : Options) (arg : Bytes) : Except Fault (Options ⊕ (Bytes → Options)) :=
  match arg with
  | 0x2d :: 0x2d :: rest =>
    let (name, attached) := cutValue rest
    readFlag o name attached
  | _ =>
    let (name, attached) := cutValue (arg.drop 1)
    match if (Flag.ofName? o.command name).isSome then some (o, name) else cluster o name with
    | some (o, name) => readFlag o name attached
    | none => .error (usage (("flag provided but not defined: -" : Bytes) ++ name))

/-- Reads the arguments; `wants` is the flag that waits for its value. -/
def parseFrom (o : Options) (wants : Option (Bytes → Options)) : List Bytes → Except Fault Options
  | [] =>
    match wants with
    | none => .ok o
    | some _ => .error (usage "flag needs an argument")
  | arg :: rest =>
    match wants with
    | some f => parseFrom (f arg) none rest
    | none =>
      if arg = "--" then .ok { o with names := o.names ++ rest }
      else
        match arg with
        | 0x2d :: _ :: _ => do
          match ← readDashed o arg with
          | .inl o => parseFrom o none rest
          | .inr f => parseFrom o (some f) rest
        | _ =>
          if o.command.isNone && arg = "eval" then
            parseFrom { o with command := some .eval } none rest
          else if o.command.isNone && arg = "tokens" then
            parseFrom { o with command := some .tokens } none rest
          else parseFrom { o with names := o.names ++ [arg] } none rest

def parse (args : List Bytes) : Except Fault Options := parseFrom {} none args

/-- What a call finds around it. -/
structure Host where
  /-- Reads a configuration file of either format. -/
  reader : Settings.Format → Settings.Reader
  /-- Lays a table out. -/
  table : List Bytes → List (List Bytes) → Bytes
  /-- The states of the shell. -/
  State : Type
  shell : Dispatcher State
  /-- The shell at first, with its standard input. -/
  start : Bytes → State

/-- What a call starts from. -/
structure Call where
  args : List Bytes
  directory : Directory
  stdin : Bytes
  /-- The name of the session in the log. -/
  session : Bytes
  /-- The time of all log records, in milliseconds since 1970. -/
  now : Int

/-- What a call leaves behind. -/
structure Result where
  out : Bytes := []
  err : Bytes := []
  directory : Directory
  problem : Option Settings.Problem := none

def version : Bytes := "v0.3.0"

/-- The settings of the configuration file changed by the flags. -/
def settings (host : Host) (d : Directory) (o : Options) : Except Settings.Problem Settings := do
  let base ← match o.config with
    | none | some [] => .ok {}
    | some path =>
      match Settings.load host.reader path (d.read path) with
      | (s, none) => .ok s
      | (_, some p) => .error p
  let s : Settings :=
    { base with
      logLevel := o.logLevel.getD base.logLevel
      logFile := o.logFile.getD base.logFile
      dispatch := o.dispatch.getD base.dispatch
      printTree := o.print.getD base.printTree }
  match s.validate with
  | .ok () => .ok s
  | .error f => .error (.fault f)

/-- The input of a call: standard input, or the first file named. A directory opens but cannot be
read. -/
def input (c : Call) (o : Options) : Except Fault (Except Fault Bytes) :=
  match o.names with
  | [] => .ok (.ok c.stdin)
  | path :: _ =>
    match c.directory.lookup path with
    | .ok b => .ok (.ok b)
    | .error .directory => .ok (.error (Directory.readFault path))
    | .error e => .error (.during "opening input" (Directory.openFault path e))

/-- Text by channel. -/
structure Channels where
  out : Bytes := []
  err : Bytes := []
  log : Bytes := []

/-- Sorts outputs into channels; what the session shows goes to the error channel if `resultsToErr`
is set, and the log too unless it has a file. -/
def sort (h : Log.Handler) (resultsToErr logToFile : Bool) : List Output → Channels
  | [] => {}
  | o :: rest =>
    let c := sort h resultsToErr logToFile rest
    match o with
    | .out .dispatcher b => { c with out := b ++ c.out }
    | .out .session b =>
      if resultsToErr then { c with err := b ++ c.err } else { c with out := b ++ c.out }
    | .err _ b => { c with err := b ++ c.err }
    | .log e =>
      let line := h.lines [e]
      if logToFile then { c with log := line ++ c.log } else { c with err := line ++ c.err }

/-- Runs a session over the input: its outputs, the bytes on the wire, and the error that ended it.
-/
def runSession (host : Host) (c : Call) (s : Settings) (fromStdin : Bool)
    (input : Except Fault Bytes) : List Output × Bytes × Option Fault :=
  match input with
  | .error f => ([], [], some (.during "reading input" f))
  | .ok b =>
    if s.dispatch = Settings.lineDispatch then
      let start : Session (Feed Bytes) := { settings := s, table := host.table, world := ⟨b, []⟩ }
      let r := start.run (some Feed.lineProtocol) []
      (r.outputs, r.session.world.rest, r.fault)
    else
      let state := host.start (if fromStdin then [] else c.stdin)
      let start : Session (Feed host.State) :=
        { settings := s, table := host.table, world := ⟨b, state⟩ }
      let r := start.run (some (Feed.beside host.shell)) []
      (r.outputs, [], r.fault)

/-- The `eval` command. -/
def eval (host : Host) (c : Call) (o : Options) : Result :=
  let stop (d : Directory) (p : Settings.Problem) : Result := { directory := d, problem := some p }
  match settings host c.directory o with
  | .error p => stop c.directory p
  | .ok s =>
    match Log.levelNamed s.logLevel with
    | .error f => stop c.directory (.fault f)
    | .ok level =>
      let logToFile := !s.logFile.isEmpty
      match if logToFile then c.directory.create s.logFile else .ok c.directory with
      | .error f => stop c.directory (.fault (.during "opening log file" f))
      | .ok d =>
        match input c o with
        | .error f => stop d (.fault f)
        | .ok source =>
          let h := ({ level, now := c.now } : Log.Handler).withAttrs
            [.single "session" (.string c.session)]
          let (outputs, wire, fault) := runSession host c s o.names.isEmpty source
          let channels := sort h (s.dispatch = Settings.lineDispatch) logToFile
            (.log (.sessionStarted s.dispatch) :: outputs)
          { out := channels.out ++ wire
            err := channels.err
            directory := if logToFile then d.append s.logFile channels.log else d
            problem := fault.map .fault }

/-- The `tokens` command. -/
def tokens (c : Call) (o : Options) : Result :=
  match input c o with
  | .error f => { directory := c.directory, problem := some (.fault f) }
  | .ok (.error f) => { directory := c.directory, problem := some (.fault f) }
  | .ok (.ok b) =>
    let l := Line.list (o.line.getD false) b
    { out := l.text, directory := c.directory, problem := l.fault.map .fault }

/-- A whole call. -/
def run (host : Host) (c : Call) : Result :=
  match parse c.args with
  | .error f => { directory := c.directory, problem := some (.fault f) }
  | .ok o =>
    if o.version then
      { out := ("lush version " : Bytes) ++ version ++ [Bytes.newline], directory := c.directory }
    else
      match o.command with
      | some .eval => eval host c o
      | some .tokens => tokens c o
      | none => { directory := c.directory }

end CommandLine

end TokenShell
