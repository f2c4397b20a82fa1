import TokenShell.Config.Path
import TokenShell.Config.Settings
import TokenShell.Text.Lowercase

/-! Loading settings from a file, and the place of the history file. -/
namespace TokenShell

/-- Why settings could not be used. -/
inductive Settings.Problem where
  | fault (f : Fault)
  /-- The file is not in the format its name promises. -/
  | rejected (path : Bytes)

/-- Why a file cannot be read. -/
inductive FileError where
  | missing
  | directory
  | throughFile
  deriving Repr, DecidableEq

def FileError.text : FileError → Bytes
  | missing => "no such file or directory"
  | directory => "is a directory"
  | throughFile => "not a directory"

namespace Settings

/-- The two file formats. -/
inductive Format where
  | toml
  | yaml
  deriving Repr, DecidableEq

/-- The format of an extension in lower case. -/
def Format.ofExtension? (ext : Bytes) : Option Format :=
  if ext = ".toml" then some .toml
  else if ext = ".yaml" || ext = ".yml" then some .yaml
  else none

/-- Reads a file over some settings; there are none if it is not in its format. -/
abbrev Reader := Settings → Bytes → Option Settings

/-- The default settings changed by a file, with the problem met, if any. -/
def load (reader : Format → Reader) (path : Bytes) (content : Except Fault Bytes) :
    Settings × Option Problem :=
  let base : Settings := {}
  match content with
  | .error f => (base, some (.fault (.during "reading config" f)))
  | .ok file =>
    let ext := Bytes.lower (Path.extension path)
    match Format.ofExtension? ext with
    | none =>
      (base, some (.fault (.plain (("unsupported config format " : Bytes) ++ Text.quoted ext ++
        (" (want .toml, .yaml or .yml)" : Bytes)))))
    | some format =>
      match reader format base file with
      | none => (base, some (.rejected path))
      | some s =>
        match s.validate with
        | .ok () => (s, none)
        | .error f => (s, some (.fault f))

/-- The history file: the one set, else one in the home directory, else none. -/
def historyPath (s : Settings) (home : Bytes) : Bytes :=
  if !s.historyFile.isEmpty then s.historyFile
  else if home.isEmpty then []
  else Path.join home ".lush_history"

end Settings

end TokenShell
