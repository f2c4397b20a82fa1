import TokenShell.CommandLine
import TokenShell.Host.Shell
import TokenShell.Host.Table
import TokenShell.Host.Yaml

/-! What the program finds around it: readers of files, the layout of tables, and the shell. -/
namespace TokenShell

/-- Reads a file in either format, if it is UTF-8. -/
def Settings.Format.read? (format : Settings.Format) : Settings.Reader := fun s file =>
  if Bytes.isUtf8 file then
    match format with
    | .toml => Toml.read? s file
    | .yaml => Yaml.read? s file
  else none

def CommandLine.Host.system : CommandLine.Host where
  reader := Settings.Format.read?
  table := Table.render
  State := Shell.State
  shell := Shell.dispatcher "sh"
  start stdin := { stdin }

end TokenShell
