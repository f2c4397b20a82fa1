import TokenShell.Log.Handler

/-! Colors on a terminal. -/
namespace TokenShell.Terminal

/-- The number of a color in an escape sequence. -/
def number : Log.Color → Bytes
  | .red => "31"
  | .yellow => "33"
  | .green => "32"
  | .cyan => "36"

def colored (c : Log.Color) (text : Bytes) : Bytes :=
  ("\x1b[" : Bytes) ++ number c ++ ("m" : Bytes) ++ text ++ ("\x1b[0m" : Bytes)

def paint : Log.Paint where
  color := colored
  oneLine := by
    intro c text h
    have hopen : Bytes.newline ∉ Bytes.ofString "\x1b[" := by decide
    have hnumber : Bytes.newline ∉ number c := by cases c <;> decide
    have hmark : Bytes.newline ∉ Bytes.ofString "m" := by decide
    have hclose : Bytes.newline ∉ Bytes.ofString "\x1b[0m" := by decide
    simp only [colored, List.mem_append, not_or]
    exact ⟨⟨⟨⟨hopen, hnumber⟩, hmark⟩, h⟩, hclose⟩

end TokenShell.Terminal
