import BisayaPlus.Execution
import BisayaPlus.Program.Statement
import BisayaPlus.Token.Source

/-!
From source texts to runs. A text with a lexical or a syntax fault is not run at all. Texts that
are run one after another on one machine share its variables, its input and its output.
-/

namespace BisayaPlus

def Program.ofSource (source : String) : Except Diagnostic Program := do
  let tokens ← Token.ofSource source
  Program.ofTokens tokens

def Action.runSource (budget : Nat) (source : String) : Action Unit :=
  match Program.ofSource source with
  | .ok p => p.exec budget
  | .error d => throw (.fault d)

/-- The output of a source text that is run on a fresh machine. A run that ends early has none. -/
def interpret (budget : Nat) (source : String) (console : Console) : Except Interrupt String :=
  match Action.runSource budget source (.start console) with
  | .ok _ m => .ok m.console.output
  | .error i _ => .error i

end BisayaPlus
