import KernelGen.Source.Tokenize
import KernelGen.Source.Step
set_option autoImplicit false

/-!
# Source: reading a whole text

A text is read in two stages, and each can refuse it: no token starts somewhere, or a token
is not the one that is needed.  `read` joins the stages.
-/

namespace KernelGen.Source

/-- Why a text is refused. -/
inductive ReadError where
  /-- no token starts here -/
  | stray (text : StrayText)
  /-- another token is needed here -/
  | unexpected (fault : SyntaxFault)
  deriving DecidableEq, Repr, Inhabited

/-- What a text denotes, by what its tokens denote. -/
def read {α : Type} (ofTokens : List Token → Except SyntaxFault α) (text : String) :
    Except ReadError α :=
  match tokenize text with
  | .error e => .error (.stray e)
  | .ok ts =>
    match ofTokens ts with
    | .error e => .error (.unexpected e)
    | .ok a => .ok a

end KernelGen.Source
