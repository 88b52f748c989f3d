import KernelGen.Json.Symbol
set_option autoImplicit false

/-!
# JSON: reading a document

A document is read symbol by symbol.  The containers that are still open form a stack, and a
state says what may come next; reading is a fold of `step` over the symbols, so it ends with
them.  A document holds exactly one value.
-/

namespace KernelGen.Json

/-- A container that is still open, with what it holds so far, the latest first. -/
inductive OpenContainer where
  | array (done : List Json)
  /-- The value of `name` is being read. -/
  | object (done : List (String × Json)) (name : String)
  deriving Inhabited

/-- What has been read, and what may come next. -/
inductive ReaderState where
  /-- a value has to come -/
  | value (stack : List OpenContainer)
  /-- an array was opened: its first item, or its end -/
  | firstItem (stack : List OpenContainer)
  /-- an object was opened: its first name, or its end -/
  | firstName (stack : List OpenContainer)
  /-- another member of an object has to come -/
  | nextName (done : List (String × Json)) (stack : List OpenContainer)
  /-- the name of a member was read -/
  | colon (done : List (String × Json)) (name : String) (stack : List OpenContainer)
  /-- a value was read in full -/
  | complete (value : Json) (stack : List OpenContainer)
  deriving Inhabited

/-- A document may have this many containers open at once. -/
def nestingLimit : Nat := 127

/-- The state after the first symbol of a value inside the containers of `stack`. -/
def begin (stack : List OpenContainer) : Symbol → Except Fault ReaderState
  | .null => .ok (.complete .null stack)
  | .bool b => .ok (.complete (.bool b) stack)
  | .number t => .ok (.complete (.number t) stack)
  | .string t => .ok (.complete (.string t) stack)
  | .openArray =>
    if stack.length < nestingLimit then .ok (.firstItem stack) else .error .nestedTooDeeply
  | .openObject =>
    if stack.length < nestingLimit then .ok (.firstName stack) else .error .nestedTooDeeply
  | _ => .error .malformed

/-- The state after one more symbol. -/
def step : ReaderState → Symbol → Except Fault ReaderState
  | .value stack, s => begin stack s
  | .firstItem stack, .closeArray => .ok (.complete (.array []) stack)
  | .firstItem stack, s => begin (.array [] :: stack) s
  | .firstName stack, .closeObject => .ok (.complete (.object []) stack)
  | .firstName stack, .string name => .ok (.colon [] name stack)
  | .nextName done stack, .string name => .ok (.colon done name stack)
  | .colon done name stack, .colon => .ok (.value (.object done name :: stack))
  | .complete v (.array done :: stack), .comma => .ok (.value (.array (v :: done) :: stack))
  | .complete v (.array done :: stack), .closeArray =>
    .ok (.complete (.array (v :: done).reverse) stack)
  | .complete v (.object done name :: stack), .comma => .ok (.nextName ((name, v) :: done) stack)
  | .complete v (.object done name :: stack), .closeObject =>
    .ok (.complete (.object ((name, v) :: done).reverse) stack)
  | _, _ => .error .malformed

/-- The value of a document given as its symbols. -/
def ofSymbols (ss : List Symbol) : Except Fault Json := do
  match ← ss.foldlM step (.value []) with
  | .complete v [] => return v
  | _ => throw .malformed

/-- The value of a document. -/
def parse (text : String) : Except Fault Json :=
  match symbols text.toList with
  | some ss => ofSymbols ss
  | none => .error .malformed

/-- The value of a document given as bytes. -/
def parseBytes (bytes : ByteArray) : Except Fault Json :=
  match String.fromUTF8? bytes with
  | some text => parse text
  | none => .error .notText

end KernelGen.Json
