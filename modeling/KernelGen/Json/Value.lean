set_option autoImplicit false

/-!
# JSON: values and faults

A JSON value keeps the members of its objects in the order and number in which they were
written: whether a repeated name is an error is decided by whoever reads the value.  Numbers
keep their text for the same reason.
-/

namespace KernelGen

/-- A JSON value as written. -/
inductive Json where
  | null
  | bool (value : Bool)
  | number (text : String)
  | string (text : String)
  | array (items : List Json)
  | object (members : List (String × Json))
  deriving Inhabited

namespace Json

/-- Why a document is not what was asked for. -/
inductive Fault where
  /-- the bytes are not text -/
  | notText
  /-- the text is not JSON -/
  | malformed
  /-- containers are nested deeper than a document may nest them -/
  | nestedTooDeeply
  /-- a value of another kind was expected -/
  | expected (what : String)
  /-- a fixed form has no member of this name -/
  | unknownMember (name : String)
  /-- a member was given twice -/
  | repeatedMember (name : String)
  /-- a member without a default is missing -/
  | missingMember (name : String)
  /-- a fixed form was written as an array with too many items -/
  | tooManyItems
  deriving DecidableEq, Repr, Inhabited

/-- The words for a fault. -/
def Fault.message : Fault → String
  | .notText => "the document is not UTF-8 text"
  | .malformed => "the document is not JSON"
  | .nestedTooDeeply => "the document is nested too deeply"
  | .expected what => s!"expected {what}"
  | .unknownMember name => s!"unknown member {name}"
  | .repeatedMember name => s!"repeated member {name}"
  | .missingMember name => s!"missing member {name}"
  | .tooManyItems => "too many items"

end Json

end KernelGen
