set_option autoImplicit false

/-!
# Command: paths

A path is a text of segments with slashes between them.  The directory a path lies in is found
on the text alone: empty segments and single dots behind the last name do not count, and a
double dot counts as a name.  Joining puts a relative path behind a directory; an absolute path
stands for itself.

A path that is to be followed must be short enough and must not hold the null character; each of
its segments is limited too.  Lengths are counted in bytes.
-/

namespace KernelGen.Path

/-- The pieces of a text between its slashes. -/
def pieces : List Char → List (List Char)
  | [] => [[]]
  | c :: cs =>
    if c = '/' then [] :: pieces cs
    else
      match pieces cs with
      | [] => [[c]]
      | p :: ps => (c :: p) :: ps

/-- Pieces with slashes between them. -/
def unpieces (ps : List (List Char)) : List Char := ['/'].intercalate ps

/-- A piece that names nothing. -/
def isIdle (p : List Char) : Bool := p == [] || p == ['.']

/-- Pieces without those at the end that name nothing. -/
def withoutIdleEnd (ps : List (List Char)) : List (List Char) :=
  (ps.reverse.dropWhile isIdle).reverse

/-- The path starts at the root. -/
def isAbsolute (path : String) : Bool := path.toList.head? == some '/'

/-- The start of a path that is not a name: the slash of the root, or the dot of the directory
that relative paths start at. -/
def anchor : List Char → List Char
  | '/' :: _ => ['/']
  | ['.'] => ['.']
  | '.' :: '/' :: _ => ['.']
  | _ => []

/-- The directory that a path lies in; the root and the empty path lie in none. -/
def parent? (path : String) : Option String :=
  let start := anchor path.toList
  let named := withoutIdleEnd (pieces (path.toList.drop start.length))
  if named.isEmpty then
    if start = ['.'] then some "" else none
  else some (String.ofList (start ++ unpieces (withoutIdleEnd named.dropLast)))

/-- A path behind a directory. -/
def join (directory path : String) : String :=
  if isAbsolute path || directory.isEmpty then path
  else if directory.toList.getLast? == some '/' then directory ++ path
  else directory ++ "/" ++ path

/-- The segments of a path that lead somewhere. -/
def segments (path : String) : List String :=
  ((pieces path.toList).filter fun p => !isIdle p).map String.ofList

/-- The path can only be one of a directory, since it ends in a piece that names nothing. -/
def asksDirectory (path : String) : Bool := ((pieces path.toList).getLast?.map isIdle).getD true

/-! ## Limits -/

/-- The greatest length of a path that can be followed. -/
def lengthLimit : Nat := 4095

/-- The greatest length of a segment. -/
def segmentLimit : Nat := 255

/-- The path holds the null character, which no name can have. -/
def hasNull (path : String) : Bool := path.toList.contains '\x00'

/-- The path is too long to be followed, whatever its segments are. -/
def isTooLong (path : String) : Bool := lengthLimit < path.utf8ByteSize

/-- The segment is longer than the name of a file or directory can be. -/
def isTooLongSegment (segment : String) : Bool := segmentLimit < segment.utf8ByteSize

end KernelGen.Path
