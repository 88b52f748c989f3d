import KernelGen.Command.Path
set_option autoImplicit false

/-!
# Command: file systems

Commands read and write files through three operations, each of which can fail.  A file tree
is a value that has them: the directories and files below a root, and a working directory.
Absolute paths start at the root and relative ones at the working directory.  A double dot leads
to the directory above, and the root is above itself.  There are no links.
-/

namespace KernelGen

/-- Why a file cannot be read or written. -/
inductive IoFault where
  | notFound
  | notADirectory
  | isADirectory
  /-- the path holds the null character -/
  | nullInPath
  /-- the path, or a segment of it, is too long -/
  | tooLong
  /-- the bytes are not text -/
  | notText
  /-- any other reason, in words -/
  | other (reason : String)
  deriving DecidableEq, Repr, Inhabited

/-- The words for a fault. -/
def IoFault.message : IoFault → String
  | .notFound => "no such file or directory"
  | .notADirectory => "not a directory"
  | .isADirectory => "is a directory"
  | .nullInPath => "the path holds the null character"
  | .tooLong => "the path is too long"
  | .notText => "the file is not UTF-8 text"
  | .other reason => reason

/-- Why a path cannot be followed at all, whatever there is. -/
def pathFault? (path : String) : Option IoFault :=
  if Path.hasNull path then some .nullInPath
  else if Path.isTooLong path then some .tooLong
  else none

/-- What commands need of a place that keeps files. -/
class FileSystem (m : Type → Type) where
  /-- The bytes of a file. -/
  read : String → m (Except IoFault ByteArray)
  /-- Makes a directory and those it lies in, as far as they are missing. -/
  createDirectories : String → m (Except IoFault Unit)
  /-- Puts bytes into a file, which is made if it is missing. -/
  write : String → ByteArray → m (Except IoFault Unit)

/-- The directories and files below a root, by their segments from there, and the directory that
relative paths start at. -/
structure FileTree where
  directories : List (List String)
  files : List (List String × ByteArray)
  workingDirectory : List String
  deriving Inhabited

namespace FileTree

/-- The root without anything in it, which relative paths start at, too. -/
def empty : FileTree := ⟨[], [], []⟩

/-- There is a directory at a place; the root is one. -/
def isDirectory (t : FileTree) (place : List String) : Bool :=
  place.isEmpty || t.directories.contains place

/-- Where a path starts. -/
def start (t : FileTree) (path : String) : List String :=
  if Path.isAbsolute path then [] else t.workingDirectory

/-- What is at a place of the tree. -/
inductive Place where
  | directory (segments : List String)
  | file (segments : List String) (bytes : ByteArray)
  /-- Nothing, in a directory that exists. -/
  | vacant (segments : List String)
  deriving Inhabited

/-- The place that segments lead to from a directory. -/
def walk (t : FileTree) : List String → List String → Except IoFault Place
  | here, [] => .ok (.directory here)
  | here, s :: more =>
    if s = ".." then walk t here.dropLast more
    else if Path.isTooLongSegment s then .error .tooLong
    else
      let there := here ++ [s]
      if t.directories.contains there then walk t there more
      else
        match t.files.lookup there with
        | some bytes => if more.isEmpty then .ok (.file there bytes) else .error .notADirectory
        | none => if more.isEmpty then .ok (.vacant there) else .error .notFound

/-- The place of a path. -/
def locate (t : FileTree) (path : String) : Except IoFault Place :=
  if let some e := pathFault? path then .error e
  else if path.isEmpty || !t.isDirectory (t.start path) then .error .notFound
  else do
    match ← t.walk (t.start path) (Path.segments path) with
    | .directory segments => return .directory segments
    | .file segments bytes =>
      if Path.asksDirectory path then throw .notADirectory else return .file segments bytes
    | .vacant segments =>
      if Path.asksDirectory path then throw .notFound else return .vacant segments

/-- The bytes of a file. -/
def read (t : FileTree) (path : String) : Except IoFault ByteArray := do
  match ← t.locate path with
  | .file _ bytes => return bytes
  | .directory _ => throw .isADirectory
  | .vacant _ => throw .notFound

/-- Makes the directories that segments lead through from a directory. -/
def createAlong (t : FileTree) : List String → List String → Except IoFault Unit × FileTree
  | _, [] => (.ok (), t)
  | here, s :: more =>
    if s = ".." then createAlong t here.dropLast more
    else if Path.isTooLongSegment s then (.error .tooLong, t)
    else
      let there := here ++ [s]
      if t.directories.contains there then createAlong t there more
      else if (t.files.lookup there).isSome then (.error .notADirectory, t)
      else createAlong { t with directories := t.directories ++ [there] } there more

/-- Makes a directory and those it lies in, as far as they are missing. -/
def createDirectories (t : FileTree) (path : String) : Except IoFault Unit × FileTree :=
  let segments := Path.segments path
  if let some e := pathFault? path then (.error e, t)
  else if segments.isEmpty then (.ok (), t)
  else if !t.isDirectory (t.start path) then (.error .notFound, t)
  else t.createAlong (t.start path) segments

/-- Puts bytes into a file, which is made if it is missing. -/
def write (t : FileTree) (path : String) (bytes : ByteArray) : Except IoFault Unit × FileTree :=
  match t.locate path with
  | .error e => (.error e, t)
  | .ok (.directory _) => (.error .isADirectory, t)
  | .ok (.file segments _) | .ok (.vacant segments) =>
    (.ok (), { t with files := t.files.filter (fun f => f.1 != segments) ++ [(segments, bytes)] })

instance : FileSystem (StateM FileTree) where
  read path := fun t => (t.read path, t)
  createDirectories path := fun t => t.createDirectories path
  write path bytes := fun t => t.write path bytes

end FileTree

end KernelGen
