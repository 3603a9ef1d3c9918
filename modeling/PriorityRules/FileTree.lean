/-! # File trees

A file tree holds directories and files under the paths of their names. Paths are written with
slashes and walked from the root: an empty name or a single dot stays where it is, two dots go
back up, and every name but the last must lead to a directory. A name has at most 255 bytes, a
path fewer than 4096, and neither holds a NUL. There may be room for a limited number of bytes only:
a write that needs more leaves the beginning of what it was to store.
-/

namespace PriorityRules

inductive FileFault where
  | notFound
  | isDirectory
  | notDirectory
  | notText
  | nameTooLong
  | illegalPath
  | storageFull
  deriving DecidableEq, Repr

def FileFault.message : FileFault → String
  | .notFound => "No such file or directory (os error 2)"
  | .isDirectory => "Is a directory (os error 21)"
  | .notDirectory => "Not a directory (os error 20)"
  | .notText => "stream did not contain valid UTF-8"
  | .nameTooLong => "File name too long (os error 36)"
  | .illegalPath => "file name contained an unexpected NUL byte"
  | .storageFull => "No space left on device (os error 28)"

inductive FileContent where
  | text (s : String)
  /-- Bytes that are not the encoding of a text. -/
  | binary (bytes : ByteArray)

namespace FileContent

def ofBytes (bytes : ByteArray) : FileContent :=
  match String.fromUTF8? bytes with
  | some s => .text s
  | none => .binary bytes

def toBytes : FileContent → ByteArray
  | text s => s.toUTF8
  | binary bytes => bytes

def size (content : FileContent) : Nat := content.toBytes.size

/-- What is left of a content if no more than `n` bytes are stored. -/
def first (n : Nat) (content : FileContent) : FileContent :=
  if content.size ≤ n then content else ofBytes (content.toBytes.extract 0 n)

def readText : FileContent → Except FileFault String
  | text s => .ok s
  | binary _ => .error .notText

end FileContent

inductive FileNode where
  | directory
  | file (content : FileContent)

def FileNode.size : FileNode → Nat
  | directory => 0
  | file content => content.size

/-- The nodes below the root, each under the names that lead to it. -/
structure FileTree where
  nodes : List (List String × FileNode) := []
  /-- How many more bytes can be stored, if not any number. -/
  room : Option Nat := none

namespace FileTree

/-- The root is a directory that is always there. -/
def node? (t : FileTree) : List String → Option FileNode
  | [] => some .directory
  | place => t.nodes.lookup place

def put (t : FileTree) (place : List String) (node : FileNode) : FileTree :=
  { t with nodes := (place, node) :: t.nodes.filter (·.1 ≠ place) }

def sizeAt (t : FileTree) (place : List String) : Nat := ((t.node? place).map FileNode.size).getD 0

def namesOf (path : String) : Except FileFault (List String) :=
  if '\x00' ∈ path.toList then .error .illegalPath
  else if path = "" then .error .notFound
  else if 4096 ≤ path.utf8ByteSize then .error .nameTooLong
  else .ok (path.splitOn "/")

def enter (place : List String) (name : String) : Except FileFault (List String) :=
  if name = "" || name = "." then .ok place
  else if name = ".." then .ok place.dropLast
  else if 255 < name.utf8ByteSize then .error .nameTooLong
  else .ok (place ++ [name])

/-- Follow names from a directory. The last name need not lead to anything. -/
def walk (t : FileTree) (place : List String) : List String → Except FileFault (List String)
  | [] => .ok place
  | name :: rest => do
    let place ← enter place name
    if rest.isEmpty then return place
    else
      match t.node? place with
      | some .directory => t.walk place rest
      | some (.file _) => .error .notDirectory
      | none => .error .notFound

def locate (t : FileTree) (path : String) : Except FileFault (List String) := do
  t.walk [] (← namesOf path)

def readText (t : FileTree) (path : String) : Except FileFault String := do
  let place ← t.locate path
  match t.node? place with
  | none => .error .notFound
  | some .directory => .error .isDirectory
  | some (.file content) => content.readText

/-- The place where a file is written. It is not that of a directory, nor of what a slash at the end
of the path calls one, and no directory is made on the way. -/
def target (t : FileTree) (path : String) : Except FileFault (List String) := do
  let names ← namesOf path
  let bare := (names.reverse.dropWhile (· = "")).reverse
  let place ← t.walk [] bare
  if names.length ≠ bare.length then .error .isDirectory
  else
    match t.node? place with
    | some .directory => .error .isDirectory
    | _ => return place

/-- What of a content can be stored at a place, where a file that is there makes room for it. -/
def fitting (t : FileTree) (place : List String) (content : FileContent) : FileContent :=
  match t.room with
  | none => content
  | some room => content.first (room + t.sizeAt place)

/-- Write a file anew. First the file is emptied or made, so that what fits of the content is in it
even if the rest does not fit. -/
def write (t : FileTree) (path : String) (content : FileContent) :
    Except FileFault Unit × FileTree :=
  match t.target path with
  | .error fault => (.error fault, t)
  | .ok place =>
    let stored := t.fitting place content
    (if stored.size = content.size then .ok () else .error .storageFull,
      { t.put place (.file stored) with
        room := t.room.map (· + t.sizeAt place - stored.size) })

/-- Follow names from a directory and make those that lead to nothing directories; a file in the
way ends this. -/
def extend (t : FileTree) (place : List String) : List String → FileTree
  | [] => t
  | name :: rest =>
    match enter place name with
    | .error _ => t
    | .ok place =>
      match t.node? place with
      | some .directory => t.extend place rest
      | some (.file _) => t
      | none => (t.put place .directory).extend place rest

def makeDirectory (t : FileTree) (path : String) : FileTree :=
  match namesOf path with
  | .ok names => t.extend [] names
  | .error _ => t

def remove (t : FileTree) (path : String) : FileTree :=
  match t.locate path with
  | .ok place =>
    let (removed, kept) := t.nodes.partition fun entry => place.isPrefixOf entry.1
    ⟨kept, t.room.map fun room => removed.foldl (· + ·.2.size) room⟩
  | .error _ => t

end FileTree

end PriorityRules
