/-! # Files

A tree of directories and files, with a current directory from which relative paths start. Files and
directories are nodes of their own, so that an open file goes on existing when its name is removed
or given to another file. Every operation on a path either succeeds or names its fault. -/

namespace LuaEmbed

/-- Why an operation on a file failed. -/
inductive FileFault where
  | notFound
  | notDirectory
  | isDirectory
  | notEmpty
  | busy
  | invalid
  | badDescriptor
  | nameTooLong
  | nulInName
  | notReadable
  | notWritable
  | invalidText
  /-- A fault of a stream that the host supplies, with its text. -/
  | other (text : String)
deriving DecidableEq, Repr

/-- The text of a fault without the number that a system may add to it in parentheses. -/
def withoutErrorNumber (text : String) : String := (text.splitOn " (os error").headD ""

/-- The text of a fault. -/
def FileFault.message : FileFault → String
  | .notFound => "No such file or directory"
  | .notDirectory => "Not a directory"
  | .isDirectory => "Is a directory"
  | .notEmpty => "Directory not empty"
  | .busy => "Device or resource busy"
  | .invalid => "Invalid argument"
  | .badDescriptor => "Bad file descriptor"
  | .nameTooLong => "File name too long"
  | .nulInName => "file name contained an unexpected NUL byte"
  | .notReadable => "file not readable"
  | .notWritable => "file not writable"
  | .invalidText => "stream did not contain valid UTF-8"
  | .other text => withoutErrorNumber text

/-- A place in the array of nodes. -/
abbrev NodeId := Nat

/-- A file with its content, or a directory with its parent and its entries. -/
inductive Node where
  | file (content : ByteArray)
  | directory (parent : NodeId) (entries : List (String × NodeId))

/-- A tree of files. -/
structure FileSystem where
  nodes : Array Node
  root : NodeId
  current : NodeId

namespace FileSystem

/-- A root with a directory for temporary files and an empty current directory. -/
def initial : FileSystem where
  nodes := #[.directory 0 [("tmp", 1), ("work", 2)], .directory 0 [], .directory 0 []]
  root := 0
  current := 2

instance : Inhabited FileSystem := ⟨initial⟩

/-- The entries of a directory. -/
def entries? (fs : FileSystem) (n : NodeId) : Option (List (String × NodeId)) :=
  match fs.nodes[n]? with
  | some (.directory _ es) => some es
  | _ => none

/-- The node is a directory. -/
def isDirectory (fs : FileSystem) (n : NodeId) : Bool := (fs.entries? n).isSome

/-- The content of a file. -/
def content? (fs : FileSystem) (n : NodeId) : Option ByteArray :=
  match fs.nodes[n]? with
  | some (.file content) => some content
  | _ => none

/-- Change the entries of a directory. -/
def modifyEntries (fs : FileSystem) (n : NodeId)
    (f : List (String × NodeId) → List (String × NodeId)) : FileSystem :=
  { fs with
    nodes := fs.nodes.modify n fun
      | .directory parent es => .directory parent (f es)
      | .file content => .file content }

/-- Give a name in a directory to a node, in place of the node that had it. -/
def link (fs : FileSystem) (dir : NodeId) (name : String) (n : NodeId) : FileSystem :=
  fs.modifyEntries dir fun es => es.filter (·.1 != name) ++ [(name, n)]

/-- Remove a name from a directory. -/
def unlink (fs : FileSystem) (dir : NodeId) (name : String) : FileSystem :=
  fs.modifyEntries dir fun es => es.filter (·.1 != name)

/-- Add a node under a name. -/
def create (fs : FileSystem) (dir : NodeId) (name : String) (node : Node) : NodeId × FileSystem :=
  let n := fs.nodes.size
  (n, { fs with nodes := fs.nodes.push node }.link dir name n)

/-! ## Paths -/

/-- The longest name of an entry, in bytes. -/
def maxName : Nat := 255

/-- The longest path, in bytes. -/
def maxPath : Nat := 4095

/-- A text that can be given as a path: no character of it is NUL. -/
def checkText (path : String) : Except FileFault Unit :=
  if path.contains '\x00' then .error .nulInName else .ok ()

/-- The last name of a path, seen from the directory before it. -/
inductive LastName where
  /-- A path of separators alone: the directory before it is the root. -/
  | root
  /-- That directory itself. -/
  | here
  /-- The directory above it. -/
  | above
  | entry (name : String)
deriving DecidableEq, Repr

/-- Where the names of a path but the last lead, and the last. What it stands for has not been
looked up. -/
structure Approach where
  dir : NodeId
  last : LastName
  /-- The path ends in a separator. -/
  asDirectory : Bool

/-- The entry of a directory under a name. -/
def entry? (fs : FileSystem) (dir : NodeId) (name : String) : Except FileFault (Option NodeId) :=
  match fs.entries? dir with
  | some es => if maxName < name.utf8ByteSize then .error .nameTooLong else .ok (es.lookup name)
  | none => .error .notDirectory

/-- The directory above a directory; the root is above itself. -/
def above (fs : FileSystem) (dir : NodeId) : NodeId :=
  match fs.nodes[dir]? with
  | some (.directory parent _) => parent
  | _ => dir

/-- A name of a path. -/
def LastName.ofName (name : String) : LastName :=
  if name == "." then .here else if name == ".." then .above else .entry name

/-- What a last name stands for in a directory. -/
def resolve (fs : FileSystem) (dir : NodeId) : LastName → Except FileFault (Option NodeId)
  | .root | .here => .ok (some dir)
  | .above => .ok (some (fs.above dir))
  | .entry name => fs.entry? dir name

/-- Follow all names but the last from a directory. Each of them leads to a directory. -/
def follow (fs : FileSystem) (asDirectory : Bool) (dir : NodeId) :
    List String → Except FileFault Approach
  | [] => .ok ⟨dir, .root, asDirectory⟩
  | [name] => .ok ⟨dir, LastName.ofName name, asDirectory⟩
  | name :: names => do
    match ← fs.resolve dir (LastName.ofName name) with
    | some n => if fs.isDirectory n then fs.follow asDirectory n names else .error .notDirectory
    | none => .error .notFound

/-- Follow a path up to its last name. -/
def approach (fs : FileSystem) (path : String) : Except FileFault Approach :=
  if path.isEmpty then .error .notFound
  else if maxPath < path.utf8ByteSize then .error .nameTooLong
  else
    fs.follow (path.endsWith "/") (if path.startsWith "/" then fs.root else fs.current)
      ((path.splitOn "/").filter (!·.isEmpty))

/-- What an approach leads to, if it exists. -/
def arrive (fs : FileSystem) (a : Approach) : Except FileFault (Option NodeId) :=
  fs.resolve a.dir a.last

/-- The node that a path leads to. A path that ends in a separator leads to no file. -/
def find (fs : FileSystem) (path : String) : Except FileFault NodeId := do
  checkText path
  let a ← fs.approach path
  match ← fs.arrive a with
  | some n => if a.asDirectory && !fs.isDirectory n then .error .notDirectory else return n
  | none => .error .notFound

/-- The path leads to a file. -/
def isFile (fs : FileSystem) (path : String) : Bool :=
  match fs.find path with
  | .ok n => (fs.content? n).isSome
  | .error _ => false

/-- The content of the file that a path leads to. -/
def readFile (fs : FileSystem) (path : String) : Except FileFault ByteArray := do
  let n ← fs.find path
  match fs.content? n with
  | some content => return content
  | none => .error .isDirectory

/-! ## Opening and writing -/

/-- What a file is opened for. -/
structure OpenMode where
  read : Bool
  write : Bool
  append : Bool
  create : Bool
  truncate : Bool
deriving DecidableEq, Repr

/-- Replace the content of a file. -/
def setContent (fs : FileSystem) (n : NodeId) (content : ByteArray) : FileSystem :=
  { fs with nodes := fs.nodes.modify n fun _ => .file content }

/-- The node of a path to be opened, which is created or emptied where the mode says so. A directory
can be opened, but not for writing, and a path that ends in a separator creates nothing. -/
def openNode (fs : FileSystem) (path : String) (mode : OpenMode) :
    Except FileFault (NodeId × FileSystem) := do
  checkText path
  let a ← fs.approach path
  if mode.create && a.asDirectory then .error .isDirectory
  match ← fs.arrive a with
  | some n =>
    if fs.isDirectory n then
      if mode.write || mode.append then .error .isDirectory else return (n, fs)
    else if a.asDirectory then .error .notDirectory
    else return (n, if mode.truncate then fs.setContent n ByteArray.empty else fs)
  | none =>
    match mode.create, a.last with
    | true, .entry name => return fs.create a.dir name (.file ByteArray.empty)
    | _, _ => .error .notFound

/-- A content with bytes written over it from an offset on; a gap is filled with zeros. -/
def overwrite (content : ByteArray) (offset : Nat) (bytes : ByteArray) : ByteArray :=
  if offset == content.size then content ++ bytes
  else if content.size < offset then
    content ++ ⟨Array.replicate (offset - content.size) 0⟩ ++ bytes
  else
    content.extract 0 offset ++ bytes ++ content.extract (offset + bytes.size) content.size

/-- Write bytes into a file at an offset. -/
def write (fs : FileSystem) (n : NodeId) (offset : Nat) (bytes : ByteArray) : FileSystem :=
  { fs with
    nodes := fs.nodes.modify n fun
      | .file content => .file (overwrite content offset bytes)
      | node => node }

/-! ## Removing and renaming -/

/-- Remove a file or an empty directory. A directory is removed by its name alone. -/
def remove (fs : FileSystem) (path : String) : Except FileFault FileSystem := do
  checkText path
  let a ← fs.approach path
  match ← fs.arrive a with
  | none => .error .notFound
  | some n =>
    match fs.entries? n, a.last with
    | none, .entry name =>
      if a.asDirectory then .error .notDirectory else return fs.unlink a.dir name
    | some [], .entry name => return fs.unlink a.dir name
    | some _, .entry _ | _, .above => .error .notEmpty
    | _, .here => .error .invalid
    | _, .root => .error .busy

/-- The directory lies at or below another one; at most `fuel` steps up are taken. -/
def isBelow (fs : FileSystem) (top : NodeId) : Nat → NodeId → Bool
  | 0, n => n == top
  | fuel + 1, n =>
    n == top ||
      match fs.nodes[n]? with
      | some (.directory parent _) => parent != n && fs.isBelow top fuel parent
      | _ => false

/-- Set the parent of a directory. -/
def setParent (fs : FileSystem) (n parent : NodeId) : FileSystem :=
  { fs with
    nodes := fs.nodes.modify n fun
      | .directory _ es => .directory parent es
      | node => node }

/-- Give the entry `n` of a name in one directory to a name in another one. -/
def move (fs : FileSystem) (oldDir : NodeId) (oldName : String) (newDir : NodeId)
    (newName : String) (n : NodeId) : FileSystem :=
  ((fs.unlink oldDir oldName).link newDir newName n).setParent n newDir

/-- A file or directory may take the place of a node: both are of one sort, and a directory there is
empty. -/
def checkReplace (fs : FileSystem) (n m : NodeId) : Except FileFault Unit :=
  match fs.isDirectory n, fs.entries? m with
  | true, none => .error .notDirectory
  | true, some (_ :: _) => .error .notEmpty
  | false, some _ => .error .isDirectory
  | _, _ => .ok ()

/-- Give a file or directory another path. Both paths are followed before either of the last names
is looked up. A directory does not move below itself, and nothing takes the place of a directory
that it lies below. -/
def rename (fs : FileSystem) (source target : String) : Except FileFault FileSystem := do
  checkText source
  checkText target
  let old ← fs.approach source
  let new ← fs.approach target
  match old.last, new.last with
  | .entry oldName, .entry newName =>
    match ← fs.entry? old.dir oldName with
    | none => .error .notFound
    | some n =>
      let replaced ← fs.entry? new.dir newName
      if !fs.isDirectory n && (old.asDirectory || new.asDirectory) then .error .notDirectory
      if fs.isBelow n fs.nodes.size new.dir then .error .invalid
      match replaced with
      | none => return fs.move old.dir oldName new.dir newName n
      | some m =>
        if fs.isBelow m fs.nodes.size old.dir then .error .notEmpty
        if m == n then return fs
        fs.checkReplace n m
        return fs.move old.dir oldName new.dir newName n
  | _, _ => .error .busy

/-! ## Whole trees -/

/-- Put a file at a path of names below a directory, with the directories it needs; no content makes
a directory. -/
def plant (fs : FileSystem) (dir : NodeId) (content : Option ByteArray) :
    List String → FileSystem
  | [] => fs
  | [name] =>
    match content with
    | some bytes => (fs.create dir name (.file bytes)).2
    | none =>
      match (fs.entries? dir).bind (·.lookup name) with
      | some _ => fs
      | none => (fs.create dir name (.directory dir [])).2
  | name :: names =>
    match (fs.entries? dir).bind (·.lookup name) with
    | some n => fs.plant n content names
    | none =>
      let (n, fs) := fs.create dir name (.directory dir [])
      fs.plant n content names

/-- Put a file at a path below the current directory; a path that ends in a separator makes a
directory. -/
def add (fs : FileSystem) (path : String) (bytes : ByteArray) : FileSystem :=
  fs.plant fs.current (if path.endsWith "/" then none else some bytes)
    ((path.splitOn "/").filter (!·.isEmpty))

/-- The files and directories below a directory with their paths, to a depth; directories end in a
separator and have no content. -/
def below (fs : FileSystem) (lead : String) : Nat → NodeId → List (String × Option ByteArray)
  | 0, _ => []
  | depth + 1, n =>
    ((fs.entries? n).getD []).flatMap fun (name, m) =>
      match fs.nodes[m]? with
      | some (.file content) => [(lead ++ name, some content)]
      | some (.directory ..) =>
        let path := lead ++ name ++ "/"
        (path, none) :: fs.below path depth m
      | none => []

/-- The files and directories below the current directory. -/
def listing (fs : FileSystem) : List (String × Option ByteArray) :=
  fs.below "" fs.nodes.size fs.current

end FileSystem

end LuaEmbed
