import Swayam.Lib.FileTree
import Swayam.Text

/-!
# SWAYAM — `std::filesystem`

Paths and files as `write_mutation` of `Moltbook.hpp` uses them. A path is the list
of elements that its iterators give, and `std::filesystem` is given over such lists
as libstdc++ has it. The tree of files, the links, and what the system refuses for
another reason are arbitrary.
-/

namespace Swayam.WriteMutation

open FileTree LexicalPath

/-! ## Paths -/

/-- The elements of a path: an absolute one starts with a slash, and one that ends in a slash has
an empty element at its end. -/
abbrev Path := List Text

def separator : Byte := asciiByte '/'
def dot : Byte := asciiByte '.'

def rootName : Text := [separator]
def dotdot : Text := [dot, dot]

/-- `path::has_filename` -/
def hasFilename (p : Path) : Bool :=
  match p.getLast? with
  | some c => c ≠ [] && c ≠ rootName
  | none => false

/-- `p / name`, for a path of one element or none. -/
def append (p : Path) (name : Text) : Path :=
  if name = rootName then [rootName]
  else if name = [] then (if hasFilename p then p ++ [[]] else p)
  else if p.getLast? = some [] then p.dropLast ++ [name]
  else p ++ [name]

/-- The path without its last element, but with the slash in front of it. -/
def removeFilename (p : Path) : Path :=
  if p.dropLast = [] ∨ p.dropLast = [rootName] then p.dropLast else p.dropLast ++ [[]]

/-- One element in the loop of `lexically_normal`. -/
def normalStep (ret : Path) (name : Text) : Path :=
  if name = dotdot then
    if hasFilename ret then
      if ret.getLast? = some dotdot then append ret name else removeFilename ret
    else if ret = [] then append ret name
    else if ret = [rootName] then ret
    -- it ends in a slash: the element in front of it
    else if ret.dropLast.getLast? = some dotdot then append ret name
    else removeFilename ret.dropLast
  else if name = [dot] then append ret []
  else append ret name

/-- `path::lexically_normal` -/
def lexicallyNormal (p : Path) : Path :=
  if p = [] then []
  else
    let ret := p.foldl normalStep []
    if 2 ≤ ret.length then
      if ret.getLast? = some [] ∧ ret.dropLast.getLast? = some dotdot then ret.dropLast else ret
    else if ret = [] then [[dot]] else ret

/-! ## The file system -/

/-- What a component does in the system, which never sees one with a slash or a zero in it. -/
def meaning (c : Text) : Option Step :=
  if 0 ∈ c ∨ separator ∈ c then none
  else if c = [] ∨ c = [dot] then some .stay
  else if c = dotdot then some .leave
  else some .enter

/-- The calls that can be refused: no permission, a path that is too long, no space. -/
inductive Call
  | stat (p : Path)
  | realpath (p : Path)
  | mkdir (p : Path)
  | open (p : Path)
  deriving DecidableEq, Repr

structure FileSystem where
  tree    : Tree meaning Text
  cwd     : List Text
  refuses : Call → Bool
  inCwd   : tree.nodes cwd = some .dir

namespace FileSystem

def set (fs : FileSystem) (place : List Text) (node : Node Text Text) : FileSystem :=
  { fs with
    tree := fs.tree.set place node
    inCwd := Tree.dir_set fs.inCwd }

/-- The links that are followed for one path. -/
def linkLimit : Nat := 40

end FileSystem

/-- A path as the system sees it: it ends in front of a zero. -/
def cString : Path → Path
  | [] => []
  | c :: cs => if 0 ∈ c then [c.takeWhile (· ≠ 0)] else c :: cString cs

namespace FileSystem

/-- Where a path leads, from the root or from the working directory, which is where the empty path
leads as the parent of a name. -/
def lookup (fs : FileSystem) (p : Path) : Walk Text :=
  if (cString p).head? = some rootName then fs.tree.walk linkLimit [] (cString p).tail
  else fs.tree.walk linkLimit fs.cwd (cString p)

/-- `std::filesystem::status`; it throws when it fails. -/
inductive Status
  | found (place : List Text)
  | notFound
  | failed
  deriving DecidableEq, Repr

def status (fs : FileSystem) (p : Path) : Status :=
  if fs.refuses (.stat p) then .failed
  else
    match fs.lookup p with
    | .found place => .found place
    | .absent _ _ => .notFound
    | .missing => .notFound
    | .loop => .failed

def isDirectory (fs : FileSystem) (place : List Text) : Bool := fs.tree.nodes place = some .dir

/-- `std::filesystem::absolute` -/
def absolute (fs : FileSystem) (p : Path) : Path :=
  if p.head? = some rootName then p else rootName :: (fs.cwd ++ p)

/-- `std::filesystem::canonical`, which is `realpath`; `none` when it throws. -/
def canonical (fs : FileSystem) (p : Path) : Option Path :=
  if fs.refuses (.realpath (fs.absolute p)) then none
  else
    match fs.lookup (fs.absolute p) with
    | .found place => some (rootName :: place)
    | _ => none

/-- The leading elements that exist, and the others. -/
def leading (fs : FileSystem) (result : Path) : Path → Option (Path × Path)
  | [] => some (result, [])
  | c :: cs =>
    match fs.status (append result c) with
    | .failed => none
    | .found _ => fs.leading (append result c) cs
    | .notFound => some (result, c :: cs)

/-- `std::filesystem::weakly_canonical` -/
def weaklyCanonical (fs : FileSystem) (p : Path) : Option Path :=
  match fs.status p with
  | .failed => none
  | .found _ => fs.canonical p
  | .notFound =>
    (fs.leading [] p).bind fun (front, rest) =>
      (if front = [] then some [] else fs.canonical front).map fun result =>
        lexicallyNormal (rest.foldl append result)

/-! ## Directories -/

/-- What `mkdir` can do. -/
inductive Made
  | made (fs : FileSystem)
  | taken
  | failed

/-- `mkdir` -/
def mkdir (fs : FileSystem) (p : Path) : Made :=
  if fs.refuses (.mkdir p) then .failed
  else
    match p.getLast?, fs.lookup p.dropLast with
    | some c, .found place =>
      -- no parent, or no name
      if fs.isDirectory place = false ∨ meaning c ≠ some .enter then .failed
      else if fs.tree.nodes (place ++ [c]) = none then .made (fs.set (place ++ [c]) .dir)
      else .taken
    | _, _ => .failed

/-- `create_directory`; `none` when it fails. -/
def createDirectory (fs : FileSystem) (p : Path) : Option FileSystem :=
  match fs.mkdir p with
  | .made fs' => some fs'
  | .taken =>
    match fs.status p with
    | .found place => if fs.isDirectory place then some fs else none
    | _ => none
  | .failed => none

/-- The directories that have to be made, the first one first; the path above is given by its
elements in reverse. -/
def missing (fs : FileSystem) (stack : List Path) : List Text → Option (List Path)
  | [] => some stack
  | c :: above =>
    match fs.status (c :: above).reverse with
    | .found place => if fs.isDirectory place then some stack else none
    | .failed => some stack
    | .notFound => fs.missing ((c :: above).reverse :: stack) above

/-- The directories of the stack, up to one that fails. -/
def createAll (fs : FileSystem) : List Path → Bool × FileSystem
  | [] => (true, fs)
  | p :: ps =>
    match fs.createDirectory p with
    | none => (false, fs)
    | some fs' => fs'.createAll ps

/-- `create_directories`, of a path without dots; `false` when it throws. -/
def createDirectories (fs : FileSystem) (p : Path) : Bool × FileSystem :=
  match fs.status p with
  | .found place => (fs.isDirectory place, fs)
  | .failed => (false, fs)
  | .notFound =>
    match fs.missing [p] p.dropLast.reverse with
    | none => (false, fs)
    | some stack => fs.createAll stack

/-! ## Files -/

/-- `std::ofstream outfile(p)` and what is written to it: the file at the end of all links is
emptied, or made. `none` when it cannot be opened. -/
def writeFile (fs : FileSystem) (p : Path) (content : Text) : Option FileSystem :=
  if fs.refuses (.open p) then none
  else
    match fs.lookup p with
    | .found place =>
      match fs.tree.nodes place with
      | some (.file _) => some (fs.set place (.file content))
      | _ => none
    -- `open` makes the file where only its name is missing
    | .absent place name => some (fs.set (place ++ [name]) (.file content))
    | _ => none

end FileSystem

end Swayam.WriteMutation
