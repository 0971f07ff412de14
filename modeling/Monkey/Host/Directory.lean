import Monkey.Host.Failure

/-!
# The working directory

The working directory holds files and no directories, and is taken for its own parent. A path leads
to the directory itself or to a name in it, which may be the name of a file or free.
-/

namespace Monkey.Host

/-- Files with their contents. -/
structure Directory where
  files : List (String × ByteArray)

/-- What a path leads to: the directory, or a name in it. A slash after the name asks for a
directory of that name, which there is none of. -/
inductive Place
  | directory
  | entry (name : String) (slash : Bool)
deriving DecidableEq, Repr, Inhabited

namespace Directory

/-- No files. -/
def empty : Directory := ⟨[]⟩

/-- The content of the file of a name. -/
def get? (directory : Directory) (name : String) : Option ByteArray :=
  directory.files.lookup name

/-- Follows the components of a path. Empty components and dots stay where they are; nothing can be
reached through a file or a free name, except that slashes may end the path. -/
def follow (directory : Directory) : List String → Except Failure Place
  | [] => .ok .directory
  | component :: rest =>
    if component ∈ ["", ".", ".."] then directory.follow rest
    else if rest.all (· = "") then .ok (.entry component !rest.isEmpty)
    else if (directory.get? component).isSome then .error .notDirectory
    else .error .notFound

/-- What a path leads to. The empty path leads nowhere. -/
def locate (directory : Directory) (path : String) : Except Failure Place :=
  if path.toList.contains '\x00' then .error .nulInName
  else if path = "" then .error .notFound
  else directory.follow (path.splitOn "/")

/-- The content of a file. A name is looked up before a slash after it counts. -/
def read (directory : Directory) (path : String) : Except Failure ByteArray := do
  match ← directory.locate path with
  | .directory => throw .isDirectory
  | .entry name slash =>
    match directory.get? name with
    | none => throw .notFound
    | some content => if slash then throw .notDirectory else return content

/-- The content of a file that holds text. -/
def readText (directory : Directory) (path : String) : Except Failure String :=
  directory.read path >>= decode

/-- The directory with a file in place of any other of its name. -/
def set (directory : Directory) (name : String) (content : ByteArray) : Directory :=
  ⟨(name, content) :: directory.files.filter (·.1 ≠ name)⟩

/-- The directory after a file has been written, new or in place of its former content. A slash
after the name is refused before the name is looked up. -/
def write (directory : Directory) (path : String) (content : ByteArray) :
    Except Failure Directory := do
  match ← directory.locate path with
  | .directory => throw .isDirectory
  | .entry name slash =>
    if slash then throw .isDirectory else return directory.set name content

end Directory

end Monkey.Host
