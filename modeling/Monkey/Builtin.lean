/-!
# Builtin functions and registries

A builtin function is known by its name. Which of them a script can reach by name is decided by a
registry, so that a session can be given console and file access or be denied it.
-/

namespace Monkey

/-- The builtin functions: seven that work on values alone, five that reach the console or files,
and further ones that the program around the interpreter supplies. -/
inductive Builtin
  | len | string | first | last | rest | push | add
  | put | get | read | write | clear
  | foreign (name : String)
deriving DecidableEq, Repr, Inhabited

namespace Builtin

/-- The name that scripts call the function by. -/
def name : Builtin → String
  | len => "len"
  | string => "string"
  | first => "first"
  | last => "last"
  | rest => "rest"
  | push => "push"
  | add => "add"
  | put => "put"
  | get => "get"
  | read => "read"
  | write => "write"
  | clear => "clear"
  | foreign name => name

/-- The functions that work on values alone. -/
def core : List Builtin := [len, string, first, last, rest, push, add]

/-- The functions that reach the console or files. -/
def host : List Builtin := [put, get, read, write, clear]

end Builtin

/-- The builtin functions that are visible to a script, at most one of each name. -/
structure Registry where
  entries : List Builtin

namespace Registry

/-- No functions at all. -/
def empty : Registry := ⟨[]⟩

/-- The functions that work on values alone. -/
def standard : Registry := ⟨Builtin.core⟩

/-- Adds a function in place of any other of its name. -/
def register (registry : Registry) (builtin : Builtin) : Registry :=
  ⟨builtin :: registry.entries.filter (·.name ≠ builtin.name)⟩

/-- Adds console and file access. -/
def withHost (registry : Registry) : Registry :=
  Builtin.host.foldl register registry

/-- The function of the given name. -/
def get? (registry : Registry) (name : String) : Option Builtin :=
  registry.entries.find? (·.name = name)

end Registry

end Monkey
