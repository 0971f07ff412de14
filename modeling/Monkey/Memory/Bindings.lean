import Monkey.Value

/-!
# Bindings

The names that one frame binds. Binding a name again replaces its value.
-/

namespace Monkey

/-- Names with their values, in the order of first binding. -/
structure Bindings where
  entries : List (String × Value)
deriving Inhabited

namespace Bindings

/-- No names. -/
def empty : Bindings := ⟨[]⟩

/-- The value of a name. -/
def get? (bindings : Bindings) (name : String) : Option Value :=
  bindings.entries.lookup name

/-- Replaces the value of a name, or adds it at the end. -/
def setEntry (name : String) (value : Value) : List (String × Value) → List (String × Value)
  | [] => [(name, value)]
  | entry :: rest =>
    if entry.1 = name then (name, value) :: rest else entry :: setEntry name value rest

/-- Binds a name. -/
def set (bindings : Bindings) (name : String) (value : Value) : Bindings :=
  ⟨setEntry name value bindings.entries⟩

theorem lookup_setEntry (name name' : String) (value : Value) (entries : List (String × Value)) :
    (setEntry name value entries).lookup name' =
      if name' = name then some value else entries.lookup name' := by
  induction entries with
  | nil => grind [setEntry]
  | cons entry rest ih => grind [setEntry]

/-- Binding a name gives it its value and leaves all others alone. -/
theorem get?_set (bindings : Bindings) (name name' : String) (value : Value) :
    (bindings.set name value).get? name' =
      if name' = name then some value else bindings.get? name' :=
  lookup_setEntry name name' value bindings.entries

end Bindings

end Monkey
