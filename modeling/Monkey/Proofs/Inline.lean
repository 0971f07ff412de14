import Monkey.Builtin.Call
import Monkey.Operator

/-! # Values with arrays inline

Arrays without identity: an array is the list of its elements, in place, and there is no memory that
it lives in. Functions come with the frame that they were created in, since frames are shared by
reference all the same. Nothing can change an array here, so there is no `add`.
-/

namespace Monkey

/-- A value whose arrays are inline. -/
inductive Inline
  | integer (value : Int64)
  | float (value : Float)
  | boolean (value : Bool)
  | string (value : String)
  | array (elements : List Inline)
  | null
  | function (function : Function)
  | builtin (builtin : Builtin)
  | returned (value : Inline)
  | error (message : String)
deriving Inhabited

namespace Inline

def kind : Inline → Value.Kind
  | integer _ => .integer
  | float _ => .float
  | boolean _ => .boolean
  | string _ => .string
  | array _ => .array
  | null => .null
  | function _ => .function
  | builtin _ => .builtin
  | returned _ => .returned
  | error _ => .error

def isAbrupt : Inline → Bool
  | returned _ | error _ => true
  | _ => false

def isTruthy : Inline → Bool
  | boolean b => b
  | integer n => n != 0
  | _ => true

def unwrapReturn : Inline → Inline
  | returned value => value
  | value => value

mutual

/-- The text of a value. There is always one, since no array can contain itself. -/
def text : Inline → String
  | integer n => Number.integerText n
  | float x => Number.floatText x
  | boolean b => if b then "true" else "false"
  | string s => s
  | array elements => "[" ++ elementsText elements ++ "]"
  | null => "null"
  | function f => "fn(" ++ ", ".intercalate f.params ++ ") " ++ f.body.render
  | builtin _ => "builtin function"
  | returned value => value.text
  | error message => "Error: " ++ message

def elementsText : List Inline → String
  | [] => ""
  | [last] => last.text
  | first :: rest => first.text ++ ", " ++ elementsText rest

end

mutual

/-- Forgets the frames of functions. -/
def unfolded : Inline → Unfolded
  | integer n => .integer n
  | float x => .float x
  | boolean b => .boolean b
  | string s => .string s
  | array elements => .array (unfoldedAll elements)
  | null => .null
  | function f => .function f.params f.body
  | builtin b => .builtin b.name
  | returned value => .returned value.unfolded
  | error message => .error message

def unfoldedAll : List Inline → List Unfolded
  | [] => []
  | first :: rest => first.unfolded :: unfoldedAll rest

end

theorem unfoldedAll_eq (values : List Inline) : unfoldedAll values = values.map unfolded := by
  induction values with
  | nil => rfl
  | cons first rest ih => rw [unfoldedAll, ih, List.map_cons]

mutual

theorem text?_unfolded (value : Inline) : value.unfolded.text? = some value.text := by
  cases value with
  | array elements =>
      rw [unfolded, Unfolded.text?, elementsText?_unfoldedAll elements]
      rfl
  | returned value => exact text?_unfolded value
  | _ => rfl

theorem elementsText?_unfoldedAll (values : List Inline) :
    Unfolded.elementsText? (unfoldedAll values) = some (elementsText values) := by
  match values with
  | [] => rfl
  | [last] => exact text?_unfolded last
  | first :: second :: rest =>
      rw [unfoldedAll, unfoldedAll, Unfolded.elementsText?, text?_unfolded first, ← unfoldedAll,
        elementsText?_unfoldedAll (second :: rest)]
      · rfl
      · simp

end

/-! ## Operators -/

/-- The error value of a fault. -/
def fault (f : Fault) : Inline := .error f.message

/-- A plain value. -/
def ofPlain : Value → Inline
  | .integer n => .integer n
  | .float x => .float x
  | .boolean b => .boolean b
  | .string s => .string s
  | .error message => .error message
  | _ => .null

def unary (op : UnaryOp) (operand : Inline) : Inline :=
  match op, operand with
  | .not, .boolean b => .boolean !b
  | .negate, .integer n => ofPlain (.ofExcept (checked (-n.toInt)))
  | .negate, .float x => .float (-x)
  | _, _ => fault (.unaryOperand op operand.kind)

def binary (op : BinaryOp) (left right : Inline) : Inline :=
  let result := match left, right with
    | .integer a, .integer b => op.onIntegers? a.toInt b.toInt
    | .float x, .float y => (op.onFloats? x y).map .ok
    | .boolean a, .boolean b => (op.onBooleans? a b).map .ok
    | .string a, .string b => (op.onStrings? a b).map .ok
    | _, _ => none
  match result with
  | some result => ofPlain (.ofExcept result)
  | none => fault (.binaryOperands op left.kind right.kind)

/-- The element of an array at an integer index. -/
def index (collection index : Inline) : Inline :=
  match collection, index with
  | .array elements, .integer i =>
    match if 0 ≤ i.toInt then elements[i.toInt.toNat]? else none with
    | some value => value
    | none => fault (.outOfBounds i elements.length)
  | _, _ => fault (.notIndexable collection.kind index.kind)

/-! ## Builtin functions -/

/-- The value of a function on the array that an argument must be. -/
def onArray (function : String) (f : List Inline → Inline) : Inline → Inline
  | .array elements => f elements
  | value => fault (.argumentType function .array value.kind)

def len : Inline → Inline
  | .string text => .integer (.ofNat text.length)
  | .array elements => .integer (.ofNat elements.length)
  | value => fault (.noLength value.kind)

/-- Calls a builtin function. `add` and the functions that reach the console or files have no
answer. -/
def call : Builtin → List Inline → Option Inline
  | .add, _ | .put, _ | .get, _ | .read, _ | .write, _ | .clear, _ | .foreign _, _ => none
  | .len, [value] => some value.len
  | .string, [value] => some (.string value.text)
  | .first, [value] => some (value.onArray "first" fun elements => elements.head?.getD .null)
  | .last, [value] => some (value.onArray "last" fun elements => elements.getLast?.getD .null)
  | .rest, [value] =>
    some (value.onArray "rest" fun elements =>
      if elements.isEmpty then .null else .array elements.tail)
  | .push, [collection, value] =>
    some (collection.onArray "push" fun elements => .array (elements ++ [value]))
  | b, args => some (fault (.argumentCount b.arity args.length))

/-! ## Scopes -/

/-- What the names of one frame are bound to, and the frame around it. -/
structure Scope where
  outer : Option FrameRef
  value? : String → Option Inline

/-- All frames created so far. -/
abbrev Scopes := Array Scope

namespace Scopes

/-- Creates a frame without bindings. -/
def newFrame (outer : Option FrameRef) (scopes : Scopes) : FrameRef × Scopes :=
  (⟨scopes.size⟩, scopes.push ⟨outer, fun _ => none⟩)

/-- The scopes of a new session: a frame without bindings. -/
def initial : Scopes := (newFrame none #[]).2

/-- Binds a name in a frame. -/
def bind (frame : FrameRef) (name : String) (value : Inline) (scopes : Scopes) : Scopes :=
  scopes.modify frame.index fun scope =>
    { scope with value? := fun other => if other = name then some value else scope.value? other }

def lookupWithin (scopes : Scopes) (name : String) : Nat → FrameRef → Option Inline
  | 0, _ => none
  | count + 1, frame => do
    let scope ← scopes[frame.index]?
    match scope.value? name with
    | some value => some value
    | none => scopes.lookupWithin name count (← scope.outer)

/-- The value of a name in a frame or in the nearest frame around it. -/
def lookup? (scopes : Scopes) (frame : FrameRef) (name : String) : Option Inline :=
  scopes.lookupWithin name (frame.index + 1) frame

/-- The meaning of a name: bindings come before the standard builtin functions. -/
def resolve (scopes : Scopes) (frame : FrameRef) (name : String) : Inline :=
  match scopes.lookup? frame name with
  | some value => value
  | none =>
    match Registry.standard.get? name with
    | some b => .builtin b
    | none => fault (.unbound name)

end Scopes

end Inline

end Monkey
