import ScriptVm.Code.Error
import ScriptVm.Collector.NodeId

/-! Faults: what a value operation or a running program can fail with. A fault is its cause; the kind
and the wording are functions of it. -/

namespace ScriptVm

inductive FaultKind where
  | typeCast
  | type
  | divideByZero
  | unspecified
  | misc
deriving DecidableEq, Repr

def FaultKind.text : FaultKind → String
  | .typeCast => "type-cast error"
  | .type => "type error"
  | .divideByZero => "divide-by-zero error"
  | .unspecified => "unspecified legacy behavior"
  | .misc => "error"

def FaultKind.name : FaultKind → String
  | .typeCast => "TypeCast"
  | .type => "Type"
  | .divideByZero => "DivideByZero"
  | .unspecified => "UnspecifiedLegacyBehavior"
  | .misc => "Misc"

def FaultKind.ofName? (name : String) : Option FaultKind :=
  [typeCast, type, divideByZero, unspecified, misc].find? (·.name == name)

/-- Why stored bytes are no value. -/
inductive StreamError where
  | shortRead
  | truncatedString
  | invalidText
  | canaryMismatch (expected found : UInt64)
  | tooDeep
  | unknownTag (tag : UInt8)
deriving DecidableEq, Repr

def StreamError.message : StreamError → String
  | .shortRead => "Value stream error: failed to fill whole buffer"
  | .truncatedString => "Truncated string in value stream"
  | .invalidText => "Invalid UTF-8 in serialized string"
  | .canaryMismatch expected found =>
    s!"Array canary mismatch: expected 0x{Hex.padded 16 expected.toNat}, " ++
      s!"found 0x{Hex.padded 16 found.toNat}"
  | .tooDeep => "Serialized array nesting too deep"
  | .unknownTag tag => s!"Unknown value tag {tag.toNat}"

inductive Fault where
  -- casts and operators
  | incompatible (source target : String)
  | outOfRange (source target : String)
  | badOperands (verb : String)
  | unordered
  | divideByZero
  /-- A case whose meaning was never settled. -/
  | undecided (what : String)
  | undefinedCondition
  | negativeShift
  -- arrays and stored values
  | notAnArray
  | outOfBounds (row col height width : Nat)
  | stream (error : StreamError)
  -- code and collector
  | code (error : CodeError)
  | edges (error : EdgeMismatch)
  -- operand stack and calls
  | underflow
  | noLocal (index : UInt32)
  | noArgument (index count : Nat)
  | corruptInstance
  | notAnInstance (kind : String)
  | invalidIndex (row col : Int32)
  | noIterator (index : Nat)
  | nestedSuspension
  | endOfUnit
  | noCaller
  | tooDeep
  | busySuspended
  | notSuspended
  | argumentCount (target : String) (expected : UInt8) (given : Nat)
  -- natives
  | noNative (index : UInt32)
  | nativeArity (name : String) (arity given : Int8)
  | nativeArguments (arity : Int8) (given : Nat)
  -- the host's instances and variables
  | noInstance
  | missingInstance (id : UInt32)
  | noInstances
  | unsetVariable (id : UInt32)
  | globalBuiltin (id : UInt32)
  | unknownBuiltin (id : UInt32)
  | builtinNotArray (id : UInt32)
  /-- Raised by the host, a native or a debugger. -/
  | raised (kind : FaultKind) (message : String)
  /-- A machine word overflowed or an access missed. Nobody can deal with this one. -/
  | crash
deriving DecidableEq, Repr

namespace Fault

def kind : Fault → FaultKind
  | .incompatible .. | .outOfRange .. => .typeCast
  | .badOperands .. | .unordered => .type
  | .divideByZero => .divideByZero
  | .undecided .. => .unspecified
  | .raised kind _ => kind
  | _ => .misc

def message : Fault → String
  | .incompatible source target => s!"Error casting type {source} to {target}"
  | .outOfRange source target => s!"Range error converting {source} to {target}"
  | .badOperands verb => s!"Cannot {verb} types"
  | .unordered => "Cannot order non-numerical types"
  | .divideByZero => "Division by zero"
  | .undecided what => what
  | .undefinedCondition => "Condition on undefined variable."
  | .negativeShift => "negative shift"
  | .notAnArray => "Indexing variable which is not an array."
  | .outOfBounds row col height width =>
    s!"Array index out of bounds: {row},{col} not in bounds {height}, {width}"
  | .stream error => error.message
  | .code error => error.message
  | .edges error => error.message
  | .underflow => "Operand stack underflow"
  | .noLocal index => s!"Local {index.toNat} out of range"
  | .noArgument index count => s!"Argument {index} requested but only {count} passed"
  | .corruptInstance => "Corrupt saved instance"
  | .notAnInstance kind => s!"Expected a saved instance, found {kind}"
  | .invalidIndex row col => s!"Invalid array index {row.toInt},{col.toInt}"
  | .noIterator index => s!"No with-iterator at index {index}"
  | .nestedSuspension => "Cannot suspend inside a nested call"
  | .endOfUnit => "Execution reached end of unit"
  | .noCaller => "Return without a caller"
  | .tooDeep => "Maximum call depth exceeded"
  | .busySuspended => "Cannot start a call while execution is suspended"
  | .notSuspended => "No suspended execution to resume"
  | .argumentCount target expected given =>
    s!"{target} takes {expected.toNat} arguments but was called with {given}"
  | .noNative index => s!"No native function with index {index.toNat}"
  | .nativeArity name arity given =>
    s!"Native {name} has arity {arity.toInt} but was called with {given.toInt}"
  | .nativeArguments arity given => s!"Native of arity {arity.toInt} given {given} arguments"
  | .noInstance => "Attempted to load variable from non-existent instance."
  | .missingInstance id => s!"Instance {id.toNat} does not exist"
  | .noInstances => "No instances to read value from."
  | .unsetVariable id => s!"Variable {id.toNat} is not set"
  | .globalBuiltin id => s!"Global has no built-in variable {id.toNat}"
  | .unknownBuiltin id => s!"Unknown built-in variable {id.toNat}"
  | .builtinNotArray id => s!"Built-in variable {id.toNat} is not an array"
  | .raised _ message => message
  | .crash => "The machine crashed"

end Fault
end ScriptVm
