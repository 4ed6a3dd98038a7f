import ScriptVm.Text.Json

/-! The machine's configuration and its JSON form. What is missing takes its default and unknown
fields are passed over, but no field may be given twice. An array gives the fields by position. -/

namespace ScriptVm

structure Config where
  maxCallDepth : Nat := 4096
  stackCapacity : Nat := 1024
  /-- Whether arrays are tracked by a collector. -/
  collecting : Bool := true
  tracing : Bool := false
  copyOnWrite : Bool := true
deriving DecidableEq, Repr

namespace Config

inductive Field where
  | maxCallDepth
  | stackCapacity
  | collecting
  | tracing
  | copyOnWrite
deriving DecidableEq, Repr

namespace Field

def all : List Field := [.maxCallDepth, .stackCapacity, .collecting, .tracing, .copyOnWrite]

def name : Field → String
  | .maxCallDepth => "max_call_depth"
  | .stackCapacity => "initial_stack_capacity"
  | .collecting => "garbage_collection"
  | .tracing => "trace_dispatch"
  | .copyOnWrite => "copy_on_write"

def ofName? (name : String) : Option Field := all.find? (·.name == name)

end Field

/-- Sets a field from its JSON value. Sizes are whole numbers of at most 64 bits. -/
def set? (c : Config) : Field → JsonValue → Option Config
  | .maxCallDepth, .whole n => if n < UInt64.size then some { c with maxCallDepth := n } else none
  | .stackCapacity, .whole n => if n < UInt64.size then some { c with stackCapacity := n } else none
  | .collecting, .bool b => some { c with collecting := b }
  | .tracing, .bool b => some { c with tracing := b }
  | .copyOnWrite, .bool b => some { c with copyOnWrite := b }
  | _, _ => none

/-- Sets fields by name; `given` lists those that were set before. -/
def setNamed? (c : Config) (given : List Field) : List (Option String × JsonValue) → Option Config
  | [] => some c
  | (key, j) :: rest => do
    match Field.ofName? (← key) with
    | none => c.setNamed? given rest
    | some field =>
      if field ∈ given then none else (← c.set? field j).setNamed? (field :: given) rest

def setOrdered? (c : Config) : List Field → List JsonValue → Option Config
  | _, [] => some c
  | [], _ :: _ => none
  | field :: fields, j :: js => do (← c.set? field j).setOrdered? fields js

def ofJson? : JsonValue → Option Config
  | .object fields => ({} : Config).setNamed? [] fields
  | .array items => ({} : Config).setOrdered? Field.all items
  | _ => none

def parse? (text : String) : Option Config := do ofJson? (← JsonValue.parse? text)

def fieldText (c : Config) : Field → String
  | .maxCallDepth => s!"{c.maxCallDepth}"
  | .stackCapacity => s!"{c.stackCapacity}"
  | .collecting => s!"{c.collecting}"
  | .tracing => s!"{c.tracing}"
  | .copyOnWrite => s!"{c.copyOnWrite}"

/-- The JSON text, one field a line. -/
def text (c : Config) : String :=
  let lines := Field.all.map fun field => "  \"" ++ field.name ++ "\": " ++ c.fieldText field
  "\x7b\n" ++ String.intercalate ",\n" lines ++ "\n\x7d"

end Config
end ScriptVm
