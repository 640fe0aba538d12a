import PsiCalculus.Error
import PsiCalculus.Json.Reader
import PsiCalculus.Json.Writer
import PsiCalculus.NormalForm

/-! # Options

The options of a compilation and their JSON form. `Config.parse` reads an object, whose fields may
come in any order, each at most once; or an array, which gives the options in their order. What is
left out takes its default, and fields of other names are passed over.
-/

namespace PsiCalculus

/-- The options of a compilation. -/
structure Config where
  /-- Rewrites allowed at one node. -/
  maxRewrites : Nat := NormalForm.defaultLimit
  /-- Whether the function checks its arguments. -/
  guards : Bool := true
  functionName : String := "moa_function"
  /-- Whether scalars of known value are written as literals. -/
  literals : Bool := true
  deriving DecidableEq, Repr

namespace Config

/-- One option. -/
inductive Field where
  | maxRewrites
  | guards
  | functionName
  | literals
  deriving DecidableEq, Repr

/-- The options in their order. -/
def fields : List Field :=
  [.maxRewrites, .guards, .functionName, .literals]

/-- The key of an option. -/
def Field.key : Field → String
  | maxRewrites => "max_rewrite_iterations"
  | guards => "include_conditions"
  | functionName => "function_name"
  | literals => "materialize_scalars"

/-- The option of a key. -/
def Field.ofKey? (key : String) : Option Field :=
  fields.find? fun field => field.key = key

/-- The unsigned number that a spelling without sign, point and exponent denotes. -/
def natural? (spelling : String) : Option Nat :=
  if spelling.toList.all Text.isDigit then Text.word? spelling.toList else none

/-- The options with one of them set, if the value is of its type. -/
def set? (c : Config) : Field → Json → Option Config
  | .maxRewrites, .number spelling => do return { c with maxRewrites := ← natural? spelling }
  | .guards, .bool b => some { c with guards := b }
  | .functionName, .string (some s) => some { c with functionName := s }
  | .literals, .bool b => some { c with literals := b }
  | _, _ => none

/-- The options with the fields of an object set; `seen` are the options set so far. -/
def ofFields? (c : Config) (seen : List Field) : List (Option String × Json) → Option Config
  | [] => some c
  | (none, _) :: _ => none
  | (some key, value) :: rest =>
    match Field.ofKey? key with
    | none => ofFields? c seen rest
    | some field =>
      if field ∈ seen then none
      else do ofFields? (← c.set? field value) (field :: seen) rest

/-- The options with the items of an array set, in order. -/
def ofItems? (c : Config) : List Field → List Json → Option Config
  | _, [] => some c
  | [], _ :: _ => none
  | field :: fields, value :: rest => do ofItems? (← c.set? field value) fields rest

/-- The options that a JSON value denotes. -/
def ofJson? : Json → Option Config
  | .object fields => ofFields? {} [] fields
  | .array items => ofItems? {} fields items
  | _ => none

/-- The options that a JSON text denotes. -/
def parse (text : String) : Except Error Config :=
  match Json.parse? text with
  | none => .error (.config (.invalid "the text is no JSON value"))
  | some value =>
    match ofJson? value with
    | some config => .ok config
    | none => .error (.config (.invalid "the value gives no options"))

/-- The options as a JSON object. -/
def toJson (c : Config) : Json :=
  .obj [(Field.key .maxRewrites, .int c.maxRewrites), (Field.key .guards, .bool c.guards),
    (Field.key .functionName, .str c.functionName), (Field.key .literals, .bool c.literals)]

/-- The options as a JSON text. -/
def text (c : Config) : String :=
  c.toJson.pretty

end Config

end PsiCalculus
