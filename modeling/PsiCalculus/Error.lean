import PsiCalculus.Element
import PsiCalculus.Token
import PsiCalculus.Text.Quoted

/-! # Errors

Everything that can stop a compilation, as causes; the wording of each cause is in the `message`
function of its type. An error raised while a tree is visited carries the path of the node it is
about: a visitor reports it at the root path, and `Error.located` puts the path of the visited node
in front.

Three causes, `malformed`, `exhausted` and `overflow`, are not about the program that is compiled
but about a tree, a table or a count that leaves the range the operations are defined on; these
abort (`Error.aborts`). So does `tooDeep`, the end of a traversal's depth allowance.
-/

namespace PsiCalculus

/-- The child indices that lead from a root to a node. -/
abbrev Path := List Nat

/-- The text of a path. -/
def Path.text (path : Path) : String :=
  "(" ++ ", ".intercalate (path.map toString) ++ ")"

/-- What the grammar admits at a place. -/
inductive Expected where
  | expression
  | endOfInput
  | token (token : Token)
  deriving DecidableEq, Repr

/-- The wording of an expectation. -/
def Expected.text : Expected → String
  | expression => "expected expression"
  | endOfInput => "expected end of input"
  | token t => "expected '" ++ t.text ++ "'"

/-- Why a source has no tree. -/
inductive ParseFault where
  /-- The token `found`, or the end of the input, stands where the grammar admits something else. -/
  | unexpected (expected : Expected) (found : Option Spanned)
  | other (message : String)
  deriving DecidableEq

/-- The wording of a parse fault. -/
def ParseFault.message : ParseFault → String
  | unexpected expected (some found) =>
    expected.text ++ ", got '" ++ found.token.text ++ "' at position " ++ toString found.start
  | unexpected expected none => expected.text ++ ", got end of input"
  | other message => message

/-- Why a node has no shape. -/
inductive ShapeFault where
  | missingOperand (op : Operator) (index : Nat)
  | unshapedOperand (op : Operator) (index : Nat)
  | undeclared (name : String)
  | axisMismatch (op : Operator) (axis : Nat) (left right : Int)
  | rankMismatch (op : Operator) (left right : Nat)
  | contradiction (computed existing : Shape)
  | conditionOperands
  | permutationUnknown
  | permutationLength (length rank : Nat)
  | notPermutation (rank : Nat) (found : List Int)
  | indexLengthSymbolic
  | indexNotVector
  | indexTooLong (length rank : Nat)
  | indexOutOfBounds (index bound : Int) (axis : Nat)
  | innerScalar
  | innerMismatch (left right : Int)
  | unknownRank (op : Operator)
  | unshapedRoot
  | unshaped (op : Operator)
  | flopsUnknown (op : Operator) (shape : Option Shape)
  | other (message : String)
  deriving DecidableEq

/-- The text of a list of integers, in brackets. -/
def bracketed (ns : List Int) : String :=
  "[" ++ ", ".intercalate (ns.map toString) ++ "]"

/-- The wording of a shape fault. -/
def ShapeFault.message : ShapeFault → String
  | missingOperand op index => op.label ++ " is missing operand " ++ toString index
  | unshapedOperand op index =>
    "operand " ++ toString index ++ " of " ++ op.label ++ " has no shape"
  | undeclared name => "array " ++ name ++ " has no declared shape"
  | axisMismatch op axis left right =>
    op.label ++ " requires shapes to match at axis " ++ toString axis ++ ": left " ++ toString left
      ++ " != right " ++ toString right
  | rankMismatch op left right =>
    op.label ++ " requires dimension to match or one operand to be scalar, got ranks "
      ++ toString left ++ " and " ++ toString right
  | contradiction computed existing =>
    "computed shape " ++ Shape.text computed ++ " contradicts existing shape "
      ++ Shape.text existing
  | conditionOperands => "condition requires a guard and a consequent"
  | permutationUnknown =>
    "TRANSPOSEV requires left operand to be a vector with known integer values"
  | permutationLength length rank =>
    "TRANSPOSEV requires a permutation of length " ++ toString length
      ++ " to match dimension of right operand " ++ toString rank
  | notPermutation rank found =>
    "TRANSPOSEV requires a permutation of 0.." ++ toString rank ++ ", got " ++ bracketed found
  | indexLengthSymbolic => "PSI not implemented for left operand vector with symbolic length"
  | indexNotVector => "PSI requires left operand to be vector"
  | indexTooLong length rank =>
    "PSI requires vector length " ++ toString length
      ++ " be no greater than dimension of right operand " ++ toString rank
  | indexOutOfBounds index bound axis =>
    "PSI requires index " ++ toString index ++ " < bound " ++ toString bound ++ " at axis "
      ++ toString axis
  | innerScalar => "inner product requires both operands to have dimension of at least one"
  | innerMismatch left right =>
    "inner product requires left last axis " ++ toString left ++ " to equal right first axis "
      ++ toString right
  | unknownRank op => "cannot determine dimension of " ++ op.label ++ " node with unknown shape"
  | unshapedRoot => "reduction requires every node to have a shape"
  | unshaped op => op.label ++ " operand has no shape"
  | flopsUnknown op shape =>
    "flop count requires a concrete shape for " ++ op.label ++ ", got " ++ Shape.textOf shape
  | other message => message

/-- Why a tree is outside what an operation handles. -/
inductive PatternFault where
  | notArray (op : Operator)
  | offTree (path : Path) (depth : Nat)
  | noChild (op : Operator) (index : Nat)
  | noShapeRule (op : Operator)
  | indexNotArray (op : Operator)
  | indexUnknown (name : String)
  | notBinary (op : Operator)
  | notUnary (op : Operator)
  | incompleteTranspose
  | incompletePermutation
  | incompleteOuter
  | incompleteInner
  | scalarInner
  | scalarReduction
  | other (message : String)
  deriving DecidableEq

/-- The wording of a pattern fault. -/
def PatternFault.message : PatternFault → String
  | notArray op => "expected array node, found " ++ op.label
  | offTree path depth =>
    "path [" ++ ", ".intercalate (path.map toString) ++ "] leaves the tree at depth "
      ++ toString depth
  | noChild op index => "node " ++ op.label ++ " has no child " ++ toString index
  | noShapeRule op => "no shape rule for " ++ op.label
  | indexNotArray op => "index vector must be an array, found " ++ op.label
  | indexUnknown name => "index vector " ++ name ++ " has no known values"
  | notBinary op => op.label ++ " must have two operands"
  | notUnary op => op.label ++ " must have one operand"
  | incompleteTranspose => "psi over transpose requires a full index"
  | incompletePermutation =>
    "psi over transpose vector requires a full index and concrete permutation"
  | incompleteOuter => "psi over outer product requires a full index"
  | incompleteInner => "psi over inner product requires a full index"
  | scalarInner => "inner product of a scalar"
  | scalarReduction => "reduction of a scalar"
  | other message => message

/-- Why a reduced expression has no loop nest. -/
inductive LoweringFault where
  | implicitUnknown (name : String)
  | noTarget
  | targetNotArray (op : Operator)
  | unshaped
  | noRange (index : String)
  | other (message : String)
  deriving DecidableEq

/-- The wording of a lowering fault. -/
def LoweringFault.message : LoweringFault → String
  | implicitUnknown name => "cannot have implicit array " ++ name ++ " with unknown shape"
  | noTarget => "assignment without a target"
  | targetNotArray op => "cannot assign into " ++ op.label ++ ", expected an array"
  | unshaped => "reduced expression has no shape"
  | noRange index => "index " ++ index ++ " must range over (start, stop, step)"
  | other message => message

/-- Why a tree has no text in the target language. -/
inductive EmitFault where
  | notFunction (op : Operator)
  | missingOperand (op : Operator) (index : Nat)
  | noStatement (op : Operator)
  | noExpression (op : Operator)
  | unshapedAllocation (name : String)
  | indexNotArray (op : Operator)
  | indexUnknown (name : String)
  | unnamedArray
  | unboundReduction
  | noRange (index : String)
  | other (message : String)
  deriving DecidableEq

/-- The wording of an emission fault. -/
def EmitFault.message : EmitFault → String
  | notFunction op => "expected a lowered function, got " ++ op.label
  | missingOperand op index => op.label ++ " is missing operand " ++ toString index
  | noStatement op => "cannot generate a statement for " ++ op.label
  | noExpression op => "no python rendering for " ++ op.label ++ ", reduce the expression first"
  | unshapedAllocation name => "cannot allocate " ++ name ++ " without a shape"
  | indexNotArray op => "psi index must be an array, got " ++ op.label
  | indexUnknown name => "psi index " ++ name ++ " has no known values"
  | unnamedArray => "array node without a name"
  | unboundReduction => "reduction without a bound index"
  | noRange index => "index " ++ index ++ " must range over (start, stop, step)"
  | other message => message

/-- Why a file has no text. -/
inductive ReadFault where
  | notFound
  | isDirectory
  | notDirectory
  | denied
  /-- A step of the path, or the whole path, is longer than paths may be. -/
  | nameTooLong
  | notText
  | other (message : String)
  deriving DecidableEq

/-- The wording of a read fault. -/
def ReadFault.message : ReadFault → String
  | notFound => "No such file or directory (os error 2)"
  | isDirectory => "Is a directory (os error 21)"
  | notDirectory => "Not a directory (os error 20)"
  | denied => "Permission denied (os error 13)"
  | nameTooLong => "File name too long (os error 36)"
  | notText => "stream did not contain valid UTF-8"
  | other message => message

/-- Why there are no options. -/
inductive ConfigFault where
  | unreadable (file : String) (fault : ReadFault)
  | invalid (message : String)
  deriving DecidableEq

/-- The wording of a configuration fault. -/
def ConfigFault.message : ConfigFault → String
  | unreadable file fault => "failed to read '" ++ file ++ "': " ++ fault.message
  | invalid message => message

/-- What stopped a compilation. -/
inductive Error where
  | lexical (position : Nat) (message : String)
  | parse (fault : ParseFault)
  /-- `name` is bound to something else already; both are given by their texts. -/
  | conflict (name existing attempted : String)
  | unknownSymbol (name : String)
  | shape (path : Path) (fault : ShapeFault)
  /-- A node was rewritten `limit` times and could be rewritten once more. -/
  | nonconvergence (path : Path) (limit : Nat)
  | pattern (path : Path) (fault : PatternFault)
  /-- `name` means different things on the two sides, which are given by their texts. -/
  | mergeConflict (name left right : String)
  | lowering (fault : LoweringFault)
  | emit (fault : EmitFault)
  | config (fault : ConfigFault)
  /-- An operator was given a number of operands it does not admit. -/
  | malformed (op : Operator) (count : Nat)
  /-- No number is left after the one that `name` carries. -/
  | exhausted (name : String)
  /-- A count left the signed 64-bit range. -/
  | overflow
  /-- A tree grew below the depth a traversal was given. -/
  | tooDeep
  deriving DecidableEq

namespace Error

/-- The complaint about a text that no token is formed from. -/
def noToken (position : Nat) (text : String) : Error :=
  .lexical position ("no valid token can be formed from " ++ Text.quote text)

/-- Puts `path` in front of the path of an error that has one. -/
def located (path : Path) : Error → Error
  | shape inner fault => shape (path ++ inner) fault
  | nonconvergence inner limit => nonconvergence (path ++ inner) limit
  | pattern inner fault => pattern (path ++ inner) fault
  | e => e

/-- Whether the error is about a value outside the range of the operations. -/
def aborts : Error → Bool
  | malformed _ _ | exhausted _ | overflow | tooDeep => true
  | _ => false

/-- The short label of an error's kind. -/
def kind : Error → String
  | lexical _ _ => "Lexer error"
  | parse _ => "Parse error"
  | conflict _ _ _ => "Symbol conflict"
  | unknownSymbol _ => "Unknown symbol"
  | shape _ _ => "Shape error"
  | nonconvergence _ _ => "Reduction error"
  | pattern _ _ => "Unsupported pattern"
  | mergeConflict _ _ _ => "Merge conflict"
  | lowering _ => "Lowering error"
  | emit _ => "Code generation error"
  | config _ => "Configuration error"
  | malformed _ _ => "Malformed tree"
  | exhausted _ => "Exhausted names"
  | overflow => "Overflow"
  | tooDeep => "Depth exceeded"

/-- The wording of an error. -/
def message : Error → String
  | lexical position message => "Lexer error at position " ++ toString position ++ ": " ++ message
  | parse fault => "Parser error: " ++ fault.message
  | conflict name existing attempted =>
    "Symbol conflict: \"" ++ name ++ "\" is already defined as " ++ existing
      ++ ", cannot redefine as " ++ attempted
  | unknownSymbol name => "Unknown symbol: \"" ++ name ++ "\" is not in the symbol table"
  | shape path fault => "Shape error at node " ++ path.text ++ ": " ++ fault.message
  | nonconvergence path limit =>
    "Reduction did not converge at node " ++ path.text ++ " within " ++ toString limit
      ++ " rewrites"
  | pattern path fault => "Unsupported pattern at node " ++ path.text ++ ": " ++ fault.message
  | mergeConflict name left right =>
    "Merge conflict: user symbol \"" ++ name ++ "\" differs between expressions (" ++ left ++ " != "
      ++ right ++ ")"
  | lowering fault => "Lowering error: " ++ fault.message
  | emit fault => "Code generation error: " ++ fault.message
  | config fault => "Configuration error: " ++ fault.message
  | malformed op count => op.label ++ " does not take " ++ toString count ++ " children"
  | exhausted name => "no number follows the one of " ++ name
  | overflow => "a count leaves the signed 64-bit range"
  | tooDeep => "the tree grows below the depth given"

/-- Locating twice puts the outer path in front of the inner one. -/
theorem located_located (outer inner : Path) (e : Error) :
    (e.located inner).located outer = e.located (outer ++ inner) := by
  cases e <;> simp [located]

/-- An error located at the root is the error itself. -/
@[simp] theorem located_nil (e : Error) : e.located [] = e := by
  cases e <;> simp [located]

end Error

end PsiCalculus
