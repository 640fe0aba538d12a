import PsiCalculus.Config
import PsiCalculus.Cost
import PsiCalculus.Grammar
import PsiCalculus.LoopNest
import PsiCalculus.NormalForm
import PsiCalculus.Python

/-! # Compilation

From a source to Python text, through every form in between.
-/

namespace PsiCalculus

/-- Every form of a compiled source. -/
structure Compilation where
  parsed : Context
  shaped : Context
  reduced : Context
  lowered : Context
  python : String

/-- Compiles a source. -/
def compile (config : Config) (source : String) : Except Error Compilation := do
  let parsed ← Context.parse source
  let shaped ← parsed.inferShapes
  let reduced ← shaped.reduce config.maxRewrites
  let lowered ← reduced.lower config.guards
  let python ← Python.program config.functionName config.literals lowered
  return { parsed, shaped, reduced, lowered, python }

/-- The costs of the shaped and of the reduced form. -/
def Compilation.flops (c : Compilation) : Except Error (Int × Int) := do
  let shaped ← c.shaped.flops
  let reduced ← c.reduced.flops
  return (shaped, reduced)

end PsiCalculus
