import PsiCalculus.Main
import PsiCalculus.Merge
import PsiCalculus.Proofs.Growth
import PsiCalculus.Proofs.Source
import PsiCalculus.Proofs.NormalForm.Meaning
import PsiCalculus.Proofs.Shape.Instance
import PsiCalculus.Proofs.LoopNest.Assignment
import PsiCalculus.Proofs.Merge.Joined
import PsiCalculus.Proofs.Merge.Symmetry
import PsiCalculus.Proofs.Progress.Compilation
import PsiCalculus.Proofs.Python.Closed
import PsiCalculus.Proofs.Grammar.Reprinting
import PsiCalculus.Proofs.WellScoped.Pipeline
import PsiCalculus.Proofs.Shape.Bounds
import PsiCalculus.Proofs.NormalForm.Access
import PsiCalculus.Proofs.NormalForm.Limit
import PsiCalculus.Proofs.Shape.Skeleton
import PsiCalculus.Proofs.Shape.Stability
import PsiCalculus.Proofs.Shape.Location
import PsiCalculus.Proofs.Visits
import PsiCalculus.Proofs.Freshness
import PsiCalculus.Proofs.LoopNest.Parameters
import PsiCalculus.Proofs.Merge.Descents
import PsiCalculus.Proofs.Counting
import PsiCalculus.Proofs.Grammar.Scanning
import PsiCalculus.Proofs.NormalForm.Flops
import PsiCalculus.Proofs.Python.Reading
import PsiCalculus.Proofs.Python.Skeleton
import PsiCalculus.Proofs.NormalForm.Permutation
