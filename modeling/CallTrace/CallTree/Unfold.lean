import CallTrace.CallGraph
import CallTrace.CallTree

namespace CallTrace.CallGraph

/-- The tree below a signature: a callee on the path is a circular leaf, any other is unfolded in
turn, and nothing is shown below the last level. -/
def unfold (g : CallGraph) : (levels : Nat) → (path : List Signature) → Signature → CallTree
  | 0, _, s => { signature := s, layer := g.layerOf s }
  | levels + 1, path, s =>
      { signature := s
        layer := g.layerOf s
        children := (g.successors s).map fun t =>
          if t ∈ path then .circularLeaf t (g.layerOf t) else g.unfold levels (t :: path) t }

end CallTrace.CallGraph
