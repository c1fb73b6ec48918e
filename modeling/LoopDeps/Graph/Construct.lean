import LoopDeps.Graph.AddressChains
import LoopDeps.Graph.Backedges
import LoopDeps.Graph.Build
import LoopDeps.Graph.ControlLinks
import LoopDeps.Graph.DataLinks
set_option autoImplicit false

/- The finished graph of a loop body. -/
namespace LoopDeps.Graph

-- The passes in their order. Later ones rely on earlier ones: control links look at data edges,
-- and address chains take over the edges of both.
def passes (body : Body) (pdom : ControlLinks.PostDominates) : Edit Unit := do
  let _ ← DataLinks.pass body
  let _ ← ControlLinks.pass body pdom
  let _ ← AddressChains.pass body
  let _ ← Backedges.pass

def construct (body : Body) (pdom : ControlLinks.PostDominates) : Except LoopError Graph :=
  match ofBody body with
  | .error error => .error error
  | .ok g =>
      match (passes body pdom).run g with
      | .ok _ finished => .ok finished
      | .error error _ => .error error

end LoopDeps.Graph
