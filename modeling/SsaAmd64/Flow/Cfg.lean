/-
**Control-flow graphs.**

One vertex for each block of a function, the entry first. Edges come from the terminators: one for
`br`, two for `condbr` with the true target first. A target outside the function makes no edge.
-/

import SsaAmd64.Flow.DominatorTree
import SsaAmd64.Ir.Module

namespace SsaAmd64

/-- The control flow of a function, as it is when the graph is built. -/
structure Cfg where
  function : ValueId
  /-- Each block with the blocks that control may pass to. -/
  nodes : List (ValueId × List ValueId)

namespace Cfg

/-- The control-flow graph of a function. -/
def of (m : Module) (function : ValueId) : Cfg :=
  let blocks := m.blocksOf function
  ⟨function, blocks.map fun block => (block, (m.successors block).filter (blocks.contains ·))⟩

def blocks (cfg : Cfg) : List ValueId :=
  cfg.nodes.map Prod.fst

def successors (cfg : Cfg) (block : ValueId) : List ValueId :=
  (cfg.nodes.lookup block).getD []

def graph (cfg : Cfg) : Digraph ValueId :=
  ⟨cfg.blocks, cfg.successors⟩

def predecessors (cfg : Cfg) (block : ValueId) : List ValueId :=
  cfg.graph.predecessors block

/-- The number of a block in the graph. -/
def numberOf? (cfg : Cfg) (block : ValueId) : Option Nat :=
  cfg.blocks.findIdx? (· = block)

/-- The blocks that can be reached, in reverse postorder. -/
def reversePostorder (cfg : Cfg) : List ValueId :=
  cfg.graph.reversePostorder

/-- The dominator tree of the function. -/
def dominatorTree (cfg : Cfg) : DominatorTree ValueId :=
  .of cfg.graph

end Cfg

end SsaAmd64
