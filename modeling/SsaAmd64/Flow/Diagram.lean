/-
**Diagrams of graphs.**

Control-flow graphs and dominator trees as labelled nodes and numbered edges, written for a drawing
tool or as JSON.

* `Diagram.ofCfg`, `Diagram.ofDominatorTree`: the two diagrams of a function;
* `Diagram.dot`, `Diagram.json`: their texts.
-/

import SsaAmd64.Flow.Cfg
import SsaAmd64.Ir.Printer
import SsaAmd64.Json.Writing

namespace SsaAmd64

structure Diagram where
  name : String
  /-- Labels of the nodes. -/
  nodes : List String
  /-- Source and target of each edge, as positions in the list of nodes. -/
  edges : List (Nat × Nat)

namespace Diagram

/-- The edges from each vertex of a list, in order, to those of its targets that are in the list. -/
def edgesBetween (vertices : List ValueId) (targets : ValueId → List ValueId) :
    List (Nat × Nat) :=
  vertices.zipIdx.flatMap fun (vertex, source) =>
    ((targets vertex).filterMap (DominatorTree.positionIn? vertices)).map fun target =>
      (source, target)

/-- Blocks with the blocks that control may pass to. -/
def ofCfg (printer : Printer) (cfg : Cfg) : Diagram where
  name := "cfg_" ++ printer.name cfg.function
  nodes := cfg.blocks.map printer.name
  edges := edgesBetween cfg.blocks cfg.successors

/-- Reachable blocks with the blocks that they dominate immediately. -/
def ofDominatorTree (printer : Printer) (function : ValueId) (tree : DominatorTree ValueId) :
    Diagram where
  name := "dom_" ++ printer.name function
  nodes := tree.vertices.map printer.name
  edges := edgesBetween tree.vertices tree.children

/-- A label between quotes: backslashes and quotes are escaped. -/
def escapeLabel (label : String) : String :=
  String.ofList (label.toList.flatMap fun character =>
    if character = '\\' ∨ character = '"' then ['\\', character] else [character])

/-- The diagram in the language of a drawing tool. -/
def dot (diagram : Diagram) : String :=
  "digraph \"" ++ escapeLabel diagram.name ++ "\" \x7b\n" ++
    String.join (diagram.nodes.zipIdx.map fun (label, index) =>
      "    n" ++ toString index ++ " [label=\"" ++ escapeLabel label ++ "\"];\n") ++
    String.join (diagram.edges.map fun (source, target) =>
      "    n" ++ toString source ++ " -> n" ++ toString target ++ ";\n") ++ "\x7d\n"

/-- The diagram as JSON. -/
def json (diagram : Diagram) : String :=
  Json.object 0 [
    ("name", Json.quoted diagram.name),
    ("nodes", Json.list 1 (diagram.nodes.map Json.quoted)),
    ("edges", Json.list 1 (diagram.edges.map fun (source, target) =>
      Json.list 2 [toString source, toString target]))]

end Diagram

end SsaAmd64
