import CodeMotion.Expr.Catalog
import CodeMotion.Family
import CodeMotion.Func.Graph
import CodeMotion.Func.PostOrder
import CodeMotion.Log
import CodeMotion.Options

/-! The records on which one function is analyzed. Blocks and edges are numbered in layout order,
and every data-flow set is a family indexed by these numbers. The function itself is passed along,
so that the records always see its present state. -/

namespace CodeMotion

structure Node where
  block : BlockId
  isReachable : Bool
  /-- Nothing is anticipated at the end of a pinned block: it has no successors, or reaches no block
  without successors. -/
  isPinned : Bool
  /-- The edges that leave the block. -/
  succ : List Nat
  /-- The edges that enter the block. -/
  pred : List Nat
  /-- The expressions of the body, one for each movable instruction. -/
  locals : List Nat := []
  /-- The first occurrence of each expression of the body. -/
  sites : List (Nat × InstrId) := []
deriving DecidableEq, Inhabited

/-- The sites in the order in which their expressions first appear in the body. -/
def Node.orderedSites (n : Node) : List (Nat × InstrId) :=
  n.locals.eraseDups.filterMap fun e => (n.sites.lookup e).map (e, ·)

structure Edge where
  source : Nat
  target : Nat
  /-- The block that was made to split the edge. -/
  split : Option BlockId := none
deriving DecidableEq, Inhabited

structure Sets where
  exprs : Family
  kill : Family
  /-- The downward exposed expressions. -/
  down : Family
  /-- The upward exposed expressions. -/
  up : Family
  availIn : Family
  availOut : Family
  antIn : Family
  antOut : Family
  laterIn : Family
  delete : Family
  earliest : Family
  later : Family
  insert : Family
deriving DecidableEq

namespace Sets

def empty (nodes edges width : Nat) : Sets :=
  let n := Family.replicate nodes (.empty width)
  let e := Family.replicate edges (.empty width)
  { exprs := n, kill := n, down := n, up := n, availIn := n, availOut := n, antIn := n, antOut := n,
    laterIn := n, delete := n, earliest := e, later := e, insert := e }

/-- The sets of a block with the order in which their sizes are looked at. -/
def ofNode (s : Sets) (i : Nat) : List BitSet :=
  [s.exprs, s.kill, s.down, s.up, s.availIn, s.availOut, s.antIn, s.antOut, s.laterIn,
    s.delete].map (·.of i)

def ofEdge (s : Sets) (i : Nat) : List BitSet := [s.earliest, s.later, s.insert].map (·.of i)

end Sets

/-- How many blocks were visited to solve each problem. -/
structure Rounds where
  avail : Nat := 0
  ant : Nat := 0
  later : Nat := 0
deriving DecidableEq, Inhabited

structure Context where
  options : Options
  nodes : Array Node
  edges : Array Edge
  catalog : Catalog Value InstrId := {}
  /-- The sets, once the number of expressions is known. -/
  sets : Option Sets := none
  /-- Whether the function has too many expressions. -/
  overflow : Bool := false
  rounds : Rounds := {}
  log : List LogRecord := []
  trace : String := ""
deriving DecidableEq

namespace Context

/-- The edges of a function. A successor that is not attached is taken for the first block. -/
def edgesOf (fn : Func) : List Edge :=
  fn.layout.zipIdx.flatMap fun (b, i) =>
    (fn.succs b).map fun s => { source := i, target := (fn.layout.idxOf? s).getD 0 }

def nodesOf (fn : Func) (edges : List Edge) : List Node :=
  let reached := fn.reached
  let exiting := fn.exiting
  fn.layout.zipIdx.map fun (b, i) =>
    { block := b
      isReachable := reached.contains b
      isPinned := (fn.succs b).isEmpty || !exiting.contains b
      succ := (edges.zipIdx.filter (·.1.source == i)).map (·.2)
      pred := (edges.zipIdx.filter (·.1.target == i)).map (·.2) }

def ofFunc (fn : Func) (options : Options) : Except Fault Context := do
  fn.checkGraph
  let edges := edgesOf fn
  return { options, nodes := (nodesOf fn edges).toArray, edges := edges.toArray }

def node (c : Context) (i : Nat) : Node := c.nodes.getD i default

def edge (c : Context) (i : Nat) : Edge := c.edges.getD i default

/-- The number of a block. -/
def nodeOf (c : Context) (fn : Func) (b : BlockId) : Except Fault Nat :=
  match c.nodes.toList.findIdx? (·.block == b) with
  | some i => .ok i
  | none => fn.blockName b >>= fun name => .error (.foreignBlock name)

/-- The number of the edge between two blocks, the last one if there are several. -/
def edgeOf (c : Context) (fn : Func) (source target : BlockId) : Except Fault (Option Nat) := do
  let i ← c.nodeOf fn source
  let j ← c.nodeOf fn target
  return (c.edges.toList.zipIdx.reverse.find? fun (e, _) => e.source == i &&
    e.target == j).map (·.2)

/-- The reachable blocks in reverse post-order, then the others in layout order, so that definitions
come before their uses. -/
def order (c : Context) (fn : Func) : Except Fault (List Nat) := do
  fn.checkReach
  let reachable ← fn.reversePostOrder.mapM (c.nodeOf fn)
  return reachable ++ (List.range c.nodes.size).filter fun i => !(c.node i).isReachable

/-- The sets of a function that has any blocks. -/
def sized (c : Context) : Except Fault Sets :=
  match c.sets with
  | some s => .ok s
  | none => if c.nodes.isEmpty then .ok (.empty 0 0 0) else .error .unsized

/-- Refuses sets that were made for another number of expressions. -/
def check (c : Context) : Except Fault Unit := do
  let s ← c.sized
  (List.range c.nodes.size).forM fun i => (s.ofNode i).forM (·.checkSize c.catalog.size)
  (List.range c.edges.size).forM fun i => (s.ofEdge i).forM (·.checkSize c.catalog.size)

def modifySets (c : Context) (f : Sets → Sets) : Context := { c with sets := c.sets.map f }

def record (c : Context) (level : LogLevel) (message : String) (fields : List (String × LogField)) :
    Context :=
  { c with log := c.log ++ [{ level, message, fields }] }

end Context

/-- The text of a cataloged expression. -/
def Func.exprText (fn : Func) (n : Catalog.Entry Value InstrId) : String :=
  (n.expression fn.reader).text Value.text

end CodeMotion
