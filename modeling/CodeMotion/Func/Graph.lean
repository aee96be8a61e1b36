import CodeMotion.Func.Basic

/-! The control-flow graph of the attached blocks. Loops of a block to itself are dropped; a
successor that is not attached is a node without successors. -/

namespace CodeMotion

/-- The nodes that can be reached from a list of nodes. -/
def closure (next : Nat → List Nat) : Nat → List Nat → List Nat → List Nat
  | 0, _, seen => seen
  | _ + 1, [], seen => seen
  | fuel + 1, b :: todo, seen =>
    if seen.contains b then closure next fuel todo seen
    else closure next fuel (next b ++ todo) (b :: seen)

namespace Func

/-- The edges between different blocks that start at an attached block. -/
def edges (fn : Func) : List (BlockId × BlockId) :=
  fn.layout.flatMap fun b => ((fn.succs b).filter (· != b)).map (b, ·)

def forward (fn : Func) (b : BlockId) : List BlockId :=
  (fn.edges.filter (·.1 == b)).map (·.2)

def backward (fn : Func) (b : BlockId) : List BlockId :=
  (fn.edges.filter (·.2 == b)).map (·.1)

/-- The blocks reachable from the entry, attached or not. -/
def reached (fn : Func) : List BlockId :=
  closure fn.forward (1 + fn.edges.length) fn.entry?.toList []

/-- The blocks from which a block without successors can be reached. -/
def exiting (fn : Func) : List BlockId :=
  closure fn.backward (fn.terminals.length + fn.edges.length) fn.terminals []

/-- Refuses a number that names no block, or that stands further left too. -/
def checkNodes (fn : Func) (seen : List BlockId) : List BlockId → Except Fault Unit
  | [] => .ok ()
  | b :: rest => do
    fn.checkBlock b
    if seen.contains b then .error (.repeatedBlock b) else fn.checkNodes (b :: seen) rest

/-- Refuses a layout that holds a block twice, and a number that names no block. -/
def checkGraph (fn : Func) : Except Fault Unit := do
  fn.checkNodes [] fn.layout
  if fn.layout.any fn.dangles then .error .dangling else .ok ()

/-- A set of blocks in ascending order; the blocks that are not attached stand in front as one. -/
def report (fn : Func) (bs : List BlockId) : List (Option BlockId) :=
  (if bs.any (!fn.layout.contains ·) then [none] else []) ++
    ((bs.filter (fn.layout.contains ·)).mergeSort (· ≤ ·)).map some

def reachable (fn : Func) : Except Fault (List (Option BlockId)) := do
  if fn.entry?.isNone then return []
  fn.checkGraph
  return fn.report fn.reached

def reachesTerminal (fn : Func) : Except Fault (List (Option BlockId)) := do
  fn.checkGraph
  return fn.report fn.exiting

/-- All nodes and all edges in ascending order. -/
def graph (fn : Func) : Except Fault (List BlockId × List (BlockId × BlockId)) := do
  fn.checkGraph
  let nodes := (fn.layout ++ fn.edges.map (·.2)).eraseDups
  return (nodes.mergeSort (· ≤ ·), fn.edges.mergeSort fun e f => e.1 < f.1 ||
    (e.1 == f.1 && e.2 ≤ f.2))

end Func
end CodeMotion
