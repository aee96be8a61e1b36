import CodeMotion.Context.Basic
import CodeMotion.Worklist

/-! Where to insert and where to delete. An expression is inserted on the latest edges that are
still in time, and its occurrences behind them are deleted. Nothing is inserted on edges that leave
an unreachable block. -/

namespace CodeMotion.Context

/-- On this edge the expression becomes anticipated, is not available, and cannot be had earlier. -/
def earliestOn (c : Context) (s : Sets) (e : Nat) : BitSet :=
  let i := (c.edge e).source
  let j := (c.edge e).target
  if !(c.node i).isReachable then .empty c.catalog.size
  else
    let new := s.antIn.of j \ s.availOut.of i
    if i = 0 then new else new ∩ ((s.antOut.of i).compl ∪ s.kill.of i)

structure Delay where
  laterIn : Family
  later : Family
deriving DecidableEq

/-- Sends what can wait on through the edges that leave a block. -/
def delayEdge (c : Context) (s : Sets) (x : BitSet) (d : Delay × List (Nat × Bool)) (e : Nat) :
    Delay × List (Nat × Bool) :=
  let y := s.earliest.of e ∪ x
  let changed := y != d.1.later.of e
  ({ d.1 with later := d.1.later.set e y }, d.2 ++ [((c.edge e).target, changed)])

/-- What can wait until the start of a block can wait on every edge into it. What a block uses
cannot wait any longer, and nothing waits at the entry. -/
def delayVisit (c : Context) (s : Sets) (k : Nat) (d : Delay) : Delay × List (Nat × Bool) :=
  let x := if k = 0 then d.laterIn.of 0
    else (c.node k).pred.foldl (fun x e => x ∩ d.later.of e) (d.laterIn.of k)
  (c.node k).succ.foldl (c.delayEdge s (x \ s.up.of k))
    ({ d with laterIn := d.laterIn.set k x }, [])

def delayStart (c : Context) : Delay where
  laterIn := .ofFn c.nodes.size fun k => if k = 0 then .empty c.catalog.size
    else .full c.catalog.size
  later := .replicate c.edges.size (.full c.catalog.size)

def delay (c : Context) (s : Sets) : Worklist × Delay :=
  let queue := if c.nodes.isEmpty then Worklist.empty 0 else (Worklist.empty c.nodes.size).push 0
  Worklist.settle (c.delayVisit s) (c.nodes.size + c.catalog.size * c.edges.size) queue c.delayStart

/-- A copy goes where waiting ends. -/
def insertOn (c : Context) (s : Sets) (e : Nat) : BitSet :=
  if (c.node (c.edge e).source).isReachable then s.later.of e \ s.laterIn.of (c.edge e).target
  else .empty c.catalog.size

/-- An exposed occurrence that no copy waits for is redundant. -/
def deleteIn (c : Context) (s : Sets) (k : Nat) : BitSet :=
  if k ≠ 0 ∧ (c.node k).isReachable then s.up.of k \ s.laterIn.of k else .empty c.catalog.size

/-- The sets of the placement, with the number of visits. -/
def place (c : Context) (s : Sets) : Nat × Sets :=
  let s := { s with earliest := .ofFn c.edges.size (c.earliestOn s) }
  let (w, d) := c.delay s
  let s := { s with laterIn := d.laterIn, later := d.later }
  let s := { s with insert := .ofFn c.edges.size (c.insertOn s) }
  (w.steps, { s with delete := .ofFn c.nodes.size (c.deleteIn s) })

def solvePlacement : Change Context Unit := do
  let c ← get
  Change.check c.check
  let (steps, s) := c.place (← Change.check c.sized)
  set { c.modifySets (fun _ => s) with rounds := { c.rounds with later := steps } }

/-- Keeps the motion of a value only if one copy replaces it: all uses refer to that copy. -/
def restrictValue (fn : Func) (v : Nat) (n : Catalog.Entry Value InstrId) :
    Change Context Unit := do
  let c ← get
  let s ← Change.check c.sized
  let inserted := s.insert.count v
  let deleted := s.delete.count v
  if (inserted = 0 ∧ deleted = 0) ∨ (inserted = 1 ∧ deleted ≠ 0) then return
  let c :=
    c.modifySets fun s => { s with insert := s.insert.eraseAll v, delete := s.delete.eraseAll v }
  set (c.record .debug "motion cancelled"
    [("func", .text fn.name), ("expr", .text (fn.exprText n)),
     ("inserted", .number inserted), ("deleted", .number deleted)])

def restrictValues (fn : Func) : Change Context Unit := do
  let c ← get
  if c.options.singleInsertion then
    (c.catalog.entries.zipIdx.filter fun (n, _) => n.op.hasResult).forM fun (n, v) =>
      restrictValue fn v n

end CodeMotion.Context
