import CodeMotion.Context.Basic
import CodeMotion.Func.Builder

/-! Code motion: copies of expressions go onto the edges that the placement chose, uses of a moved
value refer to its copy, redundant occurrences go away, and the blocks that split edges are attached
last. All decisions were made before the function changes. -/

namespace CodeMotion

structure Motion where
  inserted : Nat := 0
  deleted : Nat := 0
  splits : Nat := 0
deriving DecidableEq, Inhabited

namespace Motion

def changed (m : Motion) : Bool := m.inserted != 0 || m.deleted != 0 || m.splits != 0

/-- The state of a running motion. -/
structure State where
  func : Func
  context : Context
  /-- The copies in the order in which they were made, each with its expression. -/
  clones : List (Nat × InstrId) := []
  /-- The blocks made to split edges. -/
  splits : List BlockId := []
  done : Motion := {}
deriving DecidableEq

namespace State

/-- The last copy of an expression. -/
def lastClone? (s : State) (v : Nat) : Option InstrId :=
  (s.clones.reverse.find? (·.1 == v)).map (·.2)

def onFunc {α : Type} (c : Change Func α) : Change State α :=
  c.zoom (·.func) fun fn s => { s with func := fn }

/-- An edge is critical if its source has several successors and its target several predecessors. -/
def isCritical (fn : Func) (source target : BlockId) : Bool :=
  (fn.singleSucc? source).isNone && (fn.singlePred? target).isNone

/-- Makes the block that splits an edge. -/
def splitEdge (s : State) (e : Nat) : State :=
  let (b, fn) := s.func.newBlock (s.context.options.splitName ++ toString s.splits.length)
  { s with
    func := fn
    context := { s.context with edges := s.context.edges.modify e ({ · with split := some b }) }
    splits := s.splits ++ [b] }

/-- Puts a copy into the block that splits the edge, else at the end of a source with one successor,
else at the start of the target behind the copies that are there already. -/
def placeCopy (fn : Func) (split : Option BlockId) (source target : BlockId) (n : Nat)
    (i : InstrId) : Func :=
  match split, fn.singleSucc? source with
  | some b, _ => fn.append b i
  | none, some _ => fn.append source i
  | none, none => fn.insertBody target n i

def insertCopy (e : Nat) (s : State) (v : Nat × Nat) : State :=
  match s.context.catalog.entries[v.1]? with
  | none => s
  | some entry =>
    let edge := s.context.edge e
    let block k := (s.context.node k).block
    let (i, fn) := s.func.clone entry.instr
    { s with
      func := placeCopy fn edge.split (block edge.source) (block edge.target) v.2 i
      clones := s.clones ++ [(v.1, i)]
      done := { s.done with inserted := s.done.inserted + 1 } }

/-- Inserts the copies of one edge in catalog order. -/
def insertEdge (s : State) (e : Nat) (copies : BitSet) : State :=
  if copies.isEmpty then s
  else
    let edge := s.context.edge e
    let block k := (s.context.node k).block
    let s := if isCritical s.func (block edge.source) (block edge.target) then s.splitEdge e else s
    copies.toList.zipIdx.foldl (insertCopy e) s

def insertAll (sets : Sets) (s : State) : State :=
  (List.range s.context.edges.size).foldl (fun s e => s.insertEdge e (sets.insert.of e)) s

/-- Lets all uses of a value refer to its last copy. -/
def rewire (v : Catalog.Entry Value InstrId × Nat) : Change State Unit := do
  let s ← get
  if !v.1.op.hasResult then return
  let some i := s.lastClone? v.2 | return
  let _ ← onFunc (Func.replaceUses (.instr v.1.instr) (.instr i) s.splits)

def rewireAll : Change State Unit := do
  (← get).context.catalog.entries.zipIdx.forM rewire

/-- Takes the first occurrence of an expression out of a block. A value without a copy stays, since
its uses need it. -/
def deleteSite (k v : Nat) : Change State Unit := do
  let s ← get
  let some entry := s.context.catalog.entries[v]? | throw .outOfRange
  let node := s.context.node k
  if entry.op.hasResult && (s.lastClone? v).isNone then
    let fields := [("func", .text s.func.name), ("block", .text (s.func.blockText node.block)),
      ("expr", .text (s.func.exprText entry))]
    set { s with context := s.context.record .warn "redundant value kept" fields }
  else
    let some site := node.sites.lookup v | throw .dangling
    match s.func.remove node.block site with
    | (true, fn) => set { s with func := fn, done := { s.done with deleted := s.done.deleted + 1 } }
    | (false, fn) => throw (.missingSite (← Change.check (fn.instrText site)))

def deleteAll (sets : Sets) : Change State Unit := do
  (List.range (← get).context.nodes.size).forM fun k =>
    (sets.delete.of k).toList.forM (deleteSite k)

/-- Attaches the block that splits an edge, behind the source of the edge. -/
def splice (e : Nat) : Change State Unit := do
  let s ← get
  let edge := s.context.edge e
  let some b := edge.split | return
  let source := (s.context.node edge.source).block
  let target := (s.context.node edge.target).block
  onFunc do
    set (← Change.check ((← get).insertBlockAfter source b))
    let some t := ((← get).block source).term | throw .dangling
    modify fun fn => (fn.replaceTarget t target b).2
    let _ ← Change.zoom (fun fn => Builder.mk fn (some b)) (fun bd _ => bd.func)
      (Builder.jump target)
    modify (·.replaceIncoming target source b)
  modify fun s => { s with done := { s.done with splits := s.done.splits + 1 } }

def spliceAll : Change State Unit := do
  (List.range (← get).context.edges.size).forM splice
  if (← get).done.splits ≠ 0 then onFunc Func.rebuild

/-- Carries out the placement. -/
def run : Change State Unit := do
  let sets ← Change.check (← get).context.sized
  modify (·.insertAll sets)
  rewireAll
  deleteAll sets
  spliceAll

end State
end Motion
end CodeMotion
