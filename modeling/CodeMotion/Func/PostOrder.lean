import CodeMotion.Func.Basic

/-! Depth-first traversal from the entry. A block is yielded when all its successors were visited;
the successors are read when they are needed, so a function may change under a traversal. A
traversal that came to a number that names no block stays there. -/

namespace CodeMotion

structure PostOrder where
  /-- The path from the entry to the block at hand, innermost first. -/
  stack : List BlockId
  /-- The visited blocks, newest first. -/
  visited : List BlockId
  /-- The block that was yielded last. -/
  block : Option BlockId := none
deriving DecidableEq, Inhabited

namespace Func

/-- A bound on the number of blocks that can be reached: the entry and all targets. -/
def reachBound (fn : Func) : Nat :=
  1 + ((List.range fn.blocks.size).flatMap fun n => fn.targets (n + 1)).length

end Func

namespace PostOrder

def start (fn : Func) : PostOrder := { stack := fn.entry?.toList, visited := fn.entry?.toList }

/-- Goes down through successors that were not visited until there are none. -/
def descend (fn : Func) : Nat → PostOrder → PostOrder
  | 0, it => it
  | fuel + 1, it =>
    match it.stack with
    | [] => it
    | b :: rest =>
      match (fn.succs b).find? (!it.visited.contains ·) with
      | some s => descend fn fuel { it with stack := s :: b :: rest, visited := s :: it.visited }
      | none => it

/-- `descend` as far as it goes. -/
def bottom (fn : Func) (it : PostOrder) : PostOrder := it.descend fn (fn.reachBound + 1)

/-- Goes on to the next block, and tells whether there is one. -/
def next (fn : Func) : Change PostOrder Bool := do
  modify (·.bottom fn)
  let it ← get
  match it.stack with
  | [] =>
    set { it with block := none }
    return false
  | b :: rest =>
    Change.check (fn.checkBlock b)
    set { it with stack := rest, block := some b }
    return true

/-- The blocks still to come, and the traversal at its end. -/
def drain (fn : Func) : Nat → PostOrder → List BlockId × PostOrder
  | 0, it => ([], it)
  | fuel + 1, it =>
    let low := it.bottom fn
    match low.stack with
    | [] => ([], low)
    | b :: stack =>
      let (rest, last) := drain fn fuel { low with stack, block := some b }
      (b :: rest, last)

end PostOrder

namespace Func

/-- The blocks reachable from the entry, each after all that it reaches first. -/
def postOrder (fn : Func) : List BlockId := ((PostOrder.start fn).drain fn (fn.reachBound + 1)).1

def reversePostOrder (fn : Func) : List BlockId := fn.postOrder.reverse

/-- Refuses a function in which a target that names no block can be reached. -/
def checkReach (fn : Func) : Except Fault Unit :=
  if fn.postOrder.any (!fn.hasBlock ·) then .error .dangling else .ok ()

end Func
end CodeMotion
