import CodeMotion.Func.Forest

/-! Dominators: `a` dominates `b` if every path from the entry to `b` runs through `a`. -/

namespace CodeMotion

structure DomTree where
  root : Option BlockId := none
  /-- The immediate dominators by block number, 0 where there is none. -/
  idoms : Array BlockId := #[]
  /-- The blocks whose immediate dominator a block is, by its number. -/
  subs : Array (List BlockId) := #[]
deriving DecidableEq, Inhabited

namespace DomTree

/-- Enters a block and its immediate dominator. -/
def enter (t : DomTree) (b d : BlockId) : DomTree :=
  { t with idoms := t.idoms.setIfInBounds b d, subs := t.subs.modify d (· ++ [b]) }

def ofFunc (fn : Func) : DomTree :=
  let search := Search.ofFunc fn
  let numbers := (Forest.ofSearch search).idoms
  (search.nodes.zipIdx.drop 1).foldl (fun t (b, i) =>
    t.enter b (search.nodes.getD (numbers.getD i 0) 0))
    { root := fn.entry?
      idoms := .replicate (fn.blocks.size + 1) 0
      subs := .replicate (fn.blocks.size + 1) [] }

/-- The immediate dominator. -/
def idom? (t : DomTree) (b : BlockId) : Option BlockId :=
  match t.idoms.getD b 0 with
  | 0 => none
  | d + 1 => some (d + 1)

def children (t : DomTree) (b : BlockId) : List BlockId := t.subs.getD b []

/-- A tree without a root reaches only what is no block. -/
def isReachable (t : DomTree) (b : BlockId) : Bool := (t.idom? b).isSome || t.root.getD 0 == b

/-- Looks for a block among another one and its dominators, from the inside out. -/
def climb (t : DomTree) (a : BlockId) : Nat → BlockId → Bool
  | 0, b => a == b
  | fuel + 1, b => a == b || (t.idom? b).any (t.climb a fuel)

/-- Every block dominates itself; what cannot be reached is dominated by nothing else, and what is
no block by nothing at all. -/
def dominates (t : DomTree) (a b : BlockId) : Bool := b != 0 && t.climb a t.idoms.size b

end DomTree
end CodeMotion
