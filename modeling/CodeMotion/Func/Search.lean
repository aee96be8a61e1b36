import CodeMotion.Func.PostOrder

/-! The depth-first search for dominators. It numbers the blocks as it comes to them, and takes down
for each number the one that it came from and all that lead to it. -/

namespace CodeMotion

/-- What a search has found. Blocks are named by their number. -/
structure Search where
  nodes : List BlockId := []
  /-- The number that the search came from, 0 where it started. -/
  parents : Array Nat := #[]
  preds : Array (List Nat) := #[]
deriving DecidableEq

namespace Search

/-- The number of a block that the search has come to. -/
def number (s : Search) (b : BlockId) : Nat := s.nodes.idxOf b

/-- Gives a block the next number. -/
def enter (s : Search) (b : BlockId) : Search :=
  { nodes := s.nodes ++ [b], parents := s.parents.push 0, preds := s.preds.push [] }

def setParent (s : Search) (i j : Nat) : Search := { s with parents := s.parents.setIfInBounds j i }

def addPred (s : Search) (i j : Nat) : Search := { s with preds := s.preds.modify j (· ++ [i]) }

/-- Looks at an edge from the number `i` to a block, which is visited before if it is new. -/
def look (visit : BlockId → Search → Search) (i : Nat) (s : Search) (w : BlockId) : Search :=
  let s :=
    if s.nodes.contains w then s
    else
      let s := visit w s
      s.setParent i (s.number w)
  s.addPred i (s.number w)

/-- Comes to a new block and looks at its edges one after another. -/
def dfs (fn : Func) : Nat → BlockId → Search → Search
  | 0, _, s => s
  | fuel + 1, b, s => (fn.succs b).foldl (look (dfs fn fuel) s.nodes.length) (s.enter b)

def ofFunc (fn : Func) : Search :=
  match fn.entry? with
  | none => {}
  | some e => dfs fn fn.reachBound e {}

end Search

end CodeMotion
