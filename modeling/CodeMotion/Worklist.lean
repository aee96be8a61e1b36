import CodeMotion.Fault

/-! A queue of node numbers in which no node waits twice and a node that was never taken out is
always accepted, and the loop that serves such a queue until it is empty. -/

namespace CodeMotion

structure Worklist where
  queue : List Nat := []
  seen : Array Bool
  queued : Array Bool
  steps : Nat := 0
deriving DecidableEq

namespace Worklist

def empty (size : Nat) : Worklist :=
  { seen := Array.replicate size false, queued := Array.replicate size false }

def push (w : Worklist) (i : Nat) : Worklist :=
  if w.queued.getD i false then w
  else { w with queue := w.queue ++ [i], queued := w.queued.setIfInBounds i true }

/-- Queues a node whose input changed, or that was never taken out. -/
def update (w : Worklist) (i : Nat) (changed : Bool) : Worklist :=
  if changed || !w.seen.getD i false then w.push i else w

def pop? (w : Worklist) : Option (Nat × Worklist) :=
  match w.queue with
  | [] => none
  | i :: rest =>
    some (i, { queue := rest, seen := w.seen.setIfInBounds i true,
               queued := w.queued.setIfInBounds i false, steps := w.steps + 1 })

/-- The number of nodes that a worklist can hold at most. -/
def capacity : Nat := 1 <<< 48

/-- An empty worklist for a number of nodes that may be negative or beyond the capacity. -/
def ofSize? (size : Int) : Except Fault Worklist := do
  return empty (← indexBelow (capacity + 1) size)

/-- `push` for a number that may lie outside the worklist. -/
def push? (w : Worklist) (i : Int) : Except Fault Worklist := do
  return w.push (← indexBelow w.seen.size i)

/-- `update` for a number that may lie outside the worklist. -/
def update? (w : Worklist) (i : Int) (changed : Bool) : Except Fault Worklist := do
  return w.update (← indexBelow w.seen.size i) changed

/-- Serves the queue: a visit changes the state and tells which nodes to update. The queue is empty
in the end unless `fuel` ran out. -/
def settle {σ : Type} (visit : Nat → σ → σ × List (Nat × Bool)) : Nat → Worklist → σ → Worklist × σ
  | 0, w, s => (w, s)
  | fuel + 1, w, s =>
    match w.pop? with
    | none => (w, s)
    | some (i, w) =>
      let (s, updates) := visit i s
      settle visit fuel (updates.foldl (fun w u => w.update u.1 u.2) w) s

end Worklist
end CodeMotion
