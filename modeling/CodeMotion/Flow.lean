import CodeMotion.Family
import CodeMotion.Worklist

/-! Bit-vector problems on a numbered graph in which a fact holds at a node only if it holds on
every way in. All sets start full, the entries of the pinned nodes empty, and the solution is the
greatest one, reached by shrinking sets in the order of a queue. -/

namespace CodeMotion

structure Flow where
  /-- The number of nodes. -/
  size : Nat
  /-- The number of facts. -/
  width : Nat
  /-- The nodes whose exits meet at the entry of a node. -/
  sources : Nat → List Nat
  /-- The nodes to look at again when the exit of a node changed. -/
  sinks : Nat → List Nat
  /-- Nodes whose entry stays empty. -/
  pinned : Nat → Bool
  /-- Facts that hold at the exit whatever holds at the entry. -/
  gen : Nat → BitSet
  /-- Facts that do not pass through a node. -/
  kill : Nat → BitSet

namespace Flow

structure State where
  entry : Family
  exit : Family
deriving DecidableEq

def start (p : Flow) : State where
  entry := .ofFn p.size fun i => if p.pinned i then .empty p.width else .full p.width
  exit := .replicate p.size (.full p.width)

/-- What holds at the entry of a node, given the exits of its sources. -/
def meet (p : Flow) (s : State) (i : Nat) : BitSet :=
  if p.pinned i then s.entry.of i else (p.sources i).foldl (fun x j => x ∩ s.exit.of j)
    (s.entry.of i)

def transfer (p : Flow) (i : Nat) (x : BitSet) : BitSet := (x \ p.kill i) ∪ p.gen i

def visit (p : Flow) (i : Nat) (s : State) : State × List (Nat × Bool) :=
  let x := p.meet s i
  let y := p.transfer i x
  let changed := x != s.entry.of i || y != s.exit.of i
  ({ entry := s.entry.set i x, exit := s.exit.set i y },
    (p.sinks i).map fun j => (j, changed))

/-- The number of pairs of a node and one of its sinks. -/
def arcs (p : Flow) : Nat := ((List.range p.size).flatMap p.sinks).length

/-- The pinned nodes wait in the queue at first. A node is accepted once before its first visit and
then only after one of the shrinking sets of a source shrank, which bounds the visits. -/
def solve (p : Flow) : Worklist × State :=
  let seeds := (List.range p.size).filter p.pinned
  Worklist.settle p.visit (p.size + 2 * p.width * p.arcs) (seeds.foldl .push (.empty p.size))
    p.start

end Flow
end CodeMotion
