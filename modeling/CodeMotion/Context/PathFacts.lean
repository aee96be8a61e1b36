import CodeMotion.Context.Basic
import CodeMotion.Flow

/-! Which expressions are available, because every path to a point has computed them, and which are
anticipated, because every path from a point computes them. -/

namespace CodeMotion.Context

/-- An expression is available behind a block that exposes it downward, and stays so until it is
killed. Nothing is available at the entry. -/
def availability (c : Context) (s : Sets) : Flow where
  size := c.nodes.size
  width := c.catalog.size
  sources k := (c.node k).pred.map fun e => (c.edge e).source
  sinks k := (c.node k).succ.map fun e => (c.edge e).target
  pinned := (· == 0)
  gen := s.down.of
  kill := s.kill.of

/-- The same in the other direction: an expression is anticipated in front of a block that exposes
it upward. Nothing is anticipated behind a pinned block. -/
def anticipability (c : Context) (s : Sets) : Flow where
  size := c.nodes.size
  width := c.catalog.size
  sources k := (c.node k).succ.map fun e => (c.edge e).target
  sinks k := (c.node k).pred.map fun e => (c.edge e).source
  pinned k := (c.node k).isPinned
  gen := s.up.of
  kill := s.kill.of

def solveAvailability : Change Context Unit := do
  let c ← get
  Change.check c.check
  let (w, x) := (c.availability (← Change.check c.sized)).solve
  set { c.modifySets fun s => { s with availIn := x.entry, availOut := x.exit } with
    rounds := { c.rounds with avail := w.steps } }

def solveAnticipability : Change Context Unit := do
  let c ← get
  Change.check c.check
  let (w, x) := (c.anticipability (← Change.check c.sized)).solve
  set { c.modifySets fun s => { s with antIn := x.exit, antOut := x.entry } with
    rounds := { c.rounds with ant := w.steps } }

end CodeMotion.Context
