import CodeMotion.Context.Basic

/-! The numbering of the expressions of a function, in the order in which they occur, and the sizing
of all sets to it. -/

namespace CodeMotion.Context

/-- Numbers the expression of one instruction of a block. -/
def addLocal (fn : Func) (k : Nat) (i : InstrId) : Change Context Unit := do
  let c ← get
  let (e, catalog) ← Change.check (c.catalog.add fn.reader i)
  set { c with catalog, nodes := c.nodes.modify k fun n => { n with locals := n.locals ++ [e] } }

def addLocals (fn : Func) (k : Nat) : Change Context Unit := do
  let body := (fn.block ((← get).node k).block).body
  (body.filter fun i => (fn.instr i).op.isMovable).forM (addLocal fn k)

/-- Makes all sets anew. -/
def resize (c : Context) : Context :=
  let width := c.catalog.size
  let blank := Sets.empty c.nodes.size c.edges.size width
  let exprs := Family.ofFn c.nodes.size fun k => (c.node k).locals.foldl .insert (.empty width)
  { c with sets := some { blank with exprs } }

/-- Numbers every movable instruction, unless there are too many expressions. -/
def numberExpressions (fn : Func) : Change Context Unit := do
  let order ← Change.check ((← get).order fn)
  order.forM (addLocals fn)
  let c ← get
  if c.options.canAnalyze c.catalog.size then set c.resize
  else set { c with overflow := true }

end CodeMotion.Context
