import CodeMotion.Context.Basic

/-! The printed form of all records and sets. -/

namespace CodeMotion.Context

/-- Fills a text with blanks up to a width. -/
def padRight (width : Nat) (s : String) : String :=
  s ++ String.ofList (List.replicate (width - s.length) ' ')

def setLine (name : String) (s : BitSet) : String := padRight 12 (name ++ ":") ++ s.text ++ "\n"

def dumpNode (c : Context) (fn : Func) (k : Nat) : Except Fault String := do
  let head ← fn.blockBody (c.node k).block
  let s ← c.sized
  return "> Block: " ++ head ++ "\n" ++ String.join
    [setLine "Exprs" (s.exprs.of k), setLine "ExprKill" (s.kill.of k),
      setLine "DEExpr" (s.down.of k),
     setLine "UEExpr" (s.up.of k), setLine "AvailOut" (s.availOut.of k),
       setLine "AvailIn" (s.availIn.of k),
     setLine "AntOut" (s.antOut.of k), setLine "AntIn" (s.antIn.of k),
       setLine "LaterIn" (s.laterIn.of k), setLine "Delete" (s.delete.of k)]

def dumpEdge (c : Context) (fn : Func) (e : Nat) : Except Fault String := do
  let s ← c.sized
  let name k := fn.blockText (c.node k).block
  return "(" ++ name (c.edge e).source ++ "," ++ name (c.edge e).target ++ ")\n" ++ String.join
    [setLine "Earliest" (s.earliest.of e), setLine "Later" (s.later.of e),
      setLine "Insert" (s.insert.of e)]

def dump (c : Context) (fn : Func) : Except Fault String := do
  let exprs := c.catalog.entries.zipIdx.map fun (n, v) =>
    "#" ++ padRight 4 (toString v) ++ " " ++ fn.exprText n ++ "\n"
  let nodes ← (List.range c.nodes.size).mapM (c.dumpNode fn)
  let edges ← (List.range c.edges.size).mapM (c.dumpEdge fn)
  return "=== LCM: " ++ fn.name ++ " ===\n" ++ String.join (exprs ++ nodes ++ edges)

end CodeMotion.Context
