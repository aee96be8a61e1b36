import CodeMotion.Context.Basic

/-! What a block does to each expression: whether it changes its value, and whether an occurrence in
the block is exposed to the end or to the start of the block. -/

namespace CodeMotion

/-- What was defined and which addresses were accessed in a part of a block. -/
structure Scope where
  defs : List Value := []
  loads : List Value := []
  /-- The addresses of the stores, with the expressions they belong to. -/
  stores : List (Value × Nat) := []
deriving DecidableEq, Inhabited

namespace Scope

/-- A store defines its address, anything else its result. -/
def add (fn : Func) (catalog : Catalog Value InstrId) (sc : Scope) (i : InstrId) :
    Except Fault Scope := do
  let ins := fn.instr i
  match ins.op with
  | .store =>
    let addr ← entryAt ins.args 1
    let e ← catalog.index fn.reader i
    return { sc with defs := addr :: sc.defs, stores := sc.stores ++ [(addr, e)] }
  | .load =>
    let addr ← entryAt ins.args 0
    return { sc with defs := .instr i :: sc.defs, loads := addr :: sc.loads }
  | op => return if op.hasResult then { sc with defs := .instr i :: sc.defs } else sc

/-- Whether there is a store to an address with another expression. -/
def stored (sc : Scope) (addr : Value) (e : Nat) : Bool :=
  sc.stores.any fun (a, f) => a == addr && f != e

/-- Whether the scope changes the value of the expression with number `e`. Stores are also ordered
against other stores to their address, and against loads of it if `reads` holds. -/
def kills (fn : Func) (sc : Scope) (n : Catalog.Entry Value InstrId) (e : Nat) (reads : Bool) :
    Bool :=
  (n.expression fn.reader).operands.any (sc.defs.contains ·) ||
    (n.op == .store && (sc.stored n.dest e || (reads && sc.loads.contains n.dest)))

end Scope

namespace Context

/-- The expressions that a scope kills, added to a set. -/
def addKilled (fn : Func) (catalog : Catalog Value InstrId) (sc : Scope) (s : BitSet) : BitSet :=
  (catalog.entries.zipIdx.filter fun (n, e) => sc.kills fn n e true).foldl
    (fun s (_, e) => s.insert e) s

/-- A scan through a block, which takes expressions out of a set. -/
structure Scan where
  scope : Scope := {}
  /-- The expressions met so far, with their first occurrence on the way. -/
  met : List (Nat × InstrId) := []
  set : BitSet
deriving DecidableEq

/-- Takes the expression of an instruction out of the set if this is the first time it is met and
the scope kills it. -/
def scanStep (fn : Func) (catalog : Catalog Value InstrId) (reads : Bool) (i : InstrId) :
    Change Scan Unit := do
  if (fn.instr i).op.isMovable then
    let e ← Change.check (catalog.index fn.reader i)
    let s ← get
    if !s.met.any (·.1 == e) then
      let killed := catalog.entries[e]?.any (s.scope.kills fn · e reads)
      set { s with
        met := s.met ++ [(e, i)]
        set := if killed then s.set.erase e else s.set }
  let s ← get
  set { s with scope := ← Change.check (s.scope.add fn catalog i) }

/-- Expressions whose last occurrence is not followed by anything that kills them; loads do not
count. -/
def scanDown (fn : Func) (catalog : Catalog Value InstrId) (b : BlockId) : Change Scan Unit :=
  (fn.block b).body.reverse.forM (scanStep fn catalog false)

/-- Expressions whose first occurrence is not preceded by anything that kills them; phis come
first. -/
def scanUp (fn : Func) (catalog : Catalog Value InstrId) (b : BlockId) : Change Scan Unit := do
  (fn.block b).phis.forM fun p => do
    let s ← get
    set { s with scope := ← Change.check (s.scope.add fn catalog p) }
  (fn.block b).body.forM (scanStep fn catalog true)

/-- Computes the local sets of one block. -/
def scanBlock (fn : Func) (k : Nat) : Change Context Unit := do
  let c ← get
  let b := (c.node k).block
  let whole ← Change.check ((fn.listed b).foldlM (Scope.add fn c.catalog) {})
  let sets ← Change.check c.sized
  modify (·.modifySets fun s =>
    { s with kill := s.kill.set k (addKilled fn c.catalog whole (s.kill.of k)) })
  Change.zoom (fun _ => { set := (sets.down.of k).assign (sets.exprs.of k) })
    (fun s c => c.modifySets fun t => { t with down := t.down.set k s.set })
    (scanDown fn c.catalog b)
  Change.zoom (fun _ => { met := (c.node k).sites, set := (sets.up.of k).assign (sets.exprs.of k) })
    (fun s c => { c.modifySets fun t => { t with up := t.up.set k s.set } with
      nodes := c.nodes.modify k fun n => { n with sites := s.met } })
    (scanUp fn c.catalog b)

def localPredicates (fn : Func) : Change Context Unit := do
  (List.range (← get).nodes.size).forM (scanBlock fn)

end Context
end CodeMotion
