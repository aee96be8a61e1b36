import CodeMotion.Context.Text
import CodeMotion.Context.PathFacts
import CodeMotion.Context.Exposure
import CodeMotion.Context.Numbering
import CodeMotion.Context.Placement

/-! The phases of an analysis, and their run in order. -/

namespace CodeMotion

inductive Phase
  | numbering | scanning | availability | anticipability | placement | restriction
deriving DecidableEq

namespace Phase

def all : List Phase := [numbering, scanning, availability, anticipability, placement, restriction]

def name : Phase → String
  | numbering => "Expression Catalog"
  | scanning => "Local Predicates"
  | availability => "Availability"
  | anticipability => "Anticipability"
  | placement => "Placement"
  | restriction => "Single Insertion"

def apply (fn : Func) : Phase → Change Context Unit
  | numbering => Context.numberExpressions fn
  | scanning => Context.localPredicates fn
  | availability => Context.solveAvailability
  | anticipability => Context.solveAnticipability
  | placement => Context.solvePlacement
  | restriction => Context.restrictValues fn

end Phase

namespace Context

/-- Runs the phases until one of them refuses the function, and tells whether none did. -/
def runPhases (fn : Func) : List Phase → Change Context Bool
  | [] => return true
  | p :: rest => do
    p.apply fn
    let c ← get
    let exprs := LogField.number c.catalog.size
    if c.overflow then
      set (c.record .info "function too large"
        [("func", .text fn.name), ("exprs", exprs), ("limit", .number c.options.maxExpressions)])
      return false
    set (c.record .debug "phase done" [("func", .text fn.name), ("phase", .text p.name),
      ("exprs", exprs)])
    runPhases fn rest

/-- Writes the dump of all sets, if it is asked for. -/
def writeTrace (fn : Func) : Change Context Unit := do
  let c ← get
  match c.options.trace with
  | .off => return
  | .writer => set { c with trace := c.trace ++ (← Change.check (c.dump fn)) }
  | .broken =>
    let _ ← Change.check (c.dump fn)
    set (c.record .warn "cannot write the trace" [("func", .text fn.name),
      ("error", .text "write failed")])

/-- Solves all problems for a function, and tells whether it was small enough. -/
def analyze (fn : Func) : Change Context Bool := do
  if !(← runPhases fn Phase.all) then return false
  writeTrace fn
  let c ← get
  set (c.record .debug "dataflow solved"
    [("func", .text fn.name), ("avail", .number c.rounds.avail), ("antic", .number c.rounds.ant),
     ("later", .number c.rounds.later)])
  return true

end Context
end CodeMotion
