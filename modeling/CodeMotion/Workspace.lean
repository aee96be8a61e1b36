import CodeMotion.Context.Phase
import CodeMotion.Func.Defect
import CodeMotion.Motion
import CodeMotion.Result
import CodeMotion.Stats

/-! Optimizing the functions of a workspace: which ones are skipped, and what each run leaves in the
functions, the statistics, the log and the trace. -/

namespace CodeMotion

/-- Functions, and what runs over them leave behind. -/
structure Workspace where
  funcs : Array Func := #[]
  stats : Stats := {}
  log : List LogRecord := []
  trace : String := ""
deriving DecidableEq

namespace Workspace

def func (w : Workspace) (f : Nat) : Func := w.funcs.getD f default

def modifyFunc (w : Workspace) (f : Nat) (g : Func → Func) : Workspace :=
  { w with funcs := w.funcs.modify f g }

def record (level : LogLevel) (message : String) (fields : List (String × LogField)) :
    Change Workspace Unit :=
  modify fun w => { w with log := w.log ++ [{ level, message, fields }] }

/-- Carries out a change of a context, whose log and trace go to the workspace. -/
def onContext {α : Type} (c : Context) (x : Change Context α) : Change Workspace (α × Context) :=
  fun w =>
  let keep (c : Context) := { w with log := w.log ++ c.log, trace := w.trace ++ c.trace }
  let clean (c : Context) := { c with log := [], trace := "" }
  match x c with
  | .ok a c => .ok (a, clean c) (keep c)
  | .error e c => .error e (keep c)

/-- Checks a function, if that is asked for, and tells whether it is malformed. -/
def isMalformed (o : Options) (fn : Func) : Change Workspace Bool := do
  if !o.verify then return false
  match ← Change.check fn.verify with
  | none => return false
  | some message =>
    record .info "malformed function" [("func", .text fn.name), ("error", .text message)]
    return true

/-- Analyzes a function, or tells why it is skipped. -/
def prepare (o : Options) (fn : Func) : Change Workspace (Context ⊕ SkipReason) := do
  if fn.isExternal then return .inr .declaration
  let some entry := fn.layout.head? | return .inr .noBlocks
  Change.check (fn.checkBlock entry)
  if (fn.block entry).preds ≠ [] then return .inr .malformed
  if ← isMalformed o fn then return .inr .malformed
  let context ← Change.check (Context.ofFunc fn o)
  let (small, context) ← onContext context (Context.analyze fn)
  return if small then .inl context else .inr .tooLarge

/-- Carries out the motion for an analyzed function, which stays changed as far as the
motion got. -/
def move (f : Nat) (c : Context) : Change Workspace (Motion × Context) := fun w =>
  let keep (s : Motion.State) :=
    { w.modifyFunc f fun _ => s.func with log := w.log ++ s.context.log }
  match Motion.State.run { func := w.func f, context := c } with
  | .ok _ s => .ok (s.done, s.context) (keep s)
  | .error e s => .error e (keep s)

def preservedBy (m : Motion) : Preserved :=
  if m.splits ≠ 0 then .none else if m.changed then .cfg else .all

/-- Optimizes one function. Its second answer is the error of a function that is malformed after the
run, if that is checked. -/
def optimize (o : Options) (f : Nat) : Change Workspace (Result × Option VerifyError) := do
  let fn := (← get).func f
  match ← prepare o fn with
  | .inr reason =>
    modify fun w => { w with stats := w.stats.addSkip }
    record .debug "function skipped" [("func", .text fn.name), ("reason", .text reason.name)]
    return ({ skipped := reason, skippedFuncs := 1 }, none)
  | .inl context =>
    let (motion, _) ← move f context
    let expressions := context.catalog.size
    modify fun w => { w with stats := w.stats.addMotion expressions motion }
    record .debug "function optimized"
      [("func", .text fn.name), ("exprs", .number expressions),
        ("inserted", .number motion.inserted),
       ("deleted", .number motion.deleted), ("splits", .number motion.splits)]
    let result : Result :=
      { changed := motion.changed, preserved := preservedBy motion, functions := 1,
        expressions, motion
        rounds := context.rounds }
    if !o.verify then return (result, none)
    match ← Change.check ((← get).func f).verify with
    | none => return (result, none)
    | some message =>
      return (result, some { func := fn.name, cause := "after code motion: " ++ message })

/-- Optimizes functions in order and adds up the results. Stops at the first error. -/
def optimizeAll (o : Options) : List Nat → Result → Change Workspace (Result × Option VerifyError)
  | [], total => return (total, none)
  | f :: rest, total => do
    let (result, error) ← optimize o f
    match error with
    | some e => return (total.merge result, some e)
    | none => optimizeAll o rest (total.merge result)

def optimizeModule (o : Options) (fs : List Nat) : Change Workspace (Result × Option VerifyError) :=
  optimizeAll o fs {}

/-- Analyzes a function without changing it; there is no answer for a function that is skipped. -/
def analyze (o : Options) (f : Nat) : Change Workspace (Option Context) := do
  match ← prepare o ((← get).func f) with
  | .inl context => return some context
  | .inr _ => return none

end Workspace
end CodeMotion
