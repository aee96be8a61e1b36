import CodeMotion.Func.PostOrder
import CodeMotion.Func.Text

/-! The control-flow graph as a drawing in the dot language, in breadth-first order. -/

namespace CodeMotion.Func

def escapeHtml (s : String) : String :=
  String.join (s.toList.map fun c =>
    match c with
    | '&' => "&amp;" | '<' => "&lt;" | '>' => "&gt;" | '"' => "&#34;" | '\'' => "&#39;"
    | c => c.toString)

def dotRow (line : String) : String :=
  "<tr><td align=\"left\">" ++ (escapeHtml line).replace " " "&nbsp;" ++ "</td></tr>\n"

/-- A table with the name, the predecessors and the instructions of a block. Its width grows with
the longest line, counted in bytes. -/
def dotTable (fn : Func) (b : BlockId) : Except Fault String := do
  let lines ← fn.instrLines b
  let note := (← fn.predsText b).splitOn "\n"
  let width := (lines ++ note).foldl (fun w l => max w l.utf8ByteSize) 0
  return "<table border=\"1\" cellborder=\"0\" cellspacing=\"0\">\n" ++
    "<tr><td width=\"" ++ toString (width * 10 + 5) ++ "\">" ++ escapeHtml (fn.blockText b) ++
      "</td></tr>\n" ++
    "<hr/>\n" ++ String.join (note.map dotRow) ++ "<hr/>\n" ++ String.join (lines.map dotRow) ++
      "</table>"

def dotNode (b : BlockId) : String := "bb_" ++ toString b

/-- The label of the edge for a target slot. -/
def dotLabel (ins : Instr) (slot : Nat) : Except Fault String :=
  match ins.op with
  | .branch => return if slot = 1 then "false" else "true"
  | .switch => if slot = 0 then return "otherwise" else Value.text <$> entryAt ins.args slot
  | _ => return "goto"

def dotEdge (fn : Func) (b : BlockId) (ins : Instr) (slot : Nat) (s : BlockId) :
    Except Fault String := do
  let label ← dotLabel ins slot
  if !fn.hasBlock s then throw .dangling
  return "    " ++ dotNode b ++ " -> " ++ dotNode s ++ " [ label = \"" ++ label ++ "\" ]"

/-- The lines for the blocks of a queue and for what they reach. -/
def dotLines (fn : Func) : Nat → List BlockId → List BlockId → Except Fault (List String)
  | 0, _, _ => return []
  | _ + 1, [], _ => return []
  | fuel + 1, b :: queue, seen => do
    let table ← fn.dotTable b
    let some t := (fn.block b).term | throw .dangling
    let ins := fn.instr t
    let edges ← ins.targets.zipIdx.mapM fun (s, slot) => fn.dotEdge b ins slot s
    let fresh := ins.targets.eraseDups.filter (!seen.contains ·)
    let rest ← dotLines fn fuel (queue ++ fresh) (seen ++ fresh)
    return ("    " ++ dotNode b ++ " [ label = < " ++ table ++ " > ]") :: edges ++ rest

def dot (fn : Func) : Except Fault String := do
  let start := fn.entry?.toList
  let lines ← fn.dotLines fn.reachBound start start
  return "\n".intercalate (
    ["digraph CFG \x7b",
     "    xdotversion = \"15\"",
     "    graph [ fontname = \"Fira Code\" ]",
     "    node [ fontname = \"Fira Code\" fontsize=\"16\" shape = \"plaintext\" ]",
     "    edge [ fontname = \"Fira Code\" ]",
     "    START [ shape = \"circle\" ]"] ++
    start.map (fun b => "    START -> " ++ dotNode b) ++ lines ++ ["\x7d"])

end CodeMotion.Func
