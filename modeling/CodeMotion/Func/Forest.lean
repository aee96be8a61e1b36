import CodeMotion.Func.Search

/-! Immediate dominators by the method of Lengauer and Tarjan, on the numbers of a depth-first
search. From the last number to the first each node gets its semidominator, the first node from
which a path through later nodes leads to it, and the immediate dominators follow from these. -/

namespace CodeMotion

/-- The search tree as far as it was linked, and what is known about its nodes. The way from a node
to the root of its tree may have been shortened. -/
structure Forest where
  /-- The semidominators, for a node that was not visited the node itself. -/
  semi : Array Nat
  /-- On the part of the way that leads to the ancestor, the node with the least semidominator. -/
  label : Array Nat
  ancestor : Array (Option Nat)
  /-- The nodes with a given semidominator whose dominator is not known yet. -/
  bucket : Array (List Nat)
  /-- The immediate dominator, or a node that has the same one. -/
  dom : Array Nat

namespace Forest

def init (n : Nat) : Forest where
  semi := .range n
  label := .range n
  ancestor := .replicate n none
  bucket := .replicate n []
  dom := .replicate n 0

/-- Makes the root of its tree the ancestor of a node. -/
def compress : Nat → Nat → Forest → Forest
  | 0, _, s => s
  | fuel + 1, v, s =>
    match s.ancestor.getD v none with
    | none => s
    | some a =>
      if (s.ancestor.getD a none).isNone then s
      else
        let s := compress fuel a s
        let old := s.label.getD v 0
        let new := s.label.getD a 0
        { s with
          label := if s.semi.getD new 0 < s.semi.getD old 0 then s.label.setIfInBounds v new
            else s.label
          ancestor := s.ancestor.setIfInBounds v (s.ancestor.getD a none) }

/-- The node with the least semidominator on the way to the root, which does not count; a root
itself. -/
def eval (s : Forest) (v : Nat) : Nat × Forest :=
  if (s.ancestor.getD v none).isNone then (v, s)
  else
    let s := s.compress v v
    (s.label.getD v 0, s)

/-- Takes one predecessor into account for the semidominator of a node. -/
def lower (w : Nat) (s : Forest) (v : Nat) : Forest :=
  let (u, s) := s.eval v
  { s with semi := s.semi.setIfInBounds w (min (s.semi.getD w 0) (s.semi.getD u 0)) }

def link (s : Forest) (q w : Nat) : Forest :=
  { s with ancestor := s.ancestor.setIfInBounds w (some q) }

/-- Puts a node into the bucket of its semidominator. -/
def defer (s : Forest) (w : Nat) : Forest :=
  let k := s.semi.getD w 0
  { s with bucket := s.bucket.setIfInBounds k (w :: s.bucket.getD k []) }

/-- Finds the dominator of a node of the bucket of `q`, or a node that has the same one. -/
def assign (q : Nat) (s : Forest) (v : Nat) : Forest :=
  let (u, s) := s.eval v
  { s with dom := s.dom.setIfInBounds v (if s.semi.getD u 0 < s.semi.getD v 0 then u else q) }

/-- Empties the bucket of a node. -/
def settle (s : Forest) (q : Nat) : Forest :=
  let s := (s.bucket.getD q []).foldl (assign q) s
  { s with bucket := s.bucket.setIfInBounds q [] }

def visit (g : Search) (s : Forest) (w : Nat) : Forest :=
  let q := g.parents.getD w 0
  ((((g.preds.getD w []).foldl (lower w) s).link q w).defer w).settle q

/-- Visits all nodes but the root, the last one first. -/
def ofSearch (g : Search) : Forest :=
  (List.range' 1 (g.preds.size - 1)).reverse.foldl (visit g) (.init g.preds.size)

/-- Puts the immediate dominator in the place of a node that has the same one. -/
def resolve (s : Forest) (dom : Array Nat) (w : Nat) : Array Nat :=
  let d := dom.getD w 0
  if d = s.semi.getD w 0 then dom else dom.setIfInBounds w (dom.getD d 0)

/-- The immediate dominators, the first node first. -/
def idoms (s : Forest) : Array Nat := (List.range' 1 (s.dom.size - 1)).foldl s.resolve s.dom

end Forest

end CodeMotion
