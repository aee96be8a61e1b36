import Mathlib
import CodeMotion.Func.Graph

/-! The blocks that the traversals of the control-flow graph collect are those that are connected by
a path: forward from the entry, backward from the blocks without successors. -/

namespace CodeMotion

open Relation

def arrows (es : List (Nat × Nat)) (b : Nat) : List Nat := (es.filter (·.1 == b)).map (·.2)

theorem mem_arrows {es : List (Nat × Nat)} {a b : Nat} : b ∈ arrows es a ↔ (a, b) ∈ es := by
  simp [arrows]

/-- Taking a node off the list costs what its arrows add. -/
theorem length_arrows_add (es : List (Nat × Nat)) (seen : List Nat) {b : Nat} (hb : b ∉ seen) :
    (arrows es b).length + (es.filter fun e => !(b :: seen).contains e.1).length =
      (es.filter fun e => !seen.contains e.1).length := by
  induction es with
  | nil => rfl
  | cons e es ih =>
    by_cases h : e.1 = b
    · subst h
      simp only [arrows, List.length_map] at ih ⊢
      simp [hb] at ih ⊢
      omega
    · simp only [arrows, List.length_map] at ih ⊢
      by_cases hs : e.1 ∈ seen
      · simp [h, hs] at ih ⊢
        omega
      · simp [h, hs] at ih ⊢
        omega

structure Closed (next : Nat → List Nat) (todo seen r : List Nat) : Prop where
  seen_mem : ∀ b ∈ seen, b ∈ r
  todo_mem : ∀ b ∈ todo, b ∈ r
  sound : ∀ b ∈ r, b ∈ seen ∨ ∃ a ∈ todo, ReflTransGen (fun x y => y ∈ next x) a b
  closed : ∀ b ∈ r, b ∈ seen ∨ ∀ y ∈ next b, y ∈ r

theorem closure_closed (es : List (Nat × Nat)) (fuel : Nat) (todo seen : List Nat)
    (hf : todo.length + (es.filter fun e => !seen.contains e.1).length ≤ fuel) :
    Closed (arrows es) todo seen (closure (arrows es) fuel todo seen) := by
  induction fuel generalizing todo seen with
  | zero =>
    have : todo = [] := List.eq_nil_of_length_eq_zero (by omega)
    subst this
    exact ⟨fun _ h => h, by simp, fun _ h => Or.inl h, fun _ h => Or.inl h⟩
  | succ fuel ih =>
    cases todo with
    | nil => exact ⟨fun _ h => h, by simp, fun _ h => Or.inl h, fun _ h => Or.inl h⟩
    | cons b todo =>
      unfold closure
      by_cases hb : b ∈ seen
      · have h := ih todo seen (by
          rw [List.length_cons] at hf
          omega)
        rw [if_pos (by simpa using hb)]
        refine ⟨h.seen_mem, ?_, ?_, h.closed⟩
        · intro x hx
          exact (List.mem_cons.1 hx).elim (fun e => h.seen_mem x (e ▸ hb)) (h.todo_mem x)
        · intro x hx
          exact (h.sound x hx).imp id fun ⟨a, ha, hr⟩ => ⟨a, by simp [ha], hr⟩
      · have hlen := length_arrows_add es seen hb
        have h := ih (arrows es b ++ todo) (b :: seen) (by
          simp only [List.length_append, List.length_cons] at hf ⊢
          omega)
        rw [if_neg (by simpa using hb)]
        refine ⟨fun x hx => h.seen_mem x (by simp [hx]), ?_, ?_, ?_⟩
        · intro x hx
          rcases List.mem_cons.1 hx with rfl | hx
          · exact h.seen_mem x (by simp)
          · exact h.todo_mem x (by simp [hx])
        · intro x hx
          rcases h.sound x hx with hs | ⟨a, ha, hr⟩
          · rcases List.mem_cons.1 hs with rfl | hs
            · exact Or.inr ⟨x, by simp, .refl⟩
            · exact Or.inl hs
          · rcases List.mem_append.1 ha with ha | ha
            · exact Or.inr ⟨b, by simp, .head ha hr⟩
            · exact Or.inr ⟨a, by simp [ha], hr⟩
        · intro x hx
          rcases h.closed x hx with hs | hc
          · rcases List.mem_cons.1 hs with rfl | hs
            · exact Or.inr fun y hy => h.todo_mem y (by simp [hy])
            · exact Or.inl hs
          · exact Or.inr hc

theorem mem_closure (es : List (Nat × Nat)) (todo : List Nat) (fuel : Nat)
    (hf : todo.length + es.length ≤ fuel) (b : Nat) :
    b ∈ closure (arrows es) fuel todo [] ↔ ∃ a ∈ todo,
      ReflTransGen (fun x y => (x, y) ∈ es) a b := by
  have h := closure_closed es fuel todo [] (by simpa using hf)
  constructor
  · intro hb
    obtain ⟨a, ha, hr⟩ := (h.sound b hb).resolve_left (by simp)
    exact ⟨a, ha, ReflTransGen.mono (fun _ _ => mem_arrows.1) _ _ hr⟩
  · rintro ⟨a, ha, hr⟩
    induction hr with
    | refl => exact h.todo_mem a ha
    | tail _ he ih => exact (h.closed _ ih).resolve_left (by simp) _ (mem_arrows.2 he)

namespace Func

def Flows (fn : Func) (a b : BlockId) : Prop := a ∈ fn.layout ∧ b ∈ fn.succs a

theorem mem_edges {fn : Func} {a b : BlockId} : (a, b) ∈ fn.edges ↔ fn.Flows a b ∧ b ≠ a := by
  simp only [edges, List.mem_flatMap, List.mem_map, List.mem_filter, bne_iff_ne,
    Prod.mk.injEq, Flows]
  constructor
  · rintro ⟨x, hx, y, ⟨hy, hne⟩, rfl, rfl⟩
    exact ⟨⟨hx, hy⟩, hne⟩
  · rintro ⟨⟨ha, hb⟩, hne⟩
    exact ⟨a, ha, b, ⟨hb, hne⟩, rfl, rfl⟩

/-- Loops of a block to itself lead nowhere new. -/
theorem reflTransGen_edges {fn : Func} {a b : BlockId} :
    ReflTransGen (fun x y => (x, y) ∈ fn.edges) a b ↔ ReflTransGen fn.Flows a b := by
  refine ⟨ReflTransGen.mono (fun _ _ he => (mem_edges.1 he).1) _ _, fun h => ?_⟩
  induction h with
  | refl => exact .refl
  | @tail x y _ he ih =>
    by_cases hxy : y = x
    · exact hxy ▸ ih
    · exact ih.tail (mem_edges.2 ⟨he, hxy⟩)

theorem mem_reached {fn : Func} {b : BlockId} :
    b ∈ fn.reached ↔ ∃ e ∈ fn.entry?, ReflTransGen fn.Flows e b := by
  have hlen : fn.entry?.toList.length ≤ 1 := by cases fn.entry? <;> simp
  have h := mem_closure fn.edges fn.entry?.toList (1 + fn.edges.length) (by omega) b
  simp only [Option.mem_toList, reflTransGen_edges] at h
  exact h

theorem backward_eq (fn : Func) : fn.backward = arrows (fn.edges.map Prod.swap) := by
  funext b
  simp [backward, arrows, List.filter_map, Function.comp_def]

theorem mem_exiting {fn : Func} {b : BlockId} :
    b ∈ fn.exiting ↔ ∃ t ∈ fn.terminals, ReflTransGen fn.Flows b t := by
  have h :=
    mem_closure (fn.edges.map Prod.swap) fn.terminals (fn.terminals.length + fn.edges.length)
      (by simp) b
  unfold exiting
  rw [backward_eq, h]
  refine exists_congr fun t => and_congr Iff.rfl ?_
  have hswap : (fun x y => (x, y) ∈ fn.edges.map Prod.swap) = Function.swap fun x y =>
      (x, y) ∈ fn.edges := by
    funext x y
    simp [Function.swap]
  rw [hswap, reflTransGen_swap, reflTransGen_edges]

end Func
end CodeMotion
