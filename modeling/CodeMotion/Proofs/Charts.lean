import Mathlib
import CodeMotion.Proofs.Equations
import CodeMotion.Proofs.Tidy

/-! The numbered graph of a function whose successors are all attached: its nodes are the attached
blocks, its edges their successors, and its paths the walks of the function. -/

namespace CodeMotion

open Relation

namespace Func

structure Enclosed (fn : Func) : Prop where
  nodup : fn.layout.Nodup
  hasBlock : ∀ b ∈ fn.layout, fn.hasBlock b = true
  succs : ∀ b ∈ fn.layout, ∀ s ∈ fn.succs b, s ∈ fn.layout

def Exits (fn : Func) (b : BlockId) : Prop := ∃ t, ReflTransGen fn.Leads b t ∧ fn.succs t = []

variable {fn : Func} {a b : BlockId}

theorem enclosed_iff : fn.Enclosed ↔ fn.layout.Nodup ∧ (∀ b ∈ fn.layout, fn.hasBlock b = true) ∧
    ∀ b ∈ fn.layout, ∀ s ∈ fn.succs b, s ∈ fn.layout :=
  ⟨fun h => ⟨h.nodup, h.hasBlock, h.succs⟩, fun h => ⟨h.1, h.2.1, h.2.2⟩⟩

instance : Decidable fn.Enclosed := decidable_of_iff' _ enclosed_iff

namespace Enclosed

variable (h : fn.Enclosed)
include h

theorem drawable : fn.Drawable :=
  ⟨h.nodup, h.hasBlock, fun b hb s hs => h.hasBlock s (h.succs b hb s (mem_succs.2 hs))⟩

theorem mem_of_leads (ha : a ∈ fn.layout) (hr : ReflTransGen fn.Leads a b) : b ∈ fn.layout := by
  induction hr with
  | refl => exact ha
  | tail _ hl ih => exact h.succs _ ih _ hl

theorem flows_iff (ha : a ∈ fn.layout) : ReflTransGen fn.Flows a b ↔ ReflTransGen fn.Leads a b := by
  constructor
  · exact ReflTransGen.mono (fun _ _ hf => hf.2) _ _
  · intro hr
    induction hr with
    | refl => exact .refl
    | tail hr hl ih => exact ih.tail ⟨h.mem_of_leads ha hr, hl⟩

theorem attached (hb : b ∈ fn.preOrder) : b ∈ fn.layout := by
  obtain ⟨e, he, hr⟩ := mem_preOrder.1 hb
  exact h.mem_of_leads (entry_mem he) hr

theorem mem_exiting_iff (hb : b ∈ fn.layout) : b ∈ fn.exiting ↔ fn.Exits b := by
  rw [mem_exiting]
  refine exists_congr fun t => ?_
  rw [h.flows_iff hb, terminals, List.mem_filter, List.isEmpty_iff]
  constructor
  · rintro ⟨⟨-, ht⟩, hr⟩
    exact ⟨hr, ht⟩
  · rintro ⟨hr, ht⟩
    exact ⟨⟨h.mem_of_leads hb hr, ht⟩, hr⟩

end Enclosed

/-- A function as a builder leaves it, whether or not the verifier accepts it. -/
structure Built (fn : Func) : Prop extends fn.Assembled where
  hasBlock : ∀ b ∈ fn.layout, fn.hasBlock b = true
  phis : ∀ b ∈ fn.layout, ∀ i ∈ (fn.block b).phis, (fn.instr i).op = .phi
  term : ∀ b ∈ fn.layout, ∀ t ∈ (fn.block b).term, (fn.instr t).op.isTerminator = true
  arity : ∀ b ∈ fn.layout, ∀ i ∈ fn.listed b, ∀ n ∈ (fn.instr i).op.operandCount?,
    (fn.instr i).args.length = n

theorem built_iff : fn.Built ↔ fn.Assembled ∧ ∀ b ∈ fn.layout, fn.hasBlock b = true ∧
    (∀ i ∈ (fn.block b).phis, (fn.instr i).op = .phi) ∧
    (∀ t ∈ (fn.block b).term, (fn.instr t).op.isTerminator = true) ∧
    ∀ i ∈ fn.listed b, ∀ n ∈ (fn.instr i).op.operandCount?, (fn.instr i).args.length = n := by
  constructor
  · exact fun h => ⟨h.toAssembled, fun b hb => ⟨h.hasBlock b hb, h.phis b hb, h.term b hb,
      h.arity b hb⟩⟩
  · exact fun h => ⟨h.1, fun b hb => (h.2 b hb).1, fun b hb => (h.2 b hb).2.1,
      fun b hb => (h.2 b hb).2.2.1, fun b hb => (h.2 b hb).2.2.2⟩

instance : Decidable fn.Built := decidable_of_iff' _ built_iff

namespace Built

variable (h : fn.Built)
include h

theorem enclosed : fn.Enclosed := ⟨h.nodup, h.hasBlock, h.succs⟩

theorem readable : fn.Readable where
  attached b hb := by
    rw [mem_postOrder, ← mem_preOrder] at hb
    exact h.enclosed.attached hb
  store b hb i hi hop := by
    refine ⟨?_, by rw [h.arity b hb i hi 2 (by rw [hop]; rfl)]⟩
    -- neither a phi nor a terminator is a store
    rcases List.mem_append.1 hi with hi | hi
    · refine (List.mem_append.1 hi).resolve_left fun hphi => ?_
      have := h.phis b hb i hphi
      rw [hop] at this
      cases this
    · have := h.term b hb i (Option.mem_toList.1 hi)
      rw [hop] at this
      cases this
  load b hb i hi hop := by rw [h.arity b hb i hi 1 (by rw [hop]; rfl)]

end Built

theorem Sound.built (h : fn.Sound) : fn.Built where
  toAssembled := h.assembled
  hasBlock _ hb := h.hasBlock hb
  phis b hb i hi := ((h.fitting b hb).phis i hi).1
  term b hb t ht := by
    obtain ⟨u, hu, hterm⟩ := (h.fitting b hb).term
    rw [Option.mem_def, hu, Option.some.injEq] at ht
    exact ht ▸ hterm
  arity := h.arity

theorem Sound.enclosed (h : fn.Sound) : fn.Enclosed := h.built.enclosed

theorem Sound.readable (h : fn.Sound) : fn.Readable := h.built.readable

end Func

namespace Context

structure Charts (fn : Func) (c : Context) : Prop where
  enclosed : fn.Enclosed
  drawn : ∃ c₀, Drawn fn c₀ ∧ c₀.SameGraph c

variable {fn : Func} {c c₀ : Context} {s : Sets} {k j x y : Nat} {a b : BlockId} {l : List BlockId}

theorem Solved.charts (h : Solved fn c₀ c s) (he : fn.Enclosed) : Charts fn c :=
  ⟨he, c₀, h.drawn, h.graph⟩

/-- If no edge leads to the entry, control does not leave the blocks. -/
theorem Solved.enclosed (h : Solved fn c₀ c s) (h0 : ∀ x < c.edges.size, (c.edge x).target ≠ 0) :
    fn.Enclosed := by
  refine ⟨h.drawn.drawable.nodup, h.drawn.drawable.hasBlock, fun b hb t ht => ?_⟩
  obtain ⟨k, hk⟩ := List.getElem?_of_mem hb
  exact h.drawn.succ_mem (h.graph.target_ne_zero h0) hk ht

namespace Charts

variable (h : Charts fn c)
include h

theorem wired : c.Wired := h.drawn.elim fun _ hd => hd.2.wired hd.1.wired

theorem marked : c.Marked := h.drawn.elim fun _ hd => hd.2.marked hd.1.marked

theorem layout_node (hk : k < c.nodes.size) : fn.layout[k]? = some (c.node k).block := by
  obtain ⟨c₀, hd, hg⟩ := h.drawn
  rw [hg.block]
  exact hd.block_node (hg.nodes_size ▸ hk)

theorem nodes_size : c.nodes.size = fn.layout.length := by
  obtain ⟨c₀, hd, hg⟩ := h.drawn
  rw [hg.nodes_size, hd.size]

theorem block_mem (hk : k < c.nodes.size) : (c.node k).block ∈ fn.layout :=
  List.mem_of_getElem? (h.layout_node hk)

theorem block_inj (hj : j < c.nodes.size) (hk : k < c.nodes.size)
    (he : (c.node j).block = (c.node k).block) : j = k := by
  have h1 := h.layout_node hj
  rw [he, ← h.layout_node hk] at h1
  rw [h.nodes_size] at hj
  exact (List.getElem?_inj hj h.enclosed.nodup).1 h1

theorem exists_node (hb : b ∈ fn.layout) : ∃ k < c.nodes.size, (c.node k).block = b := by
  obtain ⟨k, hk⟩ := List.getElem?_of_mem hb
  have hlt : k < c.nodes.size := h.nodes_size ▸ (List.getElem?_eq_some_iff.1 hk).1
  rw [h.layout_node hlt, Option.some.injEq] at hk
  exact ⟨k, hlt, hk⟩

theorem leads (hx : x < c.edges.size) :
    fn.Leads (c.node (c.edge x).source).block (c.node (c.edge x).target).block := by
  obtain ⟨c₀, hd, hg⟩ := h.drawn
  have hx' : x < c₀.edges.size := hg.edges_size ▸ hx
  obtain ⟨a, t, ha, ht, he⟩ := hd.edge_spec hx'
  have hsource : a = (c.node (c.edge x).source).block := by
    have := h.layout_node (h.wired.source_lt x hx)
    rw [hg.source, ha, Option.some.injEq, ← hg.source] at this
    exact this
  obtain ⟨j, hj⟩ := List.getElem?_of_mem (h.enclosed.succs a (List.mem_of_getElem? ha) t ht)
  rw [hd.idxOf?_layout hj, Option.getD_some, ← hg.target] at he
  have htarget : t = (c.node (c.edge x).target).block := by
    have := h.layout_node (h.wired.target_lt x hx)
    rw [he, hj, Option.some.injEq, ← he] at this
    exact this
  rw [← hsource, ← htarget]
  exact ht

theorem exists_edge (hk : k < c.nodes.size) (hl : fn.Leads (c.node k).block b) :
    ∃ x < c.edges.size, (c.edge x).source = k ∧ (c.node (c.edge x).target).block = b := by
  obtain ⟨c₀, hd, hg⟩ := h.drawn
  obtain ⟨x, hx, hsource, htarget⟩ := hd.exists_edge (h.layout_node hk) hl
  obtain ⟨j, hj⟩ := List.getElem?_of_mem (h.enclosed.succs _ (h.block_mem hk) b hl)
  rw [hd.idxOf?_layout hj, Option.getD_some, ← hg.target] at htarget
  have hx' : x < c.edges.size := hg.edges_size ▸ hx
  refine ⟨x, hx', by rw [hg.source, hsource], ?_⟩
  have := h.layout_node (h.wired.target_lt x hx')
  rw [htarget, hj, Option.some.injEq, ← htarget] at this
  exact this.symm

theorem mem_succs_iff (hk : k < c.nodes.size) :
    a ∈ fn.succs (c.node k).block ↔ ∃ x ∈ (c.node k).succ,
      (c.node (c.edge x).target).block = a := by
  constructor
  · intro ha
    obtain ⟨x, hx, hsource, ht⟩ := h.exists_edge hk ha
    exact ⟨x, (h.wired.mem_succ k hk x).2 ⟨hx, hsource⟩, ht⟩
  · rintro ⟨x, hx, rfl⟩
    obtain ⟨hlt, rfl⟩ := (h.wired.mem_succ k hk x).1 hx
    exact h.leads hlt

theorem edge_inj (hx : x < c.edges.size) (hy : y < c.edges.size)
    (hsource : (c.edge x).source = (c.edge y).source)
    (htarget : (c.edge x).target = (c.edge y).target) : x = y := by
  obtain ⟨c₀, hd, hg⟩ := h.drawn
  rw [hg.source, hg.source] at hsource
  rw [hg.target, hg.target] at htarget
  exact hd.edge_inj h.enclosed.succs (hg.edges_size ▸ hx) (hg.edges_size ▸ hy) hsource htarget

theorem entry (h0 : 0 < c.nodes.size) : fn.entry? = some (c.node 0).block := by
  obtain ⟨c₀, hd, hg⟩ := h.drawn
  rw [hg.block]
  exact hd.entry? (hg.nodes_size ▸ h0)

theorem entry_node (he : fn.entry? = some b) : 0 < c.nodes.size ∧ (c.node 0).block = b := by
  have h0 : 0 < c.nodes.size := by
    rw [h.nodes_size]
    exact List.length_pos_of_mem (Func.entry_mem he)
  rw [h.entry h0, Option.some.injEq] at he
  exact ⟨h0, he⟩

theorem walk {π : List Nat} (hπ : c.Path π k) :
    fn.Walk (π.map fun x => (c.node (c.edge x).source).block) (c.node k).block := by
  induction hπ with
  | entry h0 => exact .entry (h.entry h0)
  | step _ hx ih =>
    rw [List.map_append]
    exact .step ih (h.leads hx)

theorem exists_path (hl : fn.Walk l b) :
    ∃ π k, c.Path π k ∧ (c.node k).block = b ∧
      (π.map fun x => (c.node (c.edge x).source).block) = l := by
  induction hl with
  | entry he =>
    obtain ⟨h0, hb⟩ := h.entry_node he
    exact ⟨[], 0, .entry h0, hb, rfl⟩
  | step _ hs ih =>
    obtain ⟨π, k, hπ, rfl, rfl⟩ := ih
    obtain ⟨x, hx, rfl, ht⟩ := h.exists_edge (hπ.lt h.wired) hs
    exact ⟨π ++ [x], _, .step hπ hx, ht, by rw [List.map_append]; rfl⟩

theorem reach_iff (hk : k < c.nodes.size) : c.Reach k ↔ (c.node k).block ∈ fn.preOrder := by
  constructor
  · rintro ⟨π, hπ⟩
    exact (h.walk hπ).reachable
  · intro hb
    obtain ⟨l, hl⟩ := Func.exists_walk hb
    obtain ⟨π, j, hπ, hj, -⟩ := h.exists_path hl
    rw [h.block_inj (hπ.lt h.wired) hk hj] at hπ
    exact ⟨π, hπ⟩

theorem exists_reach (hr : ∃ l, fn.Walk l b) :
    ∃ k, c.Reach k ∧ k < c.nodes.size ∧ (c.node k).block = b := by
  obtain ⟨l, hl⟩ := hr
  obtain ⟨π, k, hπ, hb, -⟩ := h.exists_path hl
  exact ⟨k, ⟨π, hπ⟩, hπ.lt h.wired, hb⟩

theorem exists_walk_iff (hk : k < c.nodes.size) :
    (∃ l, fn.Walk l (c.node k).block) ↔ c.Reach k := by
  constructor
  · rintro ⟨l, hl⟩
    exact (h.reach_iff hk).2 hl.reachable
  · rintro ⟨π, hπ⟩
    exact ⟨_, h.walk hπ⟩

theorem entry_iff (hk : k < c.nodes.size) : fn.entry? = some (c.node k).block ↔ k = 0 := by
  constructor
  · intro he
    obtain ⟨h0, hb⟩ := h.entry_node he
    exact (h.block_inj h0 hk hb).symm
  · rintro rfl
    exact h.entry hk

theorem exists_succ_edge (ha : a ∈ fn.layout) (hb : b ∈ fn.succs a) : ∃ x < c.edges.size,
    (c.node (c.edge x).source).block = a ∧ (c.node (c.edge x).target).block = b := by
  obtain ⟨k, hk, rfl⟩ := h.exists_node ha
  obtain ⟨x, hx, rfl, ht⟩ := h.exists_edge hk hb
  exact ⟨x, hx, rfl, ht⟩

theorem exists_reached_edge (hr : ∃ l, fn.Walk l a) (hb : b ∈ fn.succs a) :
    ∃ x < c.edges.size, c.Reach (c.edge x).source ∧
    (c.node (c.edge x).source).block = a ∧ (c.node (c.edge x).target).block = b := by
  obtain ⟨k, hk, hlt, rfl⟩ := h.exists_reach hr
  obtain ⟨x, hx, rfl, ht⟩ := h.exists_edge hlt hb
  exact ⟨x, hx, hk, rfl, ht⟩

theorem isPinned_iff (hk : k < c.nodes.size) :
    (c.node k).isPinned = true ↔ fn.succs (c.node k).block = [] ∨ ¬ fn.Exits (c.node k).block := by
  obtain ⟨c₀, hd, hg⟩ := h.drawn
  have hb := h.layout_node hk
  rw [hg.isPinned, hd.node_eq hb, ← h.enclosed.mem_exiting_iff (h.block_mem hk)]
  simp

theorem nodeOf_block (hk : k < c.nodes.size) : c.nodeOf fn (c.node k).block = .ok k :=
  nodeOf_eq hk fun _ hj he => h.block_inj hj hk he

theorem edgeOf_edge (hx : x < c.edges.size) :
    c.edgeOf fn (c.node (c.edge x).source).block (c.node (c.edge x).target).block =
      .ok (some x) := by
  unfold edgeOf
  rw [h.nodeOf_block (h.wired.source_lt x hx), h.nodeOf_block (h.wired.target_lt x hx)]
  simp only [bind, Except.bind, pure, Except.pure, Except.ok.injEq, Option.map_eq_some_iff]
  have hedge : ∀ {e : Edge} {y : Nat}, (e, y) ∈ c.edges.toList.zipIdx.reverse ↔ y < c.edges.size ∧
      c.edge y = e := by
    intro e y
    rw [List.mem_reverse, List.mem_zipIdx_iff_getElem?, Array.getElem?_toList,
      Array.getElem?_eq_some_iff]
    simp only [edge, Array.getD]
    constructor
    · rintro ⟨hy, he⟩
      exact ⟨hy, by simpa [hy] using he⟩
    · rintro ⟨hy, he⟩
      exact ⟨hy, by simpa [hy] using he⟩
  cases hf : c.edges.toList.zipIdx.reverse.find? fun q => q.1.source == (c.edge x).source &&
    q.1.target == (c.edge x).target with
  | none =>
    have := List.find?_eq_none.1 hf (c.edge x, x) (hedge.2 ⟨hx, rfl⟩)
    simp at this
  | some q =>
    obtain ⟨e, y⟩ := q
    obtain ⟨hy, rfl⟩ := hedge.1 (List.mem_of_find?_eq_some hf)
    have hq := List.find?_some hf
    simp only [Bool.and_eq_true, beq_iff_eq] at hq
    exact ⟨_, rfl, h.edge_inj hy hx hq.1 hq.2⟩

end Charts
end Context
end CodeMotion
