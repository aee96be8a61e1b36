import Mathlib
import CodeMotion.Context.Basic
import CodeMotion.Proofs.Reachability

/-! The numbered graph of a context. Its edges join the numbers of attached blocks, the marks for
reachable and pinned blocks say what they should, and from every block a pinned one can be reached.
Later phases keep the graph. -/

namespace CodeMotion

open Relation

namespace Func

structure Drawable (fn : Func) : Prop where
  nodup : fn.layout.Nodup
  hasBlock : ∀ b ∈ fn.layout, fn.hasBlock b = true
  targets : ∀ b ∈ fn.layout, ∀ s ∈ fn.targets b, fn.hasBlock s = true

theorem checkBlock_ok {fn : Func} {b : BlockId} :
    fn.checkBlock b = .ok () ↔ fn.hasBlock b = true := by
  unfold checkBlock
  split <;> simp_all

theorem checkNodes_ok {fn : Func} {seen l : List BlockId} :
    fn.checkNodes seen l = .ok () ↔ l.Nodup ∧ (∀ b ∈ l, b ∉ seen) ∧ ∀ b ∈ l,
      fn.hasBlock b = true := by
  induction l generalizing seen with
  | nil => simp [checkNodes]
  | cons a t ih =>
    have hbind : fn.checkNodes seen (a :: t) = .ok () ↔
        fn.checkBlock a = .ok () ∧ a ∉ seen ∧ fn.checkNodes (a :: seen) t = .ok () := by
      rw [show fn.checkNodes seen (a :: t) = (fn.checkBlock a >>= fun _ =>
        if seen.contains a then .error (.repeatedBlock a) else fn.checkNodes (a :: seen) t)
          from rfl]
      cases h : fn.checkBlock a with
      | error e => simp [bind, Except.bind]
      | ok u => by_cases ha : a ∈ seen <;> simp [bind, Except.bind, ha]
    rw [hbind, checkBlock_ok, ih, List.nodup_cons]
    simp only [List.mem_cons, forall_eq_or_imp, not_or]
    constructor
    · rintro ⟨h1, h2, h3, h4, h5⟩
      exact ⟨⟨fun h => (h4 a h).1 rfl, h3⟩, ⟨h2, fun b hb => (h4 b hb).2⟩, h1, h5⟩
    · rintro ⟨⟨h1, h2⟩, ⟨h3, h4⟩, h5, h6⟩
      exact ⟨h5, h3, h2, fun b hb => ⟨fun e => h1 (e ▸ hb), h4 b hb⟩, h6⟩

theorem checkGraph_ok {fn : Func} : fn.checkGraph = .ok () ↔ fn.Drawable := by
  have hbind : fn.checkGraph = .ok () ↔ fn.checkNodes [] fn.layout = .ok () ∧
      fn.layout.any fn.dangles = false := by
    unfold checkGraph
    cases h : fn.checkNodes [] fn.layout with
    | error e => simp [bind, Except.bind]
    | ok u => cases hd : fn.layout.any fn.dangles <;> simp [bind, Except.bind]
  rw [hbind, checkNodes_ok]
  simp only [dangles, List.any_eq_false, Bool.not_eq_true, Bool.not_eq_false', List.not_mem_nil,
    not_false_eq_true, implies_true, true_and]
  exact ⟨fun h => ⟨h.1.1, h.1.2, h.2⟩, fun h => ⟨⟨h.nodup, h.hasBlock⟩, h.targets⟩⟩

theorem mem_succs {fn : Func} {b s : BlockId} : s ∈ fn.succs b ↔ s ∈ fn.targets b :=
  List.mem_eraseDups

end Func

namespace Context

/-- The lists of edges at a node are those of the edges that start and end there. -/
structure Wired (c : Context) : Prop where
  source_lt : ∀ x < c.edges.size, (c.edge x).source < c.nodes.size
  target_lt : ∀ x < c.edges.size, (c.edge x).target < c.nodes.size
  mem_succ : ∀ k < c.nodes.size, ∀ x, x ∈ (c.node k).succ ↔ x < c.edges.size ∧ (c.edge x).source = k
  mem_pred : ∀ k < c.nodes.size, ∀ x, x ∈ (c.node k).pred ↔ x < c.edges.size ∧ (c.edge x).target = k
  nodup_succ : ∀ k < c.nodes.size, (c.node k).succ.Nodup

/-- A path from the entry, as the list of its edges, and the node it ends at. -/
inductive Path (c : Context) : List Nat → Nat → Prop
  | entry (h : 0 < c.nodes.size) : Path c [] 0
  | step {π : List Nat} {x : Nat} (h : Path c π (c.edge x).source) (hx : x < c.edges.size) :
    Path c (π ++ [x]) (c.edge x).target

inductive Ends (c : Context) : Nat → Prop
  | pinned {k : Nat} (hk : k < c.nodes.size) (h : (c.node k).isPinned = true) : Ends c k
  | step {x : Nat} (hx : x < c.edges.size) (h : Ends c (c.edge x).target) : Ends c (c.edge x).source

structure Marked (c : Context) : Prop extends c.Wired where
  reachable_iff : ∀ k < c.nodes.size, (c.node k).isReachable = true ↔ ∃ π, c.Path π k
  ends : ∀ k < c.nodes.size, c.Ends k

structure SameGraph (c d : Context) : Prop where
  nodes_size : d.nodes.size = c.nodes.size
  edges_size : d.edges.size = c.edges.size
  source : ∀ x, (d.edge x).source = (c.edge x).source
  target : ∀ x, (d.edge x).target = (c.edge x).target
  split : ∀ x, (d.edge x).split = (c.edge x).split
  block : ∀ k, (d.node k).block = (c.node k).block
  isReachable : ∀ k, (d.node k).isReachable = (c.node k).isReachable
  isPinned : ∀ k, (d.node k).isPinned = (c.node k).isPinned
  succ : ∀ k, (d.node k).succ = (c.node k).succ
  pred : ∀ k, (d.node k).pred = (c.node k).pred

theorem Path.lt {c : Context} (hc : c.Wired) {π : List Nat} {k : Nat} (h : c.Path π k) :
    k < c.nodes.size := by
  cases h with
  | entry h => exact h
  | step _ hx => exact hc.target_lt _ hx

theorem path_snoc {c : Context} {π : List Nat} {x k : Nat} :
    c.Path (π ++ [x]) k ↔ c.Path π (c.edge x).source ∧ x < c.edges.size ∧
      k = (c.edge x).target := by
  constructor
  · intro h
    generalize hm : π ++ [x] = m at h
    cases h with
    | entry _ => simp at hm
    | step h hx =>
      obtain ⟨rfl, hxy⟩ := List.append_inj' hm rfl
      rw [List.singleton_inj] at hxy
      subst hxy
      exact ⟨h, hx, rfl⟩
  · rintro ⟨h, hx, rfl⟩
    exact .step h hx

/-- The end of a path is known from its edges. -/
theorem Path.unique {c : Context} {π : List Nat} {j k : Nat} (h : c.Path π j) (h' : c.Path π k) :
    j = k := by
  cases h with
  | entry _ =>
    generalize hm : ([] : List Nat) = m at h'
    cases h' with
    | entry _ => rfl
    | step _ _ => simp at hm
  | step _ _ => exact (path_snoc.1 h').2.2.symm

theorem Path.edge_lt {c : Context} {π : List Nat} {k : Nat} (h : c.Path π k) :
    ∀ x ∈ π, x < c.edges.size := by
  induction h with
  | entry _ => simp
  | step _ hx ih =>
    intro y hy
    rcases List.mem_append.1 hy with hy | hy
    · exact ih y hy
    · exact List.mem_singleton.1 hy ▸ hx

theorem Path.cut {c : Context} {π ρ : List Nat} {x k : Nat} (h : c.Path (π ++ x :: ρ) k) :
    c.Path π (c.edge x).source := by
  induction ρ using List.reverseRecOn generalizing k with
  | nil => exact (path_snoc.1 h).1
  | append_singleton ρ y ih =>
    rw [← List.cons_append, ← List.append_assoc] at h
    exact ih (path_snoc.1 h).1

/-- A path can be cut off where it comes to its last node for the first time. -/
theorem Path.first {c : Context} {π : List Nat} {k : Nat} (h : c.Path π k) :
    ∃ π', π' <+: π ∧ c.Path π' k ∧ ∀ x ∈ π', (c.edge x).source ≠ k := by
  induction hn : π.length using Nat.strong_induction_on generalizing π with
  | _ n ih =>
    by_cases hall : ∀ x ∈ π, (c.edge x).source ≠ k
    · exact ⟨π, List.prefix_refl _, h, hall⟩
    · push Not at hall
      obtain ⟨x, hx, hk⟩ := hall
      obtain ⟨π₁, π₂, rfl⟩ := List.append_of_mem hx
      have hcut := h.cut
      rw [hk] at hcut
      obtain ⟨π', hpre, hp, hfirst⟩ :=
        ih π₁.length (by rw [← hn, List.length_append, List.length_cons]; omega) hcut rfl
      exact ⟨π', hpre.trans (List.prefix_append _ _), hp, hfirst⟩

/-- No edge is on every path to its own source. -/
theorem Path.exists_avoiding {c : Context} {π : List Nat} {x : Nat}
    (h : c.Path π (c.edge x).source) : ∃ π', c.Path π' (c.edge x).source ∧ x ∉ π' := by
  obtain ⟨π', -, hp, hfirst⟩ := h.first
  exact ⟨π', hp, fun hx => hfirst x hx rfl⟩

theorem SameGraph.refl (c : Context) : c.SameGraph c :=
  ⟨rfl, rfl, fun _ => rfl, fun _ => rfl, fun _ => rfl, fun _ => rfl, fun _ => rfl, fun _ => rfl,
    fun _ => rfl, fun _ => rfl⟩

theorem SameGraph.trans {a b c : Context} (h : a.SameGraph b) (h' : b.SameGraph c) :
    a.SameGraph c :=
  ⟨h'.nodes_size.trans h.nodes_size, h'.edges_size.trans h.edges_size,
    fun x => (h'.source x).trans (h.source x),
    fun x => (h'.target x).trans (h.target x), fun x => (h'.split x).trans (h.split x), fun k =>
      (h'.block k).trans (h.block k), fun k => (h'.isReachable k).trans (h.isReachable k), fun k =>
      (h'.isPinned k).trans (h.isPinned k),
    fun k => (h'.succ k).trans (h.succ k), fun k => (h'.pred k).trans (h.pred k)⟩

theorem SameGraph.of_eq {c d : Context} (hn : d.nodes = c.nodes) (he : d.edges = c.edges) :
    c.SameGraph d := by
  refine ⟨by rw [hn], by rw [he], ?_, ?_, ?_, ?_, ?_, ?_, ?_, ?_⟩ <;> intro <;>
    simp [node, edge, hn, he]

theorem SameGraph.path {c d : Context} (h : c.SameGraph d) {π : List Nat} {k : Nat}
    (hp : c.Path π k) : d.Path π k := by
  induction hp with
  | entry h0 => exact .entry (h.nodes_size ▸ h0)
  | @step π x _ hx ih =>
    rw [← h.source x] at ih
    rw [← h.target x]
    exact .step ih (h.edges_size ▸ hx)

theorem SameGraph.symm {c d : Context} (h : c.SameGraph d) : d.SameGraph c :=
  ⟨h.nodes_size.symm, h.edges_size.symm, fun x => (h.source x).symm, fun x => (h.target x).symm,
    fun x => (h.split x).symm,
    fun k => (h.block k).symm, fun k => (h.isReachable k).symm, fun k => (h.isPinned k).symm,
    fun k => (h.succ k).symm, fun k => (h.pred k).symm⟩

theorem SameGraph.path_iff {c d : Context} (h : c.SameGraph d) {π : List Nat} {k : Nat} :
    d.Path π k ↔ c.Path π k :=
  ⟨h.symm.path, h.path⟩

/-- No edge leads to the entry of one graph if none leads to the entry of the other. -/
theorem SameGraph.target_ne_zero {c d : Context} (h : c.SameGraph d)
    (h0 : ∀ x < d.edges.size, (d.edge x).target ≠ 0) :
    ∀ x < c.edges.size, (c.edge x).target ≠ 0 := by
  intro x hx
  rw [← h.target]
  exact h0 x (h.edges_size ▸ hx)

theorem SameGraph.wired {c d : Context} (h : c.SameGraph d) (hc : c.Wired) : d.Wired where
  source_lt x hx := by
    rw [h.source, h.nodes_size]
    exact hc.source_lt x (h.edges_size ▸ hx)
  target_lt x hx := by
    rw [h.target, h.nodes_size]
    exact hc.target_lt x (h.edges_size ▸ hx)
  mem_succ k hk x := by
    rw [h.succ, h.source, h.edges_size]
    exact hc.mem_succ k (h.nodes_size ▸ hk) x
  mem_pred k hk x := by
    rw [h.pred, h.target, h.edges_size]
    exact hc.mem_pred k (h.nodes_size ▸ hk) x
  nodup_succ k hk := by
    rw [h.succ]
    exact hc.nodup_succ k (h.nodes_size ▸ hk)

theorem SameGraph.ends {c d : Context} (h : c.SameGraph d) {k : Nat} (hk : c.Ends k) :
    d.Ends k := by
  induction hk with
  | pinned hk hp => exact .pinned (h.nodes_size ▸ hk) ((h.isPinned _).trans hp)
  | step hx _ ih =>
    rw [← h.target] at ih
    rw [← h.source]
    exact .step (h.edges_size ▸ hx) ih

theorem SameGraph.marked {c d : Context} (h : c.SameGraph d) (hc : c.Marked) : d.Marked where
  toWired := h.wired hc.toWired
  reachable_iff k hk := by
    rw [h.isReachable, hc.reachable_iff k (h.nodes_size ▸ hk)]
    exact exists_congr fun π => h.path_iff.symm
  ends k hk := h.ends (hc.ends k (h.nodes_size ▸ hk))

/-! The context that a function starts with. -/

theorem mem_edgesOf {fn : Func} {e : Edge} : e ∈ edgesOf fn ↔
    ∃ b i s, fn.layout[i]? = some b ∧ s ∈ fn.succs b ∧
      e = { source := i, target := (fn.layout.idxOf? s).getD 0 } := by
  simp only [edgesOf, List.mem_flatMap, List.mem_map, Prod.exists, List.mem_zipIdx_iff_getElem?]
  constructor
  · rintro ⟨b, i, hb, s, hs, rfl⟩
    exact ⟨b, i, s, hb, hs, rfl⟩
  · rintro ⟨b, i, s, hb, hs, rfl⟩
    exact ⟨b, i, hb, s, hs, rfl⟩

structure Drawn (fn : Func) (c : Context) : Prop where
  drawable : fn.Drawable
  nodes : c.nodes = (nodesOf fn (edgesOf fn)).toArray
  edges : c.edges = (edgesOf fn).toArray

/-- A context holds the graph of a drawable function and its options, and nothing else yet. -/
theorem ofFunc_eq_ok {fn : Func} {o : Options} {c : Context} : ofFunc fn o = .ok c ↔
    fn.Drawable ∧ c =
      { options := o, nodes := (nodesOf fn (edgesOf fn)).toArray,
        edges := (edgesOf fn).toArray } := by
  unfold ofFunc
  rw [← Func.checkGraph_ok]
  cases fn.checkGraph with
  | error e => simp [bind, Except.bind]
  | ok u => simp [bind, Except.bind, pure, Except.pure, eq_comm]

theorem ofFunc_drawn {fn : Func} {o : Options} {c : Context} (h : ofFunc fn o = .ok c) :
    Drawn fn c := by
  obtain ⟨hd, rfl⟩ := ofFunc_eq_ok.1 h
  exact ⟨hd, rfl, rfl⟩

namespace Drawn

variable {fn : Func} {c : Context}

theorem size (h : Drawn fn c) : c.nodes.size = fn.layout.length := by
  simp [h.nodes, nodesOf]

theorem node_eq (h : Drawn fn c) {k : Nat} {b : BlockId} (hb : fn.layout[k]? = some b) :
    c.node k =
      { block := b
        isReachable := fn.reached.contains b
        isPinned := (fn.succs b).isEmpty || !fn.exiting.contains b
        succ := ((edgesOf fn).zipIdx.filter (·.1.source == k)).map (·.2)
        pred := ((edgesOf fn).zipIdx.filter (·.1.target == k)).map (·.2) } := by
  have : (nodesOf fn (edgesOf fn))[k]? = some (c.node k) := by
    have hk : k < c.nodes.size := by
      rw [h.size]
      exact (List.getElem?_eq_some_iff.1 hb).1
    simp [node, Array.getD, h.nodes] at hk ⊢
    simp [hk]
  simp only [nodesOf, List.getElem?_map, List.getElem?_zipIdx, hb, Option.map_some,
    Option.some.injEq] at this
  rw [← this, Nat.zero_add]

theorem block_node (h : Drawn fn c) {k : Nat} (hk : k < c.nodes.size) :
    fn.layout[k]? = some (c.node k).block := by
  rw [h.size] at hk
  have := h.node_eq (List.getElem?_eq_getElem hk)
  rw [this, List.getElem?_eq_getElem hk]

theorem edge_mem (h : Drawn fn c) {x : Nat} (hx : x < c.edges.size) :
    (edgesOf fn)[x]? = some (c.edge x) := by
  simp [edge, Array.getD, h.edges] at hx ⊢
  simp [hx]

theorem edge_size (h : Drawn fn c) : c.edges.size = (edgesOf fn).length := by simp [h.edges]

theorem edge_of_getElem? (h : Drawn fn c) {x : Nat} {e : Edge} (he : (edgesOf fn)[x]? = some e) :
    x < c.edges.size ∧ c.edge x = e := by
  have hx : x < c.edges.size := by
    rw [h.edge_size]
    exact (List.getElem?_eq_some_iff.1 he).1
  exact ⟨hx, by simpa [he] using (h.edge_mem hx).symm⟩

/-- An edge joins a block to one of its successors; a successor that is not attached counts as the
first block. -/
theorem edge_spec (h : Drawn fn c) {x : Nat} (hx : x < c.edges.size) :
    ∃ b s, fn.layout[(c.edge x).source]? = some b ∧ s ∈ fn.succs b ∧
      (c.edge x).target = (fn.layout.idxOf? s).getD 0 := by
  obtain ⟨b, i, s, hb, hs, he⟩ := mem_edgesOf.1 (List.mem_of_getElem? (h.edge_mem hx))
  exact ⟨b, s, by rw [he]; exact hb, hs, by rw [he]⟩

theorem split_eq_none (h : Drawn fn c) (x : Nat) : (c.edge x).split = none := by
  by_cases hx : x < c.edges.size
  · obtain ⟨b, i, s, -, -, he⟩ := mem_edgesOf.1 (List.mem_of_getElem? (h.edge_mem hx))
    rw [he]
  · simp [edge, Array.getD, hx]
    rfl

theorem exists_edge (h : Drawn fn c) {k : Nat} {b s : BlockId} (hb : fn.layout[k]? = some b)
    (hs : s ∈ fn.succs b) :
    ∃ x < c.edges.size, (c.edge x).source = k ∧
      (c.edge x).target = (fn.layout.idxOf? s).getD 0 := by
  have hm := mem_edgesOf.2 ⟨b, k, s, hb, hs, rfl⟩
  obtain ⟨x, hx⟩ := List.getElem?_of_mem hm
  obtain ⟨hlt, he⟩ := h.edge_of_getElem? hx
  exact ⟨x, hlt, by rw [he], by rw [he]⟩

/-- If no edge leads to the entry, all successors are attached. -/
theorem succ_mem (h : Drawn fn c) (h0 : ∀ x < c.edges.size, (c.edge x).target ≠ 0) {k : Nat}
    {b s : BlockId} (hb : fn.layout[k]? = some b) (hs : s ∈ fn.succs b) : s ∈ fn.layout := by
  obtain ⟨x, hx, -, htarget⟩ := h.exists_edge hb hs
  by_contra hno
  rw [List.idxOf?_eq_none_iff.2 hno] at htarget
  exact h0 x hx htarget

theorem idxOf?_layout (h : Drawn fn c) {k : Nat} {b : BlockId} (hb : fn.layout[k]? = some b) :
    fn.layout.idxOf? b = some k := by
  obtain ⟨hk, rfl⟩ := List.getElem?_eq_some_iff.1 hb
  refine List.idxOf?_eq_some_iff.2 ⟨hk, rfl, fun j hj he => ?_⟩
  have := (List.Nodup.getElem_inj_iff h.drawable.nodup).1 he
  omega

theorem target_lt (h : Drawn fn c) {x : Nat} (hx : x < c.edges.size) :
    (c.edge x).target < c.nodes.size := by
  obtain ⟨b, s, hb, hs, ht⟩ := h.edge_spec hx
  rw [ht, h.size]
  cases hi : fn.layout.idxOf? s with
  | none =>
    have := (List.getElem?_eq_some_iff.1 hb).1
    simp only [Option.getD_none]
    omega
  | some i => exact (List.idxOf?_eq_some_iff.1 hi).1

/-- The numbers of the edges with one end at a node. -/
theorem mem_edgesAt (h : Drawn fn c) (side : Edge → Nat) {k x : Nat} :
    x ∈ ((edgesOf fn).zipIdx.filter (side ·.1 == k)).map (·.2) ↔ x < c.edges.size ∧
      side (c.edge x) = k := by
  simp only [List.mem_map, List.mem_filter, List.mem_zipIdx_iff_getElem?, beq_iff_eq, Prod.exists]
  constructor
  · rintro ⟨e, y, ⟨he, hs⟩, rfl⟩
    obtain ⟨hy, hey⟩ := h.edge_of_getElem? he
    exact ⟨hy, by rw [hey]; exact hs⟩
  · rintro ⟨hx, hs⟩
    exact ⟨c.edge x, x, ⟨h.edge_mem hx, hs⟩, rfl⟩

theorem wired (h : Drawn fn c) : c.Wired where
  source_lt x hx := by
    obtain ⟨b, s, hb, -⟩ := h.edge_spec hx
    rw [h.size]
    exact (List.getElem?_eq_some_iff.1 hb).1
  target_lt x hx := h.target_lt hx
  mem_succ k hk x := by
    rw [h.node_eq (h.block_node hk)]
    exact h.mem_edgesAt Edge.source
  mem_pred k hk x := by
    rw [h.node_eq (h.block_node hk)]
    exact h.mem_edgesAt Edge.target
  nodup_succ k hk := by
    rw [h.node_eq (h.block_node hk)]
    exact (List.filter_sublist.map _).nodup (List.nodup_zipIdx_map_snd _)

theorem entry? (h : Drawn fn c) (h0 : 0 < c.nodes.size) : fn.entry? = some (c.node 0).block := by
  have hb := h.block_node h0
  have := h.drawable.hasBlock _ (List.mem_of_getElem? hb)
  simp [Func.entry?, List.head?_eq_getElem?, hb, this]

/-- A path of blocks from the entry to an attached block is a path of the context. -/
theorem path_of_flows (h : Drawn fn c) {e b : BlockId} (he : fn.entry? = some e)
    (hr : ReflTransGen fn.Flows e b) : ∀ k, fn.layout[k]? = some b → ∃ π, c.Path π k := by
  have h0 : 0 < c.nodes.size := by
    rw [h.size, List.length_pos_iff]
    rintro hn
    simp [Func.entry?, hn] at he
  rw [h.entry? h0, Option.some.injEq] at he
  subst he
  induction hr with
  | refl =>
    intro k hk
    have h1 := h.idxOf?_layout hk
    have h2 := h.idxOf?_layout (h.block_node h0)
    rw [h1, Option.some.injEq] at h2
    exact h2 ▸ ⟨[], .entry h0⟩
  | @tail a s _ hf ih =>
    intro k hk
    obtain ⟨i, hi⟩ := List.getElem?_of_mem hf.1
    obtain ⟨π, hπ⟩ := ih i hi
    obtain ⟨x, hx, hs, ht⟩ := h.exists_edge hi hf.2
    rw [h.idxOf?_layout hk, Option.getD_some] at ht
    rw [← hs] at hπ
    exact ⟨π ++ [x], ht ▸ .step hπ hx⟩

theorem flows_of_path (h : Drawn fn c) {π : List Nat} {k : Nat} (hp : c.Path π k) :
    ∃ e ∈ fn.entry?, ReflTransGen fn.Flows e (c.node k).block := by
  induction hp with
  | entry h0 => exact ⟨_, h.entry? h0, .refl⟩
  | @step π x hp hx ih =>
    obtain ⟨e, he, hr⟩ := ih
    obtain ⟨b, s, hb, hs, ht⟩ := h.edge_spec hx
    have hbk := h.block_node (h.wired.source_lt x hx)
    rw [hb, Option.some.injEq] at hbk
    cases hi : fn.layout.idxOf? s with
    | none =>
      rw [hi, Option.getD_none] at ht
      rw [ht]
      exact ⟨_, h.entry? (ht ▸ h.target_lt hx), .refl⟩
    | some i =>
      rw [hi, Option.getD_some] at ht
      have hbi := h.block_node (h.target_lt hx)
      obtain ⟨hlt, hbs, -⟩ := List.idxOf?_eq_some_iff.1 hi
      rw [ht, List.getElem?_eq_getElem hlt, hbs, Option.some.injEq] at hbi
      refine ⟨e, he, hr.tail ⟨List.mem_of_getElem? (hbk ▸ hb), ?_⟩⟩
      rw [ht, ← hbi, ← hbk]
      exact hs

theorem ends_of_flows (h : Drawn fn c) {b t : BlockId} (hr : ReflTransGen fn.Flows b t)
    (ht : t ∈ fn.terminals) : ∀ k, fn.layout[k]? = some b → c.Ends k := by
  obtain ⟨htl, hts⟩ := List.mem_filter.1 ht
  induction hr using ReflTransGen.head_induction_on with
  | refl =>
    intro k hk
    refine .pinned ?_ ?_
    · rw [h.size]
      exact (List.getElem?_eq_some_iff.1 hk).1
    · rw [h.node_eq hk]
      simp [hts]
  | @head a s hf hr ih =>
    intro k hk
    have hsl : s ∈ fn.layout := by
      rcases hr.cases_head with rfl | ⟨y, hy, -⟩
      · exact htl
      · exact hy.1
    obtain ⟨j, hj⟩ := List.getElem?_of_mem hsl
    obtain ⟨x, hx, hs, ht⟩ := h.exists_edge hk hf.2
    rw [h.idxOf?_layout hj, Option.getD_some] at ht
    rw [← hs]
    exact .step hx (ht ▸ ih j hj)

theorem marked (h : Drawn fn c) : c.Marked where
  toWired := h.wired
  reachable_iff k hk := by
    have hb := h.block_node hk
    rw [h.node_eq hb]
    simp only [List.contains_iff_mem]
    rw [Func.mem_reached]
    constructor
    · rintro ⟨e, he, hr⟩
      exact h.path_of_flows he hr k hb
    · rintro ⟨π, hπ⟩
      exact h.flows_of_path hπ
  ends k hk := by
    have hb := h.block_node hk
    by_cases hx : (c.node k).block ∈ fn.exiting
    · obtain ⟨t, ht, hr⟩ := Func.mem_exiting.1 hx
      exact h.ends_of_flows hr ht k hb
    · refine .pinned hk ?_
      rw [h.node_eq hb]
      simp [hx]

end Drawn
end Context
end CodeMotion
