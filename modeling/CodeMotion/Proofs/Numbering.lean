import Mathlib
import CodeMotion.Context.Numbering
import CodeMotion.Proofs.Catalog
import CodeMotion.Proofs.Graph
import CodeMotion.Proofs.Sets
import CodeMotion.Proofs.Traversal

/-! The first phase numbers the movable instructions of every block that the order of the traversal
names, keeps the graph, and makes all sets for that many expressions. -/

namespace CodeMotion.Context

variable {fn : Func} {c d : Context} {k : Nat} {i : InstrId}

def body (fn : Func) (c : Context) (k : Nat) : List InstrId := (fn.block (c.node k).block).body

theorem node_modify {f : Node → Node} (h : d.nodes = c.nodes.modify k f) (j : Nat) :
    d.node j = if k = j ∧ k < c.nodes.size then f (c.node j) else c.node j := by
  unfold node
  rw [h]
  by_cases hj : j < c.nodes.size
  · by_cases hkj : k = j
    · subst hkj
      simp [Array.getD, hj, Array.getElem_modify]
    · simp [Array.getD, hj, hkj, Array.getElem_modify]
  · have : ¬ (k = j ∧ k < c.nodes.size) := fun hk => hj (hk.1 ▸ hk.2)
    simp [Array.getD, hj, this]

structure Node.SamePlace (f : Node → Node) : Prop where
  block : ∀ n, (f n).block = n.block
  isReachable : ∀ n, (f n).isReachable = n.isReachable
  isPinned : ∀ n, (f n).isPinned = n.isPinned
  succ : ∀ n, (f n).succ = n.succ
  pred : ∀ n, (f n).pred = n.pred

theorem sameGraph_modify {f : Node → Node} (h : d.nodes = c.nodes.modify k f)
    (he : d.edges = c.edges) (hf : Node.SamePlace f) : c.SameGraph d := by
  refine ⟨by rw [h]; simp, by rw [he], fun x => by simp [edge, he], fun x => by simp [edge, he],
    fun x => by simp [edge, he], ?_, ?_, ?_, ?_, ?_⟩ <;>
    intro j <;> rw [node_modify h] <;> split <;> simp [hf.block, hf.isReachable, hf.isPinned,
      hf.succ, hf.pred]

theorem body_eq (h : c.SameGraph d) (k : Nat) : d.body fn k = c.body fn k := by simp [body, h.block]

/-- What holds while the instructions of the blocks `done` are numbered. -/
structure Numbering (fn : Func) (c₀ : Context) (done : List Nat) (c : Context) : Prop where
  graph : c₀.SameGraph c
  sets : c.sets = c₀.sets
  options : c.options = c₀.options
  overflow : c.overflow = c₀.overflow
  sites : ∀ k, (c.node k).sites = (c₀.node k).sites
  lawful : c.catalog.Lawful fn
  locals_sound : ∀ k, ∀ e ∈ (c.node k).locals, ∃ i ∈ c₀.body fn k, fn.exprAt c.catalog i = some e
  locals_complete : ∀ k ∈ done, k < c.nodes.size → ∀ i ∈ c₀.body fn k,
    (fn.instr i).op.isMovable = true →
    ∃ e ∈ (c.node k).locals, fn.exprAt c.catalog i = some e

structure Extends (c d : Context) : Prop where
  catalog : c.catalog.entries <+: d.catalog.entries
  locals : ∀ j, (c.node j).locals ⊆ (d.node j).locals
  size : d.nodes.size = c.nodes.size

/-- An instruction has a number, and the node that lists it knows. -/
def Numbers (fn : Func) (c : Context) (k : Nat) (i : InstrId) : Prop :=
  ∃ e ∈ (c.node k).locals, fn.exprAt c.catalog i = some e

theorem Numbers.mono (h : c.Numbers fn k i) (he : c.Extends d) (hd : d.catalog.Lawful fn) :
    d.Numbers fn k i := by
  obtain ⟨e, hl, hx⟩ := h
  exact ⟨e, he.locals k hl, Catalog.exprAt_prefix he.catalog hd hx⟩

namespace Numbering

variable {c₀ : Context} {done : List Nat}

theorem addLocal (h : Numbering fn c₀ done c) (hi : i ∈ c₀.body fn k) (hc : fn.Candidate i)
    {x : Expression Value} (hx : fn.reader.expression i = .ok x) :
    ∃ d, Context.addLocal fn k i c = .ok ⟨⟩ d ∧ Numbering fn c₀ done d ∧ c.Extends d ∧
      (k < c.nodes.size → d.Numbers fn k i) := by
  obtain ⟨e, cat, hadd, hlaw, hpre, he⟩ := Catalog.add_spec h.lawful hc hx
  obtain ⟨d, hd⟩ : ∃ d, d = { c with
      catalog := cat
      nodes := c.nodes.modify k fun n => { n with locals := n.locals ++ [e] } } :=
    ⟨_, rfl⟩
  have hn : d.nodes = c.nodes.modify k fun n => { n with locals := n.locals ++ [e] } := by rw [hd]
  have hcat : d.catalog = cat := by rw [hd]
  have hg : c.SameGraph d :=
    sameGraph_modify hn (by rw [hd]) ⟨fun _ => rfl, fun _ => rfl, fun _ => rfl,
      fun _ => rfl, fun _ => rfl⟩
  have hext : c.Extends d := by
    refine ⟨hcat ▸ hpre, fun j f hf => ?_, hg.nodes_size⟩
    rw [node_modify hn]
    split
    · exact List.mem_append_left _ hf
    · exact hf
  refine ⟨d, by simp [Context.addLocal, hadd, hd], ?_, hext, fun hk => ⟨e, ?_, hcat ▸ he⟩⟩
  · refine ⟨h.graph.trans hg, hd ▸ h.sets, hd ▸ h.options, hd ▸ h.overflow, fun j => ?_,
      hcat ▸ hlaw, fun j f hf => ?_, fun j hj hlt m hm hmov =>
        (show c.Numbers fn j m from h.locals_complete j hj (hg.nodes_size ▸ hlt) m hm hmov).mono
        hext (hcat ▸ hlaw)⟩
    · rw [← h.sites j, node_modify hn]
      split <;> rfl
    · rw [node_modify hn] at hf
      split at hf
      · next hkj =>
        rcases List.mem_append.1 hf with hf | hf
        · obtain ⟨m, hm, hme⟩ := h.locals_sound j f hf
          exact ⟨m, hm, Catalog.exprAt_prefix hext.catalog (hcat ▸ hlaw) hme⟩
        · rw [List.mem_singleton.1 hf]
          exact ⟨i, hkj.1 ▸ hi, hcat ▸ he⟩
      · obtain ⟨m, hm, hme⟩ := h.locals_sound j f hf
        exact ⟨m, hm, Catalog.exprAt_prefix hext.catalog (hcat ▸ hlaw) hme⟩
  · rw [node_modify hn, if_pos ⟨rfl, hk⟩]
    simp

theorem expression_of_addLocal (h : Context.addLocal fn k i c = .ok ⟨⟩ d) :
    ∃ x, fn.reader.expression i = .ok x := by
  unfold Context.addLocal at h
  rw [Change.get_bind, Change.bind_ok] at h
  obtain ⟨p, s, hp, -⟩ := h
  exact Catalog.expression_of_add (Change.check_apply.1 hp).1

def movables (fn : Func) (c : Context) (k : Nat) : List InstrId :=
  (c.body fn k).filter fun i => (fn.instr i).op.isMovable

theorem mem_movables :
    i ∈ movables fn c k ↔ i ∈ c.body fn k ∧ (fn.instr i).op.isMovable = true := by
  simp [movables]

theorem addLocals_eq (h : Numbering fn c₀ done c) :
    Context.addLocals fn k c = (movables fn c₀ k).forM (Context.addLocal fn k) c := by
  unfold Context.addLocals movables
  rw [Change.get_bind, ← body_eq h.graph]
  rfl

def Partial (fn : Func) (c₀ : Context) (done : List Nat) (k : Nat) (is : List InstrId)
    (c : Context) : Prop :=
  Numbering fn c₀ done c ∧ (k < c.nodes.size → ∀ i ∈ is, c.Numbers fn k i)

theorem Partial.step (hlay : ∀ k < c₀.nodes.size, (c₀.node k).block ∈ fn.layout)
    (hk : k < c₀.nodes.size) {is : List InstrId} (h : Partial fn c₀ done k is c)
    (hi : i ∈ movables fn c₀ k) {x : Expression Value} (hx : fn.reader.expression i = .ok x) :
    ∃ d, Context.addLocal fn k i c = .ok ⟨⟩ d ∧ Partial fn c₀ done k (is ++ [i]) d := by
  obtain ⟨hb, hm⟩ := mem_movables.1 hi
  obtain ⟨d, hd, hnum, hext, hnew⟩ := h.1.addLocal hb ⟨hm, _, hlay k hk, hb⟩ hx
  refine ⟨d, hd, hnum, fun hlt j hj => ?_⟩
  have hlt' : k < c.nodes.size := hext.size ▸ hlt
  rcases List.mem_append.1 hj with hj | hj
  · exact (h.2 hlt' j hj).mono hext hnum.lawful
  · rw [List.mem_singleton.1 hj]
    exact hnew hlt'

/-- The block is done when all its movable instructions are. -/
theorem Partial.finish (h : Partial fn c₀ done k (movables fn c₀ k) c) :
    Numbering fn c₀ (done ++ [k]) c := by
  refine { h.1 with locals_complete := fun j hj hlt i hi hm => ?_ }
  rcases List.mem_append.1 hj with hj | hj
  · exact h.1.locals_complete j hj hlt i hi hm
  · rw [List.mem_singleton] at hj
    subst hj
    exact h.2 hlt i (mem_movables.2 ⟨hi, hm⟩)

theorem addLocals_inv (hlay : ∀ k < c₀.nodes.size, (c₀.node k).block ∈ fn.layout)
    (hk : k < c₀.nodes.size) (h : Numbering fn c₀ done c)
    (hd : Context.addLocals fn k c = .ok ⟨⟩ d) : Numbering fn c₀ (done ++ [k]) d := by
  rw [addLocals_eq h] at hd
  refine Partial.finish (Change.forM_inv (Partial fn c₀ done k) (fun pre i post s s' hl hs hi => ?_)
    ⟨h, by simp⟩ hd)
  obtain ⟨x, hx⟩ := expression_of_addLocal hi
  obtain ⟨d', hd', hp⟩ := Partial.step hlay hk hs (by rw [hl]; simp) hx
  rw [hi] at hd'
  cases hd'
  exact hp

theorem addLocals_ok (hlay : ∀ k < c₀.nodes.size, (c₀.node k).block ∈ fn.layout)
    (hk : k < c₀.nodes.size) (h : Numbering fn c₀ done c)
    (hx : ∀ i ∈ movables fn c₀ k, ∃ x, fn.reader.expression i = .ok x) :
    ∃ d, Context.addLocals fn k c = .ok ⟨⟩ d ∧ Numbering fn c₀ (done ++ [k]) d := by
  rw [addLocals_eq h]
  obtain ⟨d, hd, hp⟩ := Change.forM_ok (Partial fn c₀ done k)
    (f := Context.addLocal fn k) (l := movables fn c₀ k) (s := c)
    (fun pre i post s hl hs => by
      have hi : i ∈ movables fn c₀ k := by rw [hl]; simp
      obtain ⟨x, hxi⟩ := hx i hi
      exact Partial.step hlay hk hs hi hxi)
    ⟨h, by simp⟩
  exact ⟨d, hd, Partial.finish hp⟩

theorem start (hcat : c₀.catalog = {}) (hl : ∀ k, (c₀.node k).locals = []) :
    Numbering fn c₀ [] c₀ where
  graph := .refl c₀
  sets := rfl
  options := rfl
  overflow := rfl
  sites _ := rfl
  lawful := hcat ▸ Catalog.lawful_empty fn
  locals_sound k e he := by simp [hl k] at he
  locals_complete k hk := by simp at hk

end Numbering

/-! The sets are made for the number of expressions. -/

theorem nodeOf_lt {b : BlockId} (h : c.nodeOf fn b = .ok k) :
    k < c.nodes.size ∧ (c.node k).block = b := by
  unfold nodeOf at h
  split at h
  · next j hj =>
    cases h
    obtain ⟨hlt, hb, -⟩ := List.findIdx?_eq_some_iff_getElem.1 hj
    have hlt' : k < c.nodes.size := by simpa using hlt
    refine ⟨hlt', ?_⟩
    simpa [node, Array.getD, hlt'] using hb
  · next hj =>
    cases hn : fn.blockName b <;> simp [hn, bind, Except.bind] at h

/-- A block is found at its node if no other node has it. -/
theorem nodeOf_eq (hk : k < c.nodes.size)
    (hinj : ∀ j < c.nodes.size, (c.node j).block = (c.node k).block → j = k) :
    c.nodeOf fn (c.node k).block = .ok k := by
  unfold nodeOf
  cases hf : c.nodes.toList.findIdx? (·.block == (c.node k).block) with
  | none =>
    have := List.findIdx?_eq_none_iff.1 hf (c.node k) (by simp [node, Array.getD, hk])
    simp at this
  | some j =>
    obtain ⟨hlt, hb, -⟩ := List.findIdx?_eq_some_iff_getElem.1 hf
    have hlt' : j < c.nodes.size := by simpa using hlt
    have hjk : j = k := hinj j hlt' (by simpa [node, Array.getD, hlt'] using hb)
    simp [hjk]

theorem mapM_eq_ok {α β : Type} {f : α → Except Fault β} {l : List α} {r : List β} :
    l.mapM f = .ok r ↔ List.Forall₂ (fun a b => f a = .ok b) l r := by
  induction l generalizing r with
  | nil => simp [pure, Except.pure, eq_comm]
  | cons a t ih =>
    rw [List.mapM_cons]
    cases ha : f a with
    | error e => simp [bind, Except.bind, List.forall₂_cons_left_iff, ha]
    | ok y =>
      cases ht : t.mapM f with
      | error e =>
        simp only [bind, Except.bind, reduceCtorEq, List.forall₂_cons_left_iff, false_iff,
          not_exists, not_and]
        intro b ys _ hf
        rw [← ih, ht] at hf
        cases hf
      | ok ys =>
        have hys : List.Forall₂ (fun a b => f a = .ok b) t ys := ih.1 ht
        simp only [bind, Except.bind, pure, Except.pure, Except.ok.injEq,
          List.forall₂_cons_left_iff, ha]
        constructor
        · rintro rfl
          exact ⟨y, ys, rfl, hys, rfl⟩
        · rintro ⟨b, zs, rfl, hf, rfl⟩
          rw [← ih, ht, Except.ok.injEq] at hf
          rw [hf]

theorem mapM_ok_mem {α β : Type} {f : α → Except Fault β} {l : List α} {r : List β}
    (h : l.mapM f = .ok r) : ∀ b ∈ r, ∃ a ∈ l, f a = .ok b := by
  rw [mapM_eq_ok] at h
  induction h with
  | nil => simp
  | cons hab _ ih =>
    rw [List.forall_mem_cons]
    exact ⟨⟨_, by simp, hab⟩, fun y hy => (ih y hy).imp fun x hx => ⟨by simp [hx.1], hx.2⟩⟩

theorem mem_of_mapM_ok {α β : Type} {f : α → Except Fault β} {l : List α} {r : List β}
    (h : l.mapM f = .ok r) : ∀ a ∈ l, ∃ b ∈ r, f a = .ok b := by
  rw [mapM_eq_ok] at h
  induction h with
  | nil => simp
  | cons hab _ ih =>
    rw [List.forall_mem_cons]
    exact ⟨⟨_, by simp, hab⟩, fun y hy => (ih y hy).imp fun x hx => ⟨by simp [hx.1], hx.2⟩⟩

theorem mapM_ok {α β : Type} {f : α → Except Fault β} {l : List α} (h : ∀ a ∈ l, ∃ b, f a = .ok b) :
    ∃ r, l.mapM f = .ok r := by
  induction l with
  | nil => exact ⟨[], rfl⟩
  | cons a t ih =>
    obtain ⟨b, hb⟩ := h a (by simp)
    obtain ⟨r, hr⟩ := ih fun x hx => h x (by simp [hx])
    exact ⟨b :: r, by simp [List.mapM_cons, hb, hr, bind, Except.bind, pure, Except.pure]⟩

theorem order_inv {l : List Nat} (h : c.order fn = .ok l) :
    ∃ r, fn.reversePostOrder.mapM (c.nodeOf fn) = .ok r ∧
    l = r ++ (List.range c.nodes.size).filter fun i => !(c.node i).isReachable := by
  unfold order at h
  cases hr : fn.checkReach with
  | error e => simp [hr, bind, Except.bind] at h
  | ok u =>
    cases hm : fn.reversePostOrder.mapM (c.nodeOf fn) with
    | error e => simp [hr, hm, bind, Except.bind] at h
    | ok r =>
      simp only [hr, hm, bind, Except.bind, pure, Except.pure, Except.ok.injEq] at h
      exact ⟨r, rfl, h.symm⟩

theorem order_lt {l : List Nat} (h : c.order fn = .ok l) : ∀ k ∈ l, k < c.nodes.size := by
  obtain ⟨r, hm, rfl⟩ := order_inv h
  intro k hk
  rcases List.mem_append.1 hk with hk | hk
  · obtain ⟨b, -, hb⟩ := mapM_ok_mem hm k hk
    exact (nodeOf_lt hb).1
  · simpa using (List.mem_filter.1 hk).1

namespace Drawn

/-- Different nodes stand for different blocks. -/
theorem block_inj (h : Drawn fn c) {j : Nat} (hj : j < c.nodes.size) (hk : k < c.nodes.size)
    (he : (c.node j).block = (c.node k).block) : j = k := by
  have h1 := h.idxOf?_layout (h.block_node hj)
  have h2 := h.idxOf?_layout (h.block_node hk)
  rw [he, h2] at h1
  exact (Option.some.inj h1).symm

theorem nodeOf_block (h : Drawn fn c) (hk : k < c.nodes.size) :
    c.nodeOf fn (c.node k).block = .ok k :=
  nodeOf_eq hk fun _ hj he => h.block_inj hj hk he

theorem mem_order (h : Drawn fn c) {l : List Nat} (ho : c.order fn = .ok l)
    (hk : k < c.nodes.size) : k ∈ l := by
  obtain ⟨r, hm, rfl⟩ := order_inv ho
  by_cases hr : (c.node k).isReachable = true
  · refine List.mem_append_left _ ?_
    obtain ⟨π, hπ⟩ := (h.marked.reachable_iff k hk).1 hr
    obtain ⟨e, he, hfl⟩ := h.flows_of_path hπ
    have hp : (c.node k).block ∈ fn.reversePostOrder := by
      rw [Func.reversePostOrder, List.mem_reverse, Func.mem_postOrder]
      exact ⟨e, he, Relation.ReflTransGen.mono (fun _ _ hf => hf.2) _ _ hfl⟩
    obtain ⟨j, hj, hjk⟩ := mem_of_mapM_ok hm _ hp
    rw [h.nodeOf_block hk] at hjk
    cases hjk
    exact hj
  · exact List.mem_append_right _ (List.mem_filter.2 ⟨by simpa using hk, by simpa using hr⟩)

theorem order_ok (h : Drawn fn c) (hp : ∀ b ∈ fn.postOrder, b ∈ fn.layout) :
    ∃ l, c.order fn = .ok l := by
  have hreach : fn.checkReach = .ok () := by
    unfold Func.checkReach
    rw [if_neg]
    simp only [List.any_eq_true, Bool.not_eq_true', not_exists, not_and]
    intro b hb
    simp [h.drawable.hasBlock b (hp b hb)]
  obtain ⟨r, hr⟩ := mapM_ok (f := c.nodeOf fn) (l := fn.reversePostOrder) fun b hb => by
    obtain ⟨k, hk⟩ := List.getElem?_of_mem (hp b (List.mem_reverse.1 hb))
    have hlt : k < c.nodes.size := by
      rw [h.size]
      exact (List.getElem?_eq_some_iff.1 hk).1
    have hbk := h.block_node hlt
    rw [hk, Option.some.injEq] at hbk
    exact ⟨k, hbk ▸ h.nodeOf_block hlt⟩
  unfold order
  simp [hreach, hr, bind, Except.bind, pure, Except.pure]

end Drawn

end CodeMotion.Context

namespace CodeMotion

def Family.Fits (f : Family) (count width : Nat) : Prop :=
  f.members.size = count ∧ ∀ k < count, (f.of k).size = width

theorem Family.fits_ofFn {n w : Nat} {g : Nat → BitSet} (h : ∀ k < n, (g k).size = w) :
    (ofFn n g).Fits n w :=
  ⟨size_ofFn n g, fun k hk => by rw [of_ofFn hk]; exact h k hk⟩

theorem Family.Fits.set {f : Family} {n w k : Nat} {s : BitSet} (h : f.Fits n w) (hs : s.size = w) :
    (f.set k s).Fits n w := by
  refine ⟨by simp [h.1], fun j hj => ?_⟩
  rw [of_set]
  split
  · exact hs
  · exact h.2 j hj

structure Sets.Fits (s : Sets) (nodes edges width : Nat) : Prop where
  exprs : s.exprs.Fits nodes width
  kill : s.kill.Fits nodes width
  down : s.down.Fits nodes width
  up : s.up.Fits nodes width
  availIn : s.availIn.Fits nodes width
  availOut : s.availOut.Fits nodes width
  antIn : s.antIn.Fits nodes width
  antOut : s.antOut.Fits nodes width
  laterIn : s.laterIn.Fits nodes width
  delete : s.delete.Fits nodes width
  earliest : s.earliest.Fits edges width
  later : s.later.Fits edges width
  insert : s.insert.Fits edges width

theorem Sets.fits_empty (n e w : Nat) : (Sets.empty n e w).Fits n e w := by
  have h : ∀ m, (Family.replicate m (.empty w)).Fits m w := fun m => Family.fits_ofFn fun _ _ => rfl
  exact ⟨h n, h n, h n, h n, h n, h n, h n, h n, h n, h n, h e, h e, h e⟩

theorem mem_foldl_insert (l : List Nat) (s : BitSet) (e : Nat) :
    e ∈ l.foldl BitSet.insert s ↔ e ∈ l ∨ e ∈ s := by
  induction l generalizing s with
  | nil => simp
  | cons a t ih =>
    rw [List.foldl_cons, ih, BitSet.mem_insert, List.mem_cons]
    tauto

theorem size_foldl_insert {l : List Nat} {s : BitSet} (h : ∀ e ∈ l, e < s.size) :
    (l.foldl BitSet.insert s).size = s.size := by
  induction l generalizing s with
  | nil => rfl
  | cons a t ih =>
    have ha := h a (by simp)
    have hs : (s.insert a).size = s.size := by
      rw [BitSet.size_insert]
      omega
    rw [List.foldl_cons, ih, hs]
    intro e he
    rw [hs]
    exact h e (by simp [he])

namespace Context

variable {fn : Func} {c d : Context}

/-- The outcome of the numbering: which expressions occur in which block, and sets to work with. -/
structure Numbered (fn : Func) (c : Context) (s : Sets) : Prop where
  lawful : c.catalog.Lawful fn
  fits : s.Fits c.nodes.size c.edges.size c.catalog.size
  mem_exprs : ∀ k < c.nodes.size, ∀ e, e ∈ s.exprs.of k ↔ ∃ i ∈ c.body fn k,
    fn.exprAt c.catalog i = some e
  numbered : ∀ k < c.nodes.size, ∀ i ∈ c.body fn k, (fn.instr i).op.isMovable = true →
    ∃ e, fn.exprAt c.catalog i = some e

theorem Numbering.resize {c₀ : Context} {done : List Nat} (h : Numbering fn c₀ done c)
    (hdone : ∀ k < c.nodes.size, k ∈ done) :
    ∃ s, c.resize.sets = some s ∧ Numbered fn c.resize s ∧
      s.kill = .replicate c.nodes.size (.empty c.catalog.size) := by
  have hlt : ∀ k, ∀ e ∈ (c.node k).locals, e < c.catalog.size := fun k e he => by
    obtain ⟨i, -, hi⟩ := h.locals_sound k e he
    exact Catalog.exprAt_lt hi
  have hnum : ∀ k < c.nodes.size, ∀ i ∈ c₀.body fn k, (fn.instr i).op.isMovable = true →
      c.Numbers fn k i :=
    fun k hk => h.locals_complete k (hdone k hk) hk
  have hmem : ∀ k < c.nodes.size, ∀ e,
      e ∈ (Family.ofFn c.nodes.size fun k => (c.node k).locals.foldl .insert
        (.empty c.catalog.size)).of k ↔
        e ∈ (c.node k).locals := fun k hk e => by
    rw [Family.of_ofFn hk, mem_foldl_insert]
    simp
  refine ⟨_, rfl, ⟨h.lawful, ?_, fun k hk e => ?_, fun k hk i hi hm => ?_⟩, rfl⟩
  · refine { Sets.fits_empty c.nodes.size c.edges.size c.catalog.size with
      exprs := Family.fits_ofFn fun k _ => ?_ }
    exact size_foldl_insert (hlt k)
  · refine (hmem k hk e).trans ?_
    rw [show c.resize.body fn k = c₀.body fn k from body_eq h.graph k]
    refine ⟨h.locals_sound k e, fun ⟨i, hi, hx⟩ => ?_⟩
    obtain ⟨f, hf, hx'⟩ := hnum k hk i hi (Catalog.exprAt_iff.1 hx).1
    have hef : fn.exprAt c.catalog i = some e := hx
    rw [hef, Option.some.injEq] at hx'
    exact hx' ▸ hf
  · rw [show c.resize.body fn k = c₀.body fn k from body_eq h.graph k] at hi
    obtain ⟨e, -, he⟩ := hnum k hk i hi hm
    exact ⟨e, he⟩

structure Fresh (fn : Func) (c : Context) : Prop extends Drawn fn c where
  catalog : c.catalog = {}
  overflow : c.overflow = false
  locals : ∀ k, (c.node k).locals = []
  sites : ∀ k, (c.node k).sites = []

theorem ofFunc_fresh {o : Options} (h : ofFunc fn o = .ok c) : Fresh fn c ∧ c.options = o := by
  have hd := ofFunc_drawn h
  have hnode : ∀ k, (c.node k).locals = [] ∧ (c.node k).sites = [] := by
    intro k
    by_cases hk : k < c.nodes.size
    · rw [hd.node_eq (hd.block_node hk)]
      exact ⟨rfl, rfl⟩
    · simp [node, Array.getD, hk]
      exact ⟨rfl, rfl⟩
  obtain ⟨-, rfl⟩ := ofFunc_eq_ok.1 h
  exact ⟨⟨hd, rfl, rfl, fun k => (hnode k).1, fun k => (hnode k).2⟩, rfl⟩

theorem ofFunc_ok (h : fn.Drawable) (o : Options) : ∃ c, ofFunc fn o = .ok c :=
  ⟨_, ofFunc_eq_ok.2 ⟨h, rfl⟩⟩

/-- What every phase from the second one on finds and keeps. -/
structure Stage (fn : Func) (c₀ c : Context) (s : Sets) : Prop where
  graph : c₀.SameGraph c
  options : c.options = c₀.options
  sets : c.sets = some s
  overflow : c.overflow = false
  numbered : Numbered fn c s

namespace Fresh

variable {c₀ : Context}

theorem layout (h : Fresh fn c₀) : ∀ k < c₀.nodes.size, (c₀.node k).block ∈ fn.layout :=
  fun _ hk => List.mem_of_getElem? (h.block_node hk)

/-- What the numbering does: one block after the other, and then sets or a refusal. -/
theorem numberExpressions_cases (hf : Fresh fn c₀) (h : numberExpressions fn c₀ = .ok ⟨⟩ c) :
    ∃ l c₁, c₀.order fn = .ok l ∧ l.forM (addLocals fn) c₀ = .ok ⟨⟩ c₁ ∧ Numbering fn c₀ l c₁ ∧
      c = if c₁.options.canAnalyze c₁.catalog.size then c₁.resize
        else { c₁ with overflow := true } := by
  unfold numberExpressions at h
  rw [Change.get_bind, Change.bind_ok] at h
  obtain ⟨l, s1, hcheck, h⟩ := h
  obtain ⟨hl, rfl⟩ := Change.check_apply.1 hcheck
  rw [Change.bind_ok] at h
  obtain ⟨_, c1, hloop, h⟩ := h
  have hnum : Numbering fn c₀ l c1 := by
    refine Change.forM_inv (Numbering fn c₀) (fun pre k post s s' hk hs hstep => ?_)
      (Numbering.start hf.catalog hf.locals) hloop
    exact Numbering.addLocals_inv hf.layout (order_lt hl k (by rw [hk]; simp)) hs hstep
  refine ⟨l, c1, hl, hloop, hnum, ?_⟩
  rw [Change.get_bind] at h
  split at h
  · next hsmall =>
    cases h
    rw [if_pos hsmall]
  · next hlarge =>
    cases h
    rw [if_neg hlarge]

theorem numberExpressions_inv (hf : Fresh fn c₀) (h : numberExpressions fn c₀ = .ok ⟨⟩ c) :
    c.overflow = true ∨ ∃ s, Stage fn c₀ c s ∧
      s.kill = .replicate c.nodes.size (.empty c.catalog.size) ∧
      ∀ k, (c.node k).sites = [] := by
  obtain ⟨l, c1, hl, -, hnum, hc⟩ := hf.numberExpressions_cases h
  split at hc
  · subst hc
    obtain ⟨s, hs, hn, hk⟩ := hnum.resize fun k hk => hf.mem_order hl (hnum.graph.nodes_size ▸ hk)
    refine Or.inr ⟨s, ⟨hnum.graph.trans (.of_eq rfl rfl), hnum.options, hs,
      hnum.overflow.trans hf.overflow, hn⟩, hk, fun k => ?_⟩
    exact (hnum.sites k).trans (hf.sites k)
  · subst hc
    exact Or.inl rfl

theorem numberExpressions_ok (hf : Fresh fn c₀) (hp : ∀ b ∈ fn.postOrder, b ∈ fn.layout)
    (hx : ∀ k < c₀.nodes.size, ∀ i ∈ Numbering.movables fn c₀ k,
      ∃ x, fn.reader.expression i = .ok x) :
    ∃ c, numberExpressions fn c₀ = .ok ⟨⟩ c := by
  obtain ⟨l, hl⟩ := hf.order_ok hp
  obtain ⟨c1, hloop, -⟩ := Change.forM_ok (Numbering fn c₀) (f := addLocals fn) (l := l) (s := c₀)
    (fun pre k post s hk hs => by
      have hlt := order_lt hl k (by rw [hk]; simp)
      exact Numbering.addLocals_ok hf.layout hlt hs (hx k hlt))
    (Numbering.start hf.catalog hf.locals)
  unfold numberExpressions
  rw [Change.get_bind, hl, Change.check_bind, Change.bind_eq hloop, Change.get_bind]
  split
  · exact ⟨_, rfl⟩
  · exact ⟨_, rfl⟩

end Fresh
end Context
end CodeMotion
