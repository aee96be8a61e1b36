import Mathlib
import CodeMotion.Proofs.Charts
import CodeMotion.Proofs.DefBeforeUse
import CodeMotion.Proofs.DominatorTree

/-! The order in which the depth-first traversal is done with the blocks. Its stack is a walk from
the entry to the block at hand, so a successor that is still on it leads back to that block, and a
block that every walk passes is still on it: reversed, the order puts every block after its
dominators, and after its predecessors but for the edges that close a cycle. -/

namespace CodeMotion

open Relation

namespace Func

variable {fn : Func} {a b d u v : BlockId} {l r : List BlockId}

theorem Walk.leads_of_mem (h : fn.Walk l b) (ha : a ∈ l) : ReflTransGen fn.Leads a b := by
  induction h with
  | entry _ => simp at ha
  | step _ hs ih =>
    rcases List.mem_append.1 ha with ha | ha
    · exact (ih ha).tail hs
    · rw [List.mem_singleton.1 ha]
      exact .single hs

theorem precedes_of_entry {e : BlockId} (he : fn.entry? = some e) (hb : b ≠ e) :
    fn.Precedes e b := by
  intro l hl
  induction hl with
  | entry he' =>
    rw [he, Option.some.injEq] at he'
    exact absurd he'.symm hb
  | @step l a b _ _ ih =>
    by_cases ha : a = e
    · simp [ha]
    · exact List.mem_append_left _ (ih ha)

/-- Every block of a list comes before its successors, but for those that lead back to it, and after
the blocks that every walk to it passes. -/
def Settled (fn : Func) : List BlockId → Prop
  | [] => True
  | b :: rest =>
    ((∀ s, fn.Leads b s → s ∈ rest ∨ ReflTransGen fn.Leads s b) ∧ ∀ d ∈ rest, ¬ fn.Precedes d b) ∧
      fn.Settled rest

theorem Settled.split (h : fn.Settled (l ++ b :: r)) :
    (∀ s, fn.Leads b s → s ∈ r ∨ ReflTransGen fn.Leads s b) ∧ ∀ d ∈ r, ¬ fn.Precedes d b := by
  induction l with
  | nil => exact h.1
  | cons a t ih => exact ih h.2

end Func

namespace PostOrder

variable {fn : Func} {out l : List BlockId} {it : PostOrder} {b : BlockId}

/-- What holds of the stack during a traversal, and of the order of the blocks `out` that it has
yielded, newest first. -/
structure Finishing (fn : Func) (out : List BlockId) (it : PostOrder) : Prop
    extends Visiting fn out it where
  walk : ∀ b rest, it.stack = b :: rest → fn.Walk rest.reverse b
  settled : fn.Settled out

namespace Finishing

theorem start (fn : Func) : Finishing fn [] (PostOrder.start fn) := by
  refine ⟨Visiting.start fn, fun b rest hs => ?_, trivial⟩
  cases he : fn.entry? with
  | none => simp [PostOrder.start, he] at hs
  | some e =>
    simp only [PostOrder.start, he, Option.toList_some, List.cons.injEq] at hs
    rw [← hs.1, ← hs.2]
    exact .entry he

theorem push (h : Finishing fn out it) {s : BlockId} {rest : List BlockId}
    (hs : it.stack = b :: rest) (hm : s ∈ fn.succs b) (hn : s ∉ it.visited) :
    Finishing fn out { it with stack := s :: b :: rest, visited := s :: it.visited } := by
  refine ⟨h.toVisiting.push hs hm hn, fun c t hst => ?_, h.settled⟩
  simp only [List.cons.injEq] at hst
  rw [← hst.1, ← hst.2, List.reverse_cons]
  exact (h.walk b rest hs).step hm

theorem pop (h : Finishing fn out it) {rest : List BlockId} (hs : it.stack = b :: rest)
    (hc : ∀ s ∈ fn.succs b, s ∈ it.visited) :
    Finishing fn (b :: out) { it with stack := rest, block := some b } := by
  have hw := h.walk b rest hs
  have hdisj : ∀ d ∈ rest, d ∉ out := by
    have hnd := h.perm.nodup_iff.2 h.nodup
    rw [hs, List.nodup_append] at hnd
    exact fun d hd ho => hnd.2.2 d (List.mem_cons_of_mem b hd) d ho rfl
  refine ⟨h.toVisiting.pop hs hc, fun c t hst => ?_, ⟨fun s hbs => ?_, fun d hd hp => ?_⟩,
    h.settled⟩
  · rw [show rest = c :: t from hst, List.reverse_cons] at hw
    exact hw.cut.1
  · have hmem := h.perm.symm.subset (hc s hbs)
    rw [hs, List.cons_append, List.mem_cons, List.mem_append] at hmem
    rcases hmem with rfl | hmem | hmem
    · exact Or.inr .refl
    · exact Or.inr (hw.leads_of_mem (List.mem_reverse.2 hmem))
    · exact Or.inl hmem
  · exact hdisj d (List.mem_reverse.1 (hp _ hw)) hd

theorem kept (fn : Func) : Kept fn (Finishing fn) := ⟨toVisiting, fun h => h.push, fun h => h.pop⟩

end Finishing

inductive Yields (fn : Func) : PostOrder → List BlockId → Prop
  | done {it last : PostOrder} (h : next fn it = .ok false last) : Yields fn it []
  | more {it low : PostOrder} {b : BlockId} {l : List BlockId} (h : next fn it = .ok true low) (hb :
    low.block = some b)
    (hl : Yields fn low l) : Yields fn it (b :: l)

theorem Yields.unique {m : List BlockId} (h : Yields fn it l) (h' : Yields fn it m) : l = m := by
  induction h generalizing m with
  | done hn =>
    cases h' with
    | done _ => rfl
    | more hn' _ _ => simp [hn] at hn'
  | more hn hb _ ih =>
    cases h' with
    | done hn' => simp [hn] at hn'
    | more hn' hb' hl' =>
      rw [hn] at hn'
      cases hn'
      rw [hb, Option.some.injEq] at hb'
      rw [hb', ih hl']

theorem next_done (hs : (it.bottom fn).stack = []) : ∃ last, next fn it = .ok false last := by
  unfold next
  rw [Change.modify_bind, Change.get_bind, hs]
  exact ⟨_, rfl⟩

theorem next_more {rest : List BlockId} (hs : (it.bottom fn).stack = b :: rest)
    (hb : fn.hasBlock b = true) :
    next fn it = .ok true { it.bottom fn with stack := rest, block := some b } := by
  unfold next
  rw [Change.modify_bind, Change.get_bind, hs]
  simp only [Func.checkBlock, hb, if_true, Change.check_bind, Change.set_bind]
  rfl

/-- Asked for the next block again and again, a traversal yields what it yields when it is
drained. -/
theorem Visiting.yields_drain (hb : ∀ b ∈ fn.preOrder, fn.hasBlock b = true)
    (h : Visiting fn out it) (fuel : Nat) (hf : fn.reachBound < out.length + fuel) :
    Yields fn it (it.drain fn fuel).1 := by
  induction fuel generalizing out it with
  | zero =>
    have h1 := h.length_visited
    have h2 := h.perm.length_eq
    rw [List.length_append] at h2
    omega
  | succ fuel ih =>
    obtain ⟨hlow, hc⟩ := (Visiting.kept fn).bottom h
    unfold PostOrder.drain
    dsimp only
    split
    · next hs =>
      obtain ⟨last, hlast⟩ := next_done hs
      exact .done hlast
    · next b rest hs =>
      have hblock : fn.hasBlock b = true := by
        refine hb b (Func.mem_preOrder.2 (hlow.reachable b (hlow.mem_visited ?_)))
        rw [hs]
        exact List.mem_cons_self
      refine .more (next_more hs hblock) rfl (ih (hlow.pop hs (hc b rest hs)) ?_)
      rw [List.length_cons]
      omega

end PostOrder

namespace Func

variable {fn : Func} {b d u v : BlockId}

theorem settled_reversePostOrder (fn : Func) : fn.Settled fn.reversePostOrder := by
  obtain ⟨h, -⟩ := (PostOrder.Finishing.kept fn).drain (.start fn) (fn.reachBound + 1) (by simp)
  simpa [reversePostOrder, postOrder] using h.settled

theorem nodup_postOrder (fn : Func) : fn.postOrder.Nodup :=
  fn.postOrder_perm.nodup_iff.2 fn.nodup_preOrder

theorem nodup_reversePostOrder (fn : Func) : fn.reversePostOrder.Nodup :=
  List.nodup_reverse.2 fn.nodup_postOrder

theorem idxOf_lt_of_mem_right {l r : List BlockId} (hn : (l ++ u :: r).Nodup) (hv : v ∈ r) :
    (l ++ u :: r).idxOf u < (l ++ u :: r).idxOf v := by
  rw [List.nodup_append, List.nodup_cons] at hn
  have hu : u ∉ l := fun h => hn.2.2 u h u List.mem_cons_self rfl
  have hvl : v ∉ l := fun h => hn.2.2 v h v (List.mem_cons_of_mem u hv) rfl
  have huv : u ≠ v := fun h => hn.2.1.1 (h ▸ hv)
  rw [List.idxOf_append_of_notMem hu, List.idxOf_append_of_notMem hvl, List.idxOf_cons_self,
    List.idxOf_cons_ne _ huv]
  omega

/-- An edge that closes no cycle goes on in the order. -/
theorem idxOf_lt_of_leads (hu : u ∈ fn.reversePostOrder) (h : fn.Leads u v)
    (hn : ¬ ReflTransGen fn.Leads v u) :
    fn.reversePostOrder.idxOf u < fn.reversePostOrder.idxOf v := by
  have hset := fn.settled_reversePostOrder
  have hnd := fn.nodup_reversePostOrder
  obtain ⟨l, r, hl⟩ := List.append_of_mem hu
  rw [hl] at hset hnd ⊢
  exact idxOf_lt_of_mem_right hnd ((hset.split.1 v h).resolve_right hn)

theorem idxOf_lt_of_precedes (hb : b ∈ fn.reversePostOrder) (h : fn.Precedes d b) :
    fn.reversePostOrder.idxOf d < fn.reversePostOrder.idxOf b := by
  obtain ⟨m, hm⟩ := exists_walk (mem_reversePostOrder.1 hb)
  have hd : d ∈ fn.reversePostOrder := mem_reversePostOrder.2 (hm.mem_preOrder_of_mem (h m hm))
  have hset := fn.settled_reversePostOrder
  have hnd := fn.nodup_reversePostOrder
  obtain ⟨l, r, hl⟩ := List.append_of_mem hd
  rw [hl] at hset hnd hb ⊢
  -- `b` is not before `d`, where it would be followed by a block that every walk to it passes
  rcases List.mem_append.1 hb with hbl | hbr
  · obtain ⟨l₁, l₂, rfl⟩ := List.append_of_mem hbl
    rw [List.append_assoc] at hset
    exact absurd h (hset.split.2 d (by simp))
  · rcases List.mem_cons.1 hbr with rfl | hbr
    · exact absurd h (not_precedes_self hm.reachable)
    · exact idxOf_lt_of_mem_right hnd hbr

theorem head?_reversePostOrder (fn : Func) : fn.reversePostOrder.head? = fn.entry? := by
  have hset := fn.settled_reversePostOrder
  have hmem : ∀ b, b ∈ fn.reversePostOrder ↔ b ∈ fn.preOrder := fun _ => mem_reversePostOrder
  cases he : fn.entry? with
  | none =>
    rw [List.head?_eq_none_iff, List.eq_nil_iff_forall_not_mem]
    intro b hb
    obtain ⟨e, he', -⟩ := mem_preOrder.1 ((hmem b).1 hb)
    simp [he] at he'
  | some e =>
    have hmeme := (hmem e).2 (Walk.entry he).reachable
    cases hl : fn.reversePostOrder with
    | nil => simp [hl] at hmeme
    | cons b r =>
      rw [hl] at hset hmeme
      by_cases hb : b = e
      · simp [hb]
      · have her : e ∈ r := (List.mem_cons.1 hmeme).resolve_left fun h => hb h.symm
        exact absurd (precedes_of_entry he hb) (hset.1.2 e her)

namespace Enclosed

variable (h : fn.Enclosed)
include h

theorem solid : DomTree.Solid fn := fun b hb => h.hasBlock b (h.attached hb)

theorem mem_reached_iff : b ∈ fn.reached ↔ b ∈ fn.postOrder := by
  rw [mem_reached, mem_postOrder]
  refine exists_congr fun e => and_congr_right fun he => ?_
  exact h.flows_iff (entry_mem he)

theorem reachable_ok : ∃ r, fn.reachable = .ok r ∧ ∀ x, x ∈ r ↔ ∃ b ∈ fn.postOrder, x = some b := by
  have hlayout : ∀ b ∈ fn.reached, b ∈ fn.layout := fun b hb =>
    h.attached (fn.postOrder_perm.subset (h.mem_reached_iff.1 hb))
  unfold reachable
  cases he : fn.entry? with
  | none =>
    refine ⟨[], rfl, fun x => ?_⟩
    simp [mem_postOrder, he]
  | some e =>
    refine ⟨fn.report fn.reached,
      by simp [checkGraph_ok.2 h.drawable, bind, Except.bind, pure, Except.pure], fun x => ?_⟩
    have hall : fn.reached.any (!fn.layout.contains ·) = false := by simpa using hlayout
    simp only [report, hall, Bool.false_eq_true, if_false, List.nil_append, List.mem_map,
      List.mem_mergeSort, List.mem_filter]
    constructor
    · rintro ⟨b, ⟨hb, -⟩, rfl⟩
      exact ⟨b, h.mem_reached_iff.1 hb, rfl⟩
    · rintro ⟨b, hb, rfl⟩
      have hb' := h.mem_reached_iff.2 hb
      exact ⟨b, ⟨hb', by simpa using hlayout b hb'⟩, rfl⟩

theorem yields_postOrder {l : List BlockId} :
    PostOrder.Yields fn (.start fn) l ↔ l = fn.postOrder := by
  have hy : PostOrder.Yields fn (.start fn) fn.postOrder :=
    (PostOrder.Visiting.start fn).yields_drain h.solid (fn.reachBound + 1) (by simp)
  constructor
  · exact fun hl => hl.unique hy
  · rintro rfl
    exact hy

end Enclosed

end Func

namespace Context

variable {fn : Func} {c : Context}

theorem map_block_of_mapM {bs : List BlockId} {r : List Nat} (h : bs.mapM (c.nodeOf fn) = .ok r) :
    r.map (fun k => (c.node k).block) = bs := by
  rw [mapM_eq_ok] at h
  induction h with
  | nil => rfl
  | cons hb _ ih => rw [List.map_cons, ih, (nodeOf_lt hb).2]

theorem Drawn.map_block (h : Drawn fn c) :
    (List.range c.nodes.size).map (fun k => (c.node k).block) = fn.layout := by
  refine List.ext_getElem? fun k => ?_
  rw [List.getElem?_map]
  by_cases hk : k < c.nodes.size
  · rw [List.getElem?_range hk, h.block_node hk]
    rfl
  · rw [List.getElem?_eq_none (by simpa using hk), List.getElem?_eq_none (by rw [← h.size]; omega)]
    rfl

/-- The order of the blocks starts with the reachable ones, and has every block once. -/
theorem Drawn.order_perm (h : Drawn fn c) (he : fn.Enclosed) {l : List Nat}
    (ho : c.order fn = .ok l) :
    l.Perm (List.range c.nodes.size) ∧ fn.reversePostOrder <+: l.map fun k => (c.node k).block := by
  have hlt := order_lt ho
  have hmem := fun k (hk : k < c.nodes.size) => h.mem_order ho hk
  obtain ⟨r, hm, rfl⟩ := order_inv ho
  have hr := map_block_of_mapM hm
  have hreach : ∀ k ∈ r, (c.node k).isReachable = true := by
    intro k hk
    have hb : (c.node k).block ∈ fn.reversePostOrder := hr ▸ List.mem_map_of_mem hk
    have hk' := hlt k (List.mem_append_left _ hk)
    obtain ⟨e, hentry, hfl⟩ := Func.mem_reached.1 (he.mem_reached_iff.2 (List.mem_reverse.1 hb))
    exact (h.marked.reachable_iff k hk').2 (h.path_of_flows hentry hfl k (h.block_node hk'))
  have hnd : (r ++ (List.range c.nodes.size).filter fun i => !(c.node i).isReachable).Nodup := by
    refine List.nodup_append.2 ⟨.of_map (fun k => (c.node k).block)
      (hr ▸ fn.nodup_reversePostOrder), List.nodup_range.filter _, ?_⟩
    rintro k hk _ hf rfl
    simp [hreach k hk] at hf
  refine ⟨(List.perm_ext_iff_of_nodup hnd List.nodup_range).2 fun k => ?_, ?_⟩
  · rw [List.mem_range]
    exact ⟨hlt k, hmem k⟩
  · rw [List.map_append, hr]
    exact List.prefix_append _ _

end Context

namespace Func

variable {fn : Func}

/-- All traversals of a function with distinct blocks and attached successors find the same blocks,
and the reversed post-order has the entry first, the ends of an edge in order unless it closes a
cycle, and every block after its dominators. -/
theorem traversals_agree_in_order (h : fn.Enclosed) :
    (∀ l, PostOrder.Yields fn (.start fn) l ↔ l = fn.postOrder) ∧ fn.postOrder.Nodup ∧
    (∀ b, b ∈ fn.postOrder ↔ ∃ l, fn.Walk l b) ∧
    (∃ r, fn.reachable = .ok r ∧ ∀ x, x ∈ r ↔ ∃ b ∈ fn.postOrder, x = some b) ∧
    (∀ b, fn.hasBlock b = true → ((DomTree.ofFunc fn).isReachable b = true ↔ b ∈ fn.postOrder)) ∧
    fn.reversePostOrder.head? = fn.entry? ∧
    (∀ u v, u ∈ fn.postOrder → fn.Leads u v → ¬ ReflTransGen fn.Leads v u →
      fn.reversePostOrder.idxOf u < fn.reversePostOrder.idxOf v) ∧
    (∀ d b, b ∈ fn.postOrder → ((DomTree.ofFunc fn).dominates d b = true ↔ fn.Dominates d b) ∧
      (fn.Dominates d b → d ∈ fn.reversePostOrder ∧ fn.reversePostOrder.idxOf d ≤
        fn.reversePostOrder.idxOf b)) ∧
    ∀ o, ∃ c l, Context.ofFunc fn o = .ok c ∧ c.order fn = .ok l ∧
      (l.map fun k => (c.node k).block).Perm fn.layout ∧
      fn.reversePostOrder <+: l.map fun k => (c.node k).block := by
  have hpre : ∀ b, b ∈ fn.postOrder ↔ b ∈ fn.preOrder := fun b => fn.postOrder_perm.mem_iff
  have hrev : ∀ b, b ∈ fn.postOrder ↔ b ∈ fn.reversePostOrder := fun b => List.mem_reverse.symm
  refine ⟨fun l => h.yields_postOrder, fn.nodup_postOrder,
    fun b => (hpre b).trans exists_walk_iff.symm, h.reachable_ok,
    fun b hb => ?_, fn.head?_reversePostOrder, fun u v hu => idxOf_lt_of_leads ((hrev u).1 hu),
      fun d b hb => ⟨?_, fun hd => ?_⟩, fun o => ?_⟩
  · have hb0 : b ≠ 0 := by
      rintro rfl
      cases hb
    rw [DomTree.isReachable_iff h.solid hb0, hpre]
  · rw [DomTree.dominates_iff h.solid ((hpre b).1 hb), dominates_iff]
  · rcases dominates_iff.1 hd with rfl | hd
    · exact ⟨(hrev d).1 hb, le_rfl⟩
    · have hlt := idxOf_lt_of_precedes ((hrev b).1 hb) hd
      have hle := List.idxOf_le_length (a := b) (l := fn.reversePostOrder)
      exact ⟨List.idxOf_lt_length_iff.1 (by omega), hlt.le⟩
  · obtain ⟨c, hc⟩ := Context.ofFunc_ok h.drawable o
    have hdrawn := Context.ofFunc_drawn hc
    obtain ⟨l, hl⟩ := hdrawn.order_ok fun b hb => h.attached ((hpre b).1 hb)
    obtain ⟨hperm, hfirst⟩ := hdrawn.order_perm h hl
    exact ⟨c, l, hc, hl, hdrawn.map_block ▸ hperm.map _, hfirst⟩

theorem traversals_agree_in_order_crossed : DomTree.crossed.Enclosed ∧
    PostOrder.Yields DomTree.crossed (.start DomTree.crossed) [6, 5, 4, 3, 2, 1] ∧
    (∃ r, DomTree.crossed.reachable = .ok r ∧ ∀ x, x ∈ r ↔ ∃ b ∈ [6, 5, 4, 3, 2, 1], x = some b) ∧
    (5 ∈ DomTree.crossed.reversePostOrder ∧
      DomTree.crossed.reversePostOrder.idxOf 5 ≤ DomTree.crossed.reversePostOrder.idxOf 6) := by
  have he : DomTree.crossed.Enclosed := by decide +kernel
  have hpost : DomTree.crossed.postOrder = [6, 5, 4, 3, 2, 1] := by decide +kernel
  obtain ⟨hy, -, -, hr, -, -, -, hd, -⟩ := traversals_agree_in_order he
  obtain ⟨htree, hle⟩ := hd 5 6 (by simp [hpost])
  exact ⟨he, (hy _).2 hpost.symm, hpost ▸ hr, hle (htree.1 (by decide +kernel))⟩

end Func
end CodeMotion
