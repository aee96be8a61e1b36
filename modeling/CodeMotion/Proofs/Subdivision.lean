import Mathlib
import CodeMotion.Proofs.Computations

/-! A motion subdivides edges of the graph and changes it in no other way: an edge stays, or one new
block stands in its middle, wherever the edge is written down. -/

namespace CodeMotion

namespace Func

variable {fn g : Func} {x y s : BlockId}

def Between (fn g : Func) (s x y : BlockId) : Prop :=
  s ∈ g.layout ∧ s ∉ fn.layout ∧ s ∈ g.succs x ∧ y ∈ g.succs s

/-- A function and one with new blocks on some of its edges. `via x y` is the block on the edge from
`x` to `y`, if it has got one. -/
structure Subdivided (fn g : Func) (via : BlockId → BlockId → Option BlockId) : Prop where
  nodup : g.layout.Nodup
  order : g.layout.filter (· ∈ fn.layout) = fn.layout
  via_iff : ∀ x y s, via x y = some s ↔ x ∈ fn.layout ∧ y ∈ fn.layout ∧ fn.Between g s x y
  edge : ∀ x ∈ fn.layout, ∀ y ∈ fn.layout, y ∈ fn.succs x ↔
    (y ∈ g.succs x ∧ ¬∃ s, fn.Between g s x y) ∨ (y ∉ g.succs x ∧ ∃! s, fn.Between g s x y)
  new : ∀ s ∈ g.layout, s ∉ fn.layout → ∃ x y, via x y = some s ∧ (g.block s).preds = [x] ∧
    g.succs s = [y] ∧
    ∃ a, [a, s] <:+: g.layout ∧ (a = x ∨ a ∉ fn.layout)
  term : ∀ b ∈ fn.layout, (g.block b).term = (fn.block b).term
  slots : ∀ b ∈ fn.layout, ∀ t ∈ (fn.block b).term, (g.instr t).op = (fn.instr t).op ∧
    (g.instr t).args.length = (fn.instr t).args.length ∧
      (g.instr t).targets = (fn.instr t).targets.map fun y => (via b y).getD y
  phis : ∀ b ∈ fn.layout, (g.block b).phis = (fn.block b).phis
  incoming : ∀ b ∈ fn.layout, ∀ i ∈ (fn.block b).phis, (g.instr i).op = (fn.instr i).op ∧
    (g.instr i).args.length = (fn.instr i).args.length ∧
      (g.instr i).incoming = (fn.instr i).incoming.map fun x => (via x b).getD x
  preds : ∀ b ∈ g.layout, ∀ a, a ∈ (g.block b).preds ↔ a ∈ g.layout ∧ b ∈ g.succs a

end Func

namespace Plan

variable {p : Plan} {g : Func} {e : Nat} {x y s : BlockId}

def via (p : Plan) (x y : BlockId) : Option BlockId :=
  (p.cuts.find? fun e => p.source e == x && p.target e == y).map p.splitId

theorem exists_cut (h : p.via x y = some s) :
    ∃ e ∈ p.cuts, p.source e = x ∧ p.target e = y ∧ s = p.splitId e := by
  obtain ⟨e, he, rfl⟩ := Option.map_eq_some_iff.1 h
  have hends := List.find?_some he
  rw [Bool.and_eq_true, beq_iff_eq, beq_iff_eq] at hends
  exact ⟨e, List.mem_of_find?_eq_some he, hends.1, hends.2, rfl⟩

theorem via_eq_none : p.via x y = none ↔ ∀ e ∈ p.cuts, p.source e = x → p.target e ≠ y := by
  simp [via]

/-- A list behind an element: each of its members has the one before it in front. -/
theorem pair_infix {b s : BlockId} {l : List BlockId} (hs : s ∈ l) :
    ∃ a, [a, s] <:+: b :: l ∧ (a = b ∨ a ∈ l) := by
  induction l generalizing b with
  | nil => cases hs
  | cons c l ih =>
    rcases List.mem_cons.1 hs with rfl | hs
    · exact ⟨b, ⟨[], l, rfl⟩, Or.inl rfl⟩
    · obtain ⟨a, ha, hac⟩ := ih (b := c) hs
      exact ⟨a, ha.trans (List.suffix_cons b _).isInfix, Or.inr (List.mem_cons.2 hac)⟩

namespace Feasible

variable (h : p.Feasible)
include h

theorem via_cut (he : e ∈ p.cuts) : p.via (p.source e) (p.target e) = some (p.splitId e) := by
  have hlt := (mem_cuts.1 he).1
  cases hv : p.via (p.source e) (p.target e) with
  | none => exact absurd rfl (via_eq_none.1 hv e he rfl)
  | some s =>
    obtain ⟨e', he', hs, ht, rfl⟩ := exists_cut hv
    rw [h.edge_inj (mem_cuts.1 he').1 hlt hs ht]

/-- An edge has got a block exactly if something is inserted on it and it leads from a fork to
a join. -/
theorem via_isSome_iff :
    (∃ s, p.via x y = some s) ↔ ∃ e < p.context.edges.size, p.source e = x ∧ p.target e = y ∧
    (p.sets.insert.of e).isEmpty = false ∧ p.func.Forks x ∧ p.func.Joins y := by
  constructor
  · rintro ⟨s, hv⟩
    obtain ⟨e, he, rfl, rfl, -⟩ := exists_cut hv
    obtain ⟨hlt, hcut⟩ := mem_cuts.1 he
    exact ⟨e, hlt, rfl, rfl, (h.isCut_iff hlt).1 hcut⟩
  · rintro ⟨e, hlt, rfl, rfl, hcut⟩
    exact ⟨_, h.via_cut (mem_cuts.2 ⟨hlt, (h.isCut_iff hlt).2 hcut⟩)⟩

theorem retarget_eq (x y : BlockId) : p.retarget p.cuts x y = (p.via x y).getD y := by
  cases hv : p.via x y with
  | none => exact divert_eq_self (via_eq_none.1 hv)
  | some s =>
    obtain ⟨e, he, rfl, rfl, rfl⟩ := exists_cut hv
    exact h.retarget_cut he

theorem reroute_eq (x y : BlockId) : p.reroute p.cuts y x = (p.via x y).getD x := by
  cases hv : p.via x y with
  | none => exact divert_eq_self fun e he ht hs => via_eq_none.1 hv e he hs ht
  | some s =>
    obtain ⟨e, he, rfl, rfl, rfl⟩ := exists_cut hv
    exact h.reroute_cut he

theorem notMem_of_behind {done : List Nat} {b : BlockId} (hs : s ∈ p.behind done b) :
    s ∉ p.func.layout := by
  obtain ⟨e, -, rfl⟩ := List.mem_map.1 hs
  exact fun hm => h.ne_splitId hm rfl

/-- The old blocks in the layout, in their order. -/
theorem filter_spread (done : List Nat) :
    (p.spread done).filter (· ∈ p.func.layout) = p.func.layout := by
  have hone : ∀ b ∈ p.func.layout, (b :: p.behind done b).filter (· ∈ p.func.layout) = [b] := by
    intro b hb
    rw [List.filter_cons_of_pos (by simpa using hb), List.filter_eq_nil_iff.2]
    exact fun s hs => by simpa using h.notMem_of_behind hs
  rw [spread, List.filter_flatMap, List.flatMap_congr hone]
  exact List.flatMap_singleton' _

/-- A new block comes behind the source of its edge or behind another new block. -/
theorem pair_spread (he : e ∈ p.cuts) :
    ∃ a, [a, p.splitId e] <:+: p.spread p.cuts ∧ (a = p.source e ∨ a ∉ p.func.layout) := by
  have hmem : p.splitId e ∈ p.behind p.cuts (p.source e) := List.mem_map_of_mem (by simpa using he)
  obtain ⟨a, ha, hor⟩ := pair_infix (b := p.source e) hmem
  have hsource := h.source_mem (mem_cuts.1 he).1
  have hpart : p.source e :: p.behind p.cuts (p.source e) <:+: p.spread p.cuts :=
    List.infix_flatMap_of_mem hsource fun b => b :: p.behind p.cuts b
  exact ⟨a, ha.trans hpart, hor.imp_right h.notMem_of_behind⟩

end Feasible

namespace Moved

variable (hm : p.Moved g) (h : p.Feasible)
include hm h

omit h in
theorem exists_cut_of_notMem (hs : s ∈ g.layout) (hnew : s ∉ p.func.layout) :
    ∃ e ∈ p.cuts, s = p.splitId e := by
  rcases List.mem_append.1 ((hm.mem_layout s).1 hs) with hold | hsplit
  · exact absurd hold hnew
  · obtain ⟨e, he, rfl⟩ := List.mem_map.1 hsplit
    exact ⟨e, he, rfl⟩

theorem splitId_mem_succs (he : e ∈ p.cuts) (hx : x ∈ p.func.layout) :
    p.splitId e ∈ g.succs x ↔ p.source e = x := by
  obtain ⟨hlt, hcut⟩ := mem_cuts.1 he
  rw [hm.mem_succs h hx]
  constructor
  · rintro ⟨e', he', rfl, hs⟩
    unfold next at hs
    split at hs
    · rw [splitId_inj he hs]
    · exact absurd hs.symm (h.ne_splitId (h.target_mem he'))
  · rintro rfl
    exact ⟨e, hlt, rfl, by rw [next, if_pos hcut]⟩

theorem via_iff (hx : x ∈ p.func.layout) : p.via x y = some s ↔ p.func.Between g s x y := by
  constructor
  · intro hv
    obtain ⟨e, he, rfl, rfl, rfl⟩ := exists_cut hv
    refine ⟨(hm.mem_layout _).2 (List.mem_append_right _ (List.mem_map_of_mem he)),
      fun hold => h.ne_splitId hold rfl, (hm.splitId_mem_succs h he hx).2 rfl, ?_⟩
    rw [hm.succs_split he]
    exact List.mem_singleton_self _
  · rintro ⟨hs, hnew, hxs, hsy⟩
    obtain ⟨e, he, rfl⟩ := hm.exists_cut_of_notMem hs hnew
    rw [hm.succs_split he, List.mem_singleton] at hsy
    rw [hsy, ← (hm.splitId_mem_succs h he hx).1 hxs]
    exact h.via_cut he

/-- An old block still leads to another exactly if the edge between them was not split. -/
theorem mem_succs_old (hx : x ∈ p.func.layout) (hy : y ∈ p.func.layout) :
    y ∈ g.succs x ↔ y ∈ p.func.succs x ∧ p.via x y = none := by
  rw [Func.mem_succs, hm.targets x hx, List.mem_map, Func.mem_succs]
  constructor
  · rintro ⟨t, ht, hty⟩
    rw [h.retarget_eq] at hty
    cases hv : p.via x t with
    | none =>
      rw [hv, Option.getD_none] at hty
      exact hty ▸ ⟨ht, hv⟩
    | some s =>
      obtain ⟨e, -, -, -, rfl⟩ := exists_cut hv
      rw [hv, Option.getD_some] at hty
      exact absurd hty.symm (h.ne_splitId hy)
  · rintro ⟨ht, hv⟩
    exact ⟨y, ht, by rw [h.retarget_eq, hv, Option.getD_none]⟩

theorem edge_iff (hx : x ∈ p.func.layout) (hy : y ∈ p.func.layout) : y ∈ p.func.succs x ↔
    (y ∈ g.succs x ∧ ¬∃ s, p.func.Between g s x y) ∨
      (y ∉ g.succs x ∧ ∃! s, p.func.Between g s x y) := by
  simp only [hm.mem_succs_old h hx hy, ← hm.via_iff h hx]
  cases hv : p.via x y with
  | none => simp
  | some s =>
    obtain ⟨e, he, rfl, rfl, rfl⟩ := exists_cut hv
    have hl : p.target e ∈ p.func.succs (p.source e) := h.leads (mem_cuts.1 he).1
    simp [hl]

theorem preds_split (he : e ∈ p.cuts) : (g.block (p.splitId e)).preds = [p.source e] := by
  have hlt := (mem_cuts.1 he).1
  have hsplit : p.splitId e ∈ g.layout :=
    (hm.mem_layout _).2 (List.mem_append_right _ (List.mem_map_of_mem he))
  have hmem : ∀ a, a ∈ (g.block (p.splitId e)).preds ↔ a = p.source e := by
    intro a
    rw [hm.preds _ hsplit, hm.mem_layout]
    constructor
    · rintro ⟨ha, hs⟩
      rcases List.mem_append.1 ha with ha | ha
      · exact ((hm.splitId_mem_succs h he ha).1 hs).symm
      · -- a new block leads to an old one
        obtain ⟨e', he', rfl⟩ := List.mem_map.1 ha
        rw [hm.succs_split he', List.mem_singleton] at hs
        exact absurd hs.symm (h.ne_splitId (h.target_mem (mem_cuts.1 he').1))
    · rintro rfl
      exact ⟨List.mem_append_left _ (h.source_mem hlt),
        (hm.splitId_mem_succs h he (h.source_mem hlt)).2 rfl⟩
  have hnodup : (g.block (p.splitId e)).preds.Nodup := by
    rw [hm.preds_rebuilt (List.ne_nil_of_mem he) _ hsplit]
    exact hm.nodup.filter _
  exact List.perm_singleton.1 ((List.perm_ext_iff_of_nodup hnodup (List.nodup_singleton _)).2
    fun a => by rw [hmem, List.mem_singleton])

omit h in
theorem nodup_preds (hpreds : ∀ b ∈ p.func.layout, (p.func.block b).preds.Nodup) :
    ∀ b ∈ g.layout, (g.block b).preds.Nodup := by
  intro b hb
  by_cases hnil : p.cuts = []
  · rw [hm.preds_kept hnil]
    refine hpreds b ?_
    simpa [attached, hnil] using (hm.mem_layout b).1 hb
  · rw [hm.preds_rebuilt hnil b hb]
    exact hm.nodup.filter _

theorem subdivided : p.func.Subdivided g p.via := by
  refine ⟨hm.nodup, ?_, fun x y s => ?_, fun x hx y hy => hm.edge_iff h hx hy, ?_, hm.term, ?_,
    fun b _ => hm.phis b, ?_, hm.preds⟩
  · rw [hm.layout]
    exact h.filter_spread _
  · refine ⟨fun hv => ?_, fun hb => (hm.via_iff h hb.1).2 hb.2.2⟩
    obtain ⟨e, he, rfl, rfl, -⟩ := exists_cut hv
    have hlt := (mem_cuts.1 he).1
    exact ⟨h.source_mem hlt, h.target_mem hlt, (hm.via_iff h (h.source_mem hlt)).1 hv⟩
  · intro s hs hnew
    obtain ⟨e, he, rfl⟩ := hm.exists_cut_of_notMem hs hnew
    refine ⟨p.source e, p.target e, h.via_cut he, hm.preds_split h he, hm.succs_split he, ?_⟩
    rw [hm.layout]
    exact h.pair_spread he
  · intro b hb t ht
    obtain ⟨hop, hargs, -, -⟩ := hm.old b hb t (List.mem_append_right _ (Option.mem_toList.2 ht))
    refine ⟨hop, by rw [hargs, List.length_map], ?_⟩
    have htargets := hm.targets b hb
    rw [Func.targets_of_term ht, Func.targets_of_term ((hm.term b hb).trans ht)] at htargets
    rw [htargets]
    exact List.map_congr_left fun y _ => h.retarget_eq b y
  · intro b hb i hi
    obtain ⟨hop, hargs, -, -⟩ := hm.old b hb i (List.mem_append_left _ (List.mem_append_left _ hi))
    refine ⟨hop, by rw [hargs, List.length_map], ?_⟩
    rw [hm.incoming b hb i hi]
    exact List.map_congr_left fun x _ => h.reroute_eq x b

end Moved
end Plan

namespace Motion.State

/-- A motion runs and subdivides the critical edges on which something is inserted, and no others.
No predecessor is listed twice, unless it was before. -/
theorem run_subdivided {fn : Func} {o : Options} {c : Context} {s : Sets} (h : fn.Assembled)
    (ha : Context.Answers fn o c s) :
    ∃ st via, run { func := fn, context := c } = .ok ⟨⟩ st ∧ fn.Subdivided st.func via ∧
      (∀ x y, (∃ b, via x y = some b) ↔ ∃ e < c.edges.size, (c.node (c.edge e).source).block = x ∧
        (c.node (c.edge e).target).block = y ∧ (s.insert.of e).isEmpty = false ∧
          fn.Forks x ∧ fn.Joins y) ∧
      ((∀ b ∈ fn.layout, (fn.block b).preds.Nodup) → ∀ b ∈ st.func.layout,
        (st.func.block b).preds.Nodup) := by
  have hplan := ha.feasible h
  obtain ⟨st, hrun, hm, -⟩ := hplan.run_ok
  exact ⟨st, _, hrun, hm.subdivided hplan, fun x y => hplan.via_isSome_iff, hm.nodup_preds⟩

/-- The edge around the first store gets a block. -/
theorem run_subdivided_partly : Workspace.partly.Assembled ∧ ∃ c s,
    (Context.Answers Workspace.partly { singleInsertion := false } c s ∧ 0 ∈ s.insert.of 1) ∧
    ∃ st via, run { func := Workspace.partly, context := c } = .ok ⟨⟩ st ∧
      Workspace.partly.Subdivided st.func via ∧
      (∃ b, via 1 3 = some b ∧ b ∈ st.func.layout ∧ b ∉ Workspace.partly.layout) ∧
      Workspace.partly.layout.length < st.func.layout.length ∧
      ∀ b ∈ st.func.layout, (st.func.block b).preds.Nodup := by
  have h : Workspace.partly.Assembled := by decide +kernel
  have hcrit : Workspace.partly.Forks 1 ∧ Workspace.partly.Joins 3 := by decide +kernel
  obtain ⟨c, s, ha, hp⟩ := Context.answers_of_answer? Workspace.partly { singleInsertion := false }
    (fun r => decide (0 ∈ r.2.insert.of 1 ∧ 1 < r.1.edges.size ∧
      (r.1.node (r.1.edge 1).source).block = 1 ∧
      (r.1.node (r.1.edge 1).target).block = 3 ∧ (r.2.insert.of 1).isEmpty = false)) (by
        decide +kernel)
  obtain ⟨hins, hlt, hsource, htarget, hsome⟩ := of_decide_eq_true hp
  obtain ⟨st, via, hrun, hs, hvia, hn⟩ := run_subdivided h ha
  obtain ⟨b, hb⟩ := (hvia 1 3).2 ⟨1, hlt, hsource, htarget, hsome, hcrit⟩
  obtain ⟨-, -, hnew, hold, -⟩ := (hs.via_iff 1 3 b).1 hb
  have hgrown : (st.func.layout.filter (· ∈ Workspace.partly.layout)).length <
      st.func.layout.length :=
    List.length_filter_lt_length_iff_exists.2 ⟨b, hnew, by simpa using hold⟩
  rw [hs.order] at hgrown
  exact ⟨h, c, s, ⟨ha, hins⟩, st, via, hrun, hs, ⟨b, hb, hnew, hold⟩, hgrown,
    hn (by decide +kernel)⟩

end Motion.State
end CodeMotion
