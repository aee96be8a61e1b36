import Mathlib
import CodeMotion.Proofs.Computations

/-! What a motion counts is what the analysis decided: each chosen copy is made, each chosen
occurrence goes away, and each critical edge with a copy is split. The function grows by
just that. -/

namespace CodeMotion

namespace Func

/-- The phis and the bodies can be counted apart. -/
theorem instrCount_eq (fn : Func) : fn.instrCount =
    (fn.layout.flatMap fun b => (fn.block b).phis).length + (fn.layout.flatMap fun b =>
      (fn.block b).body).length := by
  rw [instrCount, ← List.length_append]
  exact (List.flatMap_append_perm _ _ _).length_eq.symm

end Func

namespace Plan

variable {p : Plan} {g : Func}

theorem flatMap_attached {α : Type} {f : BlockId → List α} (hf : ∀ x, f (p.splitId x) = []) :
    p.attached.flatMap f = p.func.layout.flatMap f := by
  have hnil : (p.cuts.map p.splitId).flatMap f = [] := by
    rw [List.flatMap_eq_nil_iff]
    rintro b hb
    obtain ⟨x, -, rfl⟩ := List.mem_map.1 hb
    exact hf x
  rw [attached, List.flatMap_append, hnil, List.append_nil]

theorem length_copies (p : Plan) :
    p.copies.length = ∑ x ∈ Finset.range p.context.edges.size, (p.sets.insert.of x).card := by
  rw [copies, List.length_flatMap]
  simp only [copiesOn, List.length_map]
  rfl

namespace Feasible

variable (h : p.Feasible)
include h

theorem length_deletions :
    p.deletions.length = ∑ k ∈ Finset.range p.context.nodes.size, (p.sets.delete.of k).card := by
  have hone : ∀ k, (p.deletionsIn k).length = (p.sets.delete.of k).card := by
    intro k
    have hlen : ∀ e ∈ (p.sets.delete.of k).toList, (p.deletionOf k e).length = 1 := fun e he => by
      rw [deletionOf, h.isKept_eq_false (BitSet.mem_toList.1 he)]
      rfl
    rw [deletionsIn, List.length_flatMap, List.map_congr_left hlen]
    simp [BitSet.card]
  rw [deletions, List.length_flatMap]
  simp only [hone]
  rfl

theorem length_cuts : p.cuts.length = ((Finset.range p.context.edges.size).filter fun x =>
    (p.sets.insert.of x).isEmpty = false ∧ p.func.Forks (p.source x) ∧
      p.func.Joins (p.target x)).card := by
  rw [← List.toFinset_card_of_nodup p.nodup_cuts]
  congr 1
  ext x
  rw [List.mem_toFinset, mem_cuts, Finset.mem_filter, Finset.mem_range]
  exact and_congr_right fun hx => h.isCut_iff hx

/-- Every copy is in one block. -/
theorem placed_perm : (p.attached.flatMap (p.placed p.copies)).Perm (p.copies.map p.copyId) := by
  have hmem : ∀ b i, i ∈ p.placed p.copies b ↔ ∃ q ∈ p.copies, p.place q.1 = b ∧
      p.copyId q = i := by
    intro b i
    simp only [placed, List.mem_map, List.mem_filter, beq_iff_eq, and_assoc]
  have hnd : (p.attached.flatMap (p.placed p.copies)).Nodup := by
    refine List.nodup_flatMap.2 ⟨fun b _ => p.nodup_placed b,
      h.nodup_attached.imp fun {a b} hne i hi hi' => hne ?_⟩
    obtain ⟨q, hq, rfl, rfl⟩ := (hmem a i).1 hi
    obtain ⟨r, -, rfl, he⟩ := (hmem b _).1 hi'
    rw [copyId_inj hq he.symm]
  have hnd' : (p.copies.map p.copyId).Nodup :=
    List.Nodup.map_on (fun q hq r _ he => copyId_inj hq he) p.nodup_copies
  refine (List.perm_ext_iff_of_nodup hnd hnd').2 fun i => ?_
  simp only [List.mem_flatMap, hmem, List.mem_map]
  constructor
  · rintro ⟨b, -, q, hq, -, rfl⟩
    exact ⟨q, hq, rfl⟩
  · rintro ⟨q, hq, rfl⟩
    exact ⟨p.place q.1, h.place_mem (mem_copies.1 hq).1, q, hq, rfl, rfl⟩

/-- Every instruction that goes away is in one body. -/
theorem gone_perm : ((p.func.layout.flatMap fun b => (p.func.block b).body).filter
    (· ∈ p.gone)).Perm p.gone := by
  have hbodies : (p.func.layout.flatMap fun b => (p.func.block b).body).Nodup := by
    refine List.nodup_flatMap.2 ⟨fun b hb => h.assembled.nodup_body hb, ?_⟩
    refine h.assembled.nodup.imp_of_mem fun {a b} ha hb hne i hi hi' => hne ?_
    exact h.assembled.block_unique ha hb (Func.mem_listed_of_body hi) (Func.mem_listed_of_body hi')
  have hgone : p.gone.Nodup :=
    List.Nodup.map_on (fun q hq r hr he => h.site_inj hq hr he) p.nodup_deletions
  refine (List.perm_ext_iff_of_nodup (hbodies.filter _) hgone).2 fun i => ?_
  rw [List.mem_filter, decide_eq_true_eq, and_iff_right_iff_imp]
  intro hi
  obtain ⟨q, hq, rfl⟩ := List.mem_map.1 hi
  exact List.mem_flatMap.2 ⟨p.blockAt q.1, h.blockAt_mem (mem_deletions.1 hq).1,
    (h.site_spec hq).2.1⟩

end Feasible

namespace Moved

variable (hm : p.Moved g) (h : p.Feasible)
include hm h

theorem layout_perm : g.layout.Perm p.attached :=
  (List.perm_ext_iff_of_nodup hm.nodup h.nodup_attached).2 hm.mem_layout

theorem length_layout : g.layout.length = p.func.layout.length + p.cuts.length := by
  rw [(hm.layout_perm h).length_eq, attached, List.length_append, List.length_map]

/-- A function gains its copies and loses what was deleted. -/
theorem instrCount_add :
    g.instrCount + p.deletions.length = p.func.instrCount + p.copies.length := by
  have hphis : (g.layout.flatMap fun b => (g.block b).phis).length = (p.func.layout.flatMap fun b =>
      (p.func.block b).phis).length := by
    simp only [hm.phis]
    rw [((hm.layout_perm h).flatMap_right _).length_eq, flatMap_attached fun x =>
      by rw [p.block_splitId x]]
  have hbody : (g.layout.flatMap fun b => (g.block b).body).length =
      ((p.func.layout.flatMap fun b => (p.func.block b).body).filter (· ∉ p.gone)).length +
        p.copies.length := by
    calc (g.layout.flatMap fun b => (g.block b).body).length
        = (p.attached.flatMap fun b => (g.block b).body).length :=
          ((hm.layout_perm h).flatMap_right _).length_eq
      _ = (p.attached.flatMap fun b => (p.func.block b).body.filter (· ∉ p.gone) ++
        p.placed p.copies b).length := by
          rw [List.flatMap_congr hm.body]
      _ = (p.attached.flatMap fun b => (p.func.block b).body.filter (· ∉ p.gone)).length +
            (p.attached.flatMap (p.placed p.copies)).length := by
          rw [← List.length_append]
          exact (List.flatMap_append_perm _ _ _).length_eq.symm
      _ = _ := by
          rw [h.placed_perm.length_eq, List.length_map, flatMap_attached fun x =>
            by rw [p.block_splitId x]; rfl, List.filter_flatMap]
  have hgone : p.deletions.length = ((p.func.layout.flatMap fun b => (p.func.block b).body).filter
      (· ∈ p.gone)).length := by
    rw [h.gone_perm.length_eq, gone, List.length_map]
  have hsplit :=
    List.length_eq_length_filter_add (l := p.func.layout.flatMap fun b =>
      (p.func.block b).body) (· ∈ p.gone)
  simp only [decide_not] at hbody
  rw [Func.instrCount_eq, Func.instrCount_eq, hphis, hbody, hgone, hsplit]
  omega

end Moved
end Plan

namespace Motion.State

/-- The motion of a function as a builder leaves it: after an analysis it always comes to an end
without a word, its counters are the sizes of the sets decided on, and the function grows by just
what they say. -/
theorem run_counts {fn : Func} (h : fn.Built) (o : Options) : ∃ c₀, Context.ofFunc fn o = .ok c₀ ∧
    (o.trace = .off → ∃ r c, Context.analyze fn c₀ = .ok r c) ∧
    ∀ c, Context.analyze fn c₀ = .ok true c → ∃ s st, c.sets = some s ∧
      run { func := fn, context := c } = .ok ⟨⟩ st ∧
      st.context.log = c.log ∧
      st.done.inserted = ∑ x ∈ Finset.range c.edges.size, (s.insert.of x).card ∧
      st.done.deleted = ∑ k ∈ Finset.range c.nodes.size, (s.delete.of k).card ∧
      st.done.splits = ((Finset.range c.edges.size).filter fun x =>
        (s.insert.of x).isEmpty = false ∧
        fn.Forks (c.node (c.edge x).source).block ∧
          fn.Joins (c.node (c.edge x).target).block).card ∧
      (st.func.instrCount : Int) = fn.instrCount + st.done.inserted - st.done.deleted ∧
      st.func.layout.length = fn.layout.length + st.done.splits := by
  obtain ⟨c₀, h₀⟩ := Context.ofFunc_ok h.enclosed.drawable o
  obtain ⟨hfresh, hopt⟩ := Context.ofFunc_fresh h₀
  refine ⟨c₀, h₀, fun ho => Context.analyze_ok hfresh h.readable (hopt ▸ ho), fun c hc => ?_⟩
  obtain ⟨s, hs, -⟩ := Context.analyze_spec hfresh hc
  have hplan : Plan.Feasible ⟨fn, c, s⟩ := Context.Answers.feasible ⟨c₀, h₀, hc, hs⟩ h.toAssembled
  obtain ⟨st, hrun, hm, -, -, hdone, hlog⟩ := hplan.run_ok
  have hcount := hm.instrCount_add hplan
  refine ⟨s, st, hs, hrun, hlog, ?_, ?_, ?_, ?_, ?_⟩
  · rw [hdone]
    exact Plan.length_copies _
  · rw [hdone]
    exact hplan.length_deletions
  · rw [hdone]
    exact hplan.length_cuts
  · rw [hdone]
    dsimp only at hcount ⊢
    omega
  · rw [hdone]
    exact hm.length_layout hplan

/-- One store is copied, one is deleted, and one edge is split. -/
theorem run_counts_partly : Workspace.partly.Built ∧ ∃ c₀ c st,
    Context.ofFunc Workspace.partly { singleInsertion := false } = .ok c₀ ∧
    Context.analyze Workspace.partly c₀ = .ok true c ∧
    run { func := Workspace.partly, context := c } = .ok ⟨⟩ st ∧
    st.context.log = c.log ∧ st.done = { inserted := 1, deleted := 1, splits := 1 } ∧
      st.func.instrCount = 2 ∧
    st.func.layout.length = 4 := by
  have hb : Workspace.partly.Built := by decide +kernel
  obtain ⟨c, s, ⟨c₀, h₀, hc, hs⟩, hp⟩ :=
    Context.answers_of_answer? Workspace.partly { singleInsertion := false }
    (fun r => decide ((∑ x ∈ Finset.range r.1.edges.size, (r.2.insert.of x).card) = 1 ∧
      (∑ k ∈ Finset.range r.1.nodes.size, (r.2.delete.of k).card) = 1 ∧
      ((Finset.range r.1.edges.size).filter fun x => (r.2.insert.of x).isEmpty = false ∧
        Workspace.partly.Forks (r.1.node (r.1.edge x).source).block ∧
        Workspace.partly.Joins (r.1.node (r.1.edge x).target).block).card = 1)) (by decide +kernel)
  obtain ⟨hins, hdel, hcut⟩ := of_decide_eq_true hp
  obtain ⟨c₁, h₁, -, hall⟩ := run_counts hb { singleInsertion := false }
  rw [h₀, Except.ok.injEq] at h₁
  subst h₁
  obtain ⟨s', st, hs', hrun, hlog, hi, hd, hx, hn, hl⟩ := hall c hc
  rw [hs, Option.some.injEq] at hs'
  subst hs'
  rw [hins] at hi
  rw [hdel] at hd
  rw [hcut] at hx
  have hdone : st.done = { inserted := 1, deleted := 1, splits := 1 } := by
    cases hst : st.done
    simp_all
  have hold : Workspace.partly.instrCount = 2 ∧ Workspace.partly.layout.length = 3 := by decide
  rw [hi, hd, hold.1] at hn
  rw [hx, hold.2] at hl
  exact ⟨hb, c₀, c, st, h₀, hc, hrun, hlog, hdone, by omega, hl⟩

end Motion.State
end CodeMotion
