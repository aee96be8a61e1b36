import Mathlib
import CodeMotion.Proofs.SingleCopy
import CodeMotion.Workspace

/-! A motion keeps the structure of a function, whatever it moves. What the verifier says of the
function afterwards depends on the addresses of copied stores alone. -/

namespace CodeMotion

namespace Plan

variable {p : Plan} {g : Func} {x n : Nat} {a b : BlockId} {i : InstrId} {q : Nat × Nat}

/-- The addresses of all copied stores are at hand at the copies. -/
def Addressed (p : Plan) : Prop :=
  ∀ q ∈ p.copies, ∀ m, p.context.catalog.entries[q.2]? = some m → m.op = .store →
  ∀ d, m.dest = .instr d → p.AtHand q d

/-- Only instructions of bodies are deleted. -/
theorem Feasible.op_of_gone (h : p.Feasible) (hs : p.func.Structured) (hi : i ∈ p.gone) :
    (p.func.instr i).op ≠ .phi ∧ (p.func.instr i).op.isTerminator = false := by
  obtain ⟨q, hq, rfl⟩ := List.mem_map.1 hi
  have hk := (mem_deletions.1 hq).1
  exact (hs.fitting _ (h.blockAt_mem hk)).body _ (h.site_spec hq).2.1

namespace Moved

section Structure

variable (hm : p.Moved g) (h : p.Feasible) (hs : p.func.Structured)
include hm h

theorem succs_mem (ha : a ∈ p.attached) (hs : b ∈ g.succs a) : b ∈ p.attached := by
  rcases List.mem_append.1 ha with ha | ha
  · obtain ⟨x, hx, -, rfl⟩ := (hm.mem_succs h ha).1 hs
    exact h.next_mem hx
  · obtain ⟨x, hx, rfl⟩ := List.mem_map.1 ha
    rw [hm.succs_split hx, List.mem_singleton] at hs
    rw [hs]
    exact List.mem_append_left _ (h.target_mem (mem_cuts.1 hx).1)

/-- No edge leads to the entry after the motion either. -/
theorem entry_not_succ {e : BlockId} (he : p.func.layout.head? = some e) (ha : a ∈ p.attached) :
    e ∉ g.succs a := by
  intro hs
  have htarget : ∀ x < p.context.edges.size, e ≠ p.target x := by
    rintro x hx rfl
    have hpos : 0 < p.context.nodes.size :=
      Nat.lt_of_le_of_lt (Nat.zero_le _) (h.wired.target_lt x hx)
    rw [List.head?_eq_getElem?, h.layout_node hpos, Option.some.injEq] at he
    exact h.target_ne_zero hx (h.blockAt_inj (h.wired.target_lt x hx) hpos he.symm)
  rcases List.mem_append.1 ha with ha | ha
  · obtain ⟨x, hx, -, hnext⟩ := (hm.mem_succs h ha).1 hs
    unfold next at hnext
    split at hnext
    · exact absurd hnext (h.ne_splitId (List.mem_of_mem_head? he))
    · exact htarget x hx hnext
  · obtain ⟨x, hx, rfl⟩ := List.mem_map.1 ha
    rw [hm.succs_split hx, List.mem_singleton] at hs
    exact htarget x (mem_cuts.1 hx).1 hs

/-- The phis of a block come from where control comes from. -/
theorem place_mem_preds (hx : x < p.context.edges.size) :
    p.place x ∈ (g.block (p.target x)).preds := by
  refine (hm.preds _ ((hm.mem_layout _).2 (List.mem_append_left _ (h.target_mem hx))) _).2
    ⟨(hm.mem_layout _).2 (h.place_mem hx), ?_⟩
  unfold place
  split
  · next hc =>
    rw [hm.succs_split (mem_cuts.2 ⟨hx, hc⟩)]
    exact List.mem_singleton_self _
  · next hc => exact (hm.mem_succs h (h.source_mem hx)).2 ⟨x, hx, rfl, by rw [next, if_neg hc]⟩

theorem succs_fit (ha : a ∈ p.attached) (hs : b ∈ g.succs a) :
    b ∈ g.layout ∧ g.hasBlock b = true ∧ a ∈ (g.block b).preds := by
  have hb := hm.succs_mem h ha hs
  have hl := (hm.mem_layout b).2 hb
  exact ⟨hl, hm.hasBlock h hb, (hm.preds b hl a).2 ⟨(hm.mem_layout a).2 ha, hs⟩⟩

theorem preds_fit (hb : b ∈ p.attached) (ha : a ∈ (g.block b).preds) :
    g.hasBlock a = true ∧ b ∈ g.succs a := by
  obtain ⟨hl, hs⟩ := (hm.preds b ((hm.mem_layout b).2 hb) a).1 ha
  exact ⟨hm.hasBlock h ((hm.mem_layout a).1 hl), hs⟩

include hs

theorem copy_fits (hi : i ∈ p.placed p.copies b) :
    (g.instr i).op ≠ .phi ∧ (g.instr i).op.isTerminator = false ∧ (g.instr i).block = some b := by
  obtain ⟨q, hq, rfl⟩ := List.mem_map.1 hi
  obtain ⟨hq, hplace⟩ := List.mem_filter.1 hq
  rw [beq_iff_eq] at hplace
  obtain ⟨m, hm', -⟩ := h.exists_entry (mem_copies.1 hq).2 (mem_copies.1 hq).1
  obtain ⟨-, -, home, hl, hbody⟩ := h.origin_of_entry hm'
  obtain ⟨hop, -, -, hblock⟩ := hm.copy q hq
  rw [hop, hblock, hplace]
  have hfit := (hs.fitting home hl).body _ hbody
  exact ⟨hfit.1, hfit.2, rfl⟩

theorem fits_old (hb : b ∈ p.func.layout) : g.Fitting b := by
  have hf := hs.fitting b hb
  have hatt : b ∈ p.attached := List.mem_append_left _ hb
  obtain ⟨t, ht, hterm⟩ := hf.term
  have hphi : ∀ i ∈ (p.func.block b).phis, i ∈ p.func.listed b :=
    fun i hi => List.mem_append_left _ (List.mem_append_left _ hi)
  have hbody : ∀ i ∈ (p.func.block b).body, i ∈ p.func.listed b :=
    fun i hi => Func.mem_listed_of_body hi
  have htl : t ∈ p.func.listed b :=
    List.mem_append_right _ (by rw [ht]; exact List.mem_singleton_self t)
  have hstays : ∀ i ∈ p.func.listed b, i ∉ p.gone → (g.instr i).block = some b := fun i hi hno =>
    hm.block_kept hs hb hi hno
  refine ⟨⟨t, (hm.term b hb).trans ht, by rw [(hm.old b hb t htl).1, hterm]⟩, fun i hi => ?_,
    fun i hi => ?_, fun i hi => ?_,
    fun s hs => hm.succs_fit h hatt hs, fun a ha => hm.preds_fit h hatt ha⟩
  · rw [hm.phis] at hi
    obtain ⟨hop, hlen, hin⟩ := hf.phis i hi
    obtain ⟨hop', hargs, -⟩ := hm.old b hb i (hphi i hi)
    rw [hop', hargs, hm.incoming b hb i hi, List.length_map, List.length_map]
    refine ⟨hop, hlen, fun a ha => ?_⟩
    obtain ⟨c, hc, rfl⟩ := List.mem_map.1 ha
    obtain ⟨hcl, hleads⟩ := (h.assembled.preds b hb c).1 (hin c hc)
    obtain ⟨j, hj, rfl⟩ := h.exists_node hcl
    obtain ⟨x, hx, hsource, rfl⟩ := h.exists_edge hj hleads
    rw [← hsource]
    exact (h.reroute_edge hx).symm ▸ hm.place_mem_preds h hx
  · rw [hm.body b hatt, List.mem_append, List.mem_filter] at hi
    rcases hi with ⟨hi, -⟩ | hi
    · rw [(hm.old b hb i (hbody i hi)).1]
      exact hf.body i hi
    · exact ⟨(hm.copy_fits h hs hi).1, (hm.copy_fits h hs hi).2.1⟩
  · unfold Func.listed at hi
    rw [hm.phis, hm.body b hatt, hm.term b hb, ht, Option.toList_some, List.mem_append,
      List.mem_append, List.mem_append,
      List.mem_filter, decide_eq_true_eq, List.mem_singleton] at hi
    rcases hi with (hi | ⟨hi, hno⟩ | hi) | rfl
    · exact hstays i (hphi i hi) fun hg => (h.op_of_gone hs hg).1 (hf.phis i hi).1
    · exact hstays i (hbody i hi) hno
    · exact (hm.copy_fits h hs hi).2.2
    · refine hstays i htl fun hg => ?_
      rw [(h.op_of_gone hs hg).2] at hterm
      cases hterm

theorem fits_split (hx : x ∈ p.cuts) : g.Fitting (p.splitId x) := by
  have hatt : p.splitId x ∈ p.attached := List.mem_append_right _ (List.mem_map_of_mem hx)
  have hphis : (g.block (p.splitId x)).phis = [] := by rw [hm.phis, p.block_splitId]
  have hbody : (g.block (p.splitId x)).body = p.placed p.copies (p.splitId x) := by
    rw [hm.body _ hatt, p.block_splitId]
    rfl
  have hjump := hm.jump x hx
  refine ⟨⟨p.jumpId x, hm.term_split x hx, by rw [hjump]; rfl⟩, fun i hi => ?_, fun i hi => ?_,
    fun i hi => ?_, fun s hs => hm.succs_fit h hatt hs, fun a ha => hm.preds_fit h hatt ha⟩
  · rw [hphis] at hi
    cases hi
  · rw [hbody] at hi
    exact ⟨(hm.copy_fits h hs hi).1, (hm.copy_fits h hs hi).2.1⟩
  · unfold Func.listed at hi
    rw [hphis, hbody, hm.term_split x hx, List.nil_append, List.mem_append, Option.toList_some,
      List.mem_singleton] at hi
    rcases hi with hi | rfl
    · exact (hm.copy_fits h hs hi).2.2
    · rw [hjump]

/-- The blocks of a function still fit together after a motion. -/
theorem structured : g.Structured := by
  refine ⟨fun e he => ?_, fun b hb => ?_⟩
  · have he' : p.func.layout.head? = some e := by rw [← hm.head]; exact he
    have hatt : e ∈ p.attached := List.mem_append_left _ (List.mem_of_mem_head? he')
    refine ⟨hm.hasBlock h hatt, List.eq_nil_iff_forall_not_mem.2 fun a ha => ?_⟩
    obtain ⟨hl, hs⟩ := (hm.preds e ((hm.mem_layout e).2 hatt) a).1 ha
    exact hm.entry_not_succ h he' ((hm.mem_layout a).1 hl) hs
  · rcases List.mem_append.1 ((hm.mem_layout b).1 hb) with hb | hb
    · exact hm.fits_old h hs hb
    · obtain ⟨x, hx, rfl⟩ := List.mem_map.1 hb
      exact hm.fits_split h hs hx

end Structure

variable (hm : p.Moved g) (h : p.Valid)
include hm h

/-- The verifier accepts the function after a motion exactly if the addresses of copied stores are
at hand. -/
theorem verified_iff : g.Verified ↔ p.Addressed := by
  constructor
  · intro hv q hq m hm' hop d hdest
    obtain ⟨hreach, n, hn⟩ := hm.exists_place h hq
    obtain ⟨-, v, hargs⟩ := hm.store_copy_args h hq hm' hop
    obtain ⟨d', hd'⟩ : ∃ d', p.rename (.instr d) = .instr d' := by
      by_cases hmoved : ∃ r, p.Moves r ∧ p.origin r.2 = d
      · obtain ⟨r, hr, rfl⟩ := hmoved
        exact ⟨_, h.rename_moved hr⟩
      · push Not at hmoved
        exact ⟨d, h.rename_unmoved fun r hr heq => hmoved r hr (Value.instr.inj heq).symm⟩
    refine (hm.ready_address_iff h hq hm' hop hdest hd' hn).1
      ((hv.supplied _ hreach).uses (p.copyId q) n
      (Func.place_of_body hn) d' ?_)
    rw [hargs, hdest, hd']
    exact List.mem_cons_of_mem _ List.mem_cons_self
  · intro hall
    refine ⟨hm.structured h h.sound.toStructured, fun b hb => ⟨fun i hi d source hz hs => ?_,
      fun i n hi d hd => ?_⟩⟩
    · obtain ⟨hl, hi⟩ := hm.mem_layout_of_phi (hm.mem_attached h hb) hi
      exact hm.ready_phi h hl hi hz hs
    · rcases hm.ready_or_address h hb hi hd with hready | ⟨q, hq, m, d', rfl, hn, hm',
        hop, hdest, hren⟩
      · exact hready
      · exact (hm.ready_address_iff h hq hm' hop hdest hren hn).2 (hall q hq m hm' hop d' hdest)

end Moved
end Plan
end CodeMotion
