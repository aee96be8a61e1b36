import Mathlib
import CodeMotion.Proofs.Rebuilding
import CodeMotion.Proofs.Splicing

/-! The function that a motion leaves, said in terms of the plan. Every valid plan can be
carried out. -/

namespace CodeMotion.Plan

open Motion (State)

structure Moved (p : Plan) (g : Func) : Prop where
  name : g.name = p.func.name
  isExternal : g.isExternal = p.func.isExternal
  layout : g.layout = p.spread p.cuts
  mem_layout : ∀ b, b ∈ g.layout ↔ b ∈ p.attached
  head : g.layout.head? = p.func.layout.head?
  nodup : g.layout.Nodup
  blocks_size : g.blocks.size = p.func.blocks.size + p.cuts.length
  phis : ∀ b, (g.block b).phis = (p.func.block b).phis
  body : ∀ b ∈ p.attached, (g.block b).body = (p.func.block b).body.filter (· ∉ p.gone) ++
    p.placed p.copies b
  term : ∀ b ∈ p.func.layout, (g.block b).term = (p.func.block b).term
  term_split : ∀ x ∈ p.cuts, (g.block (p.splitId x)).term = some (p.jumpId x)
  jump : ∀ x ∈ p.cuts, g.instr (p.jumpId x) =
    { op := .jump, targets := [p.target x], block := some (p.splitId x) }
  old : ∀ b ∈ p.func.layout, ∀ i ∈ p.func.listed b, (g.instr i).op = (p.func.instr i).op ∧
    (g.instr i).args = (p.func.instr i).args.map p.rename ∧
      (g.instr i).callee = (p.func.instr i).callee ∧
    (g.instr i).block = if i ∈ p.gone then none else (p.func.instr i).block
  copy : ∀ q ∈ p.copies, (g.instr (p.copyId q)).op = (p.func.instr (p.origin q.2)).op ∧
    (g.instr (p.copyId q)).args = (p.func.instr (p.origin q.2)).args.map p.rename ∧
    (g.instr (p.copyId q)).callee = (p.func.instr (p.origin q.2)).callee ∧
    (g.instr (p.copyId q)).block = some (p.place q.1)
  targets : ∀ b ∈ p.func.layout, g.targets b = (p.func.targets b).map (p.retarget p.cuts b)
  incoming : ∀ b ∈ p.func.layout, ∀ i ∈ (p.func.block b).phis,
    (g.instr i).incoming = (p.func.instr i).incoming.map (p.reroute p.cuts b)
  preds : ∀ b ∈ g.layout, ∀ a, a ∈ (g.block b).preds ↔ a ∈ g.layout ∧ b ∈ g.succs a
  preds_kept : p.cuts = [] → ∀ b, (g.block b).preds = (p.func.block b).preds
  preds_rebuilt : p.cuts ≠ [] → ∀ b ∈ g.layout, (g.block b).preds = g.layout.filter (b ∈ g.succs ·)

variable {p : Plan} {f g g' : Func} {x : Nat} {b : BlockId}

def next (p : Plan) (x : Nat) : BlockId := if p.isCut x then p.splitId x else p.target x

theorem Feasible.retarget_edge (h : p.Feasible) (hx : x < p.context.edges.size) :
    p.retarget p.cuts (p.source x) (p.target x) = p.next x := by
  unfold next
  cases hc : p.isCut x with
  | true => exact h.retarget_cut (mem_cuts.2 ⟨hx, hc⟩)
  | false => exact h.retarget_uncut hx hc

theorem Feasible.reroute_edge (h : p.Feasible) (hx : x < p.context.edges.size) :
    p.reroute p.cuts (p.target x) (p.source x) = p.place x := by
  unfold place
  cases hc : p.isCut x with
  | true => exact h.reroute_cut (mem_cuts.2 ⟨hx, hc⟩)
  | false => exact h.reroute_uncut hx hc

theorem Feasible.next_mem (h : p.Feasible) (hx : x < p.context.edges.size) :
    p.next x ∈ p.attached := by
  unfold next
  split
  · next hc => exact List.mem_append_right _ (List.mem_map_of_mem (mem_cuts.2 ⟨hx, hc⟩))
  · exact List.mem_append_left _ (h.target_mem hx)

/-- Once all split blocks are made, the attached blocks are blocks. -/
theorem Feasible.hasBlock_attached (h : p.Feasible)
    (hg : g.blocks.size = p.func.blocks.size + p.cuts.length) (hb : b ∈ p.attached) :
    g.hasBlock b = true := by
  rcases List.mem_append.1 hb with hb | hb
  · have := Func.hasBlock_iff.1 (h.hasBlock hb)
    exact Func.hasBlock_iff.2 ⟨this.1, hg ▸ this.2.trans (Nat.le_add_right _ _)⟩
  · obtain ⟨x, hx, rfl⟩ := List.mem_map.1 hb
    have := List.idxOf_lt_length_of_mem hx
    refine Func.hasBlock_iff.2 ⟨Nat.lt_of_le_of_lt (Nat.zero_le _) (p.lt_splitId x), ?_⟩
    rw [hg]
    show p.func.blocks.size + 1 + p.cuts.idxOf x ≤ _
    omega

/-- The successors of an old block. -/
theorem Feasible.mem_succs_of_targets (h : p.Feasible) (hb : b ∈ p.func.layout)
    (ht : g.targets b = (p.func.targets b).map (p.retarget p.cuts b)) {s : BlockId} :
    s ∈ g.succs b ↔ ∃ x < p.context.edges.size, p.source x = b ∧ s = p.next x := by
  rw [Func.mem_succs, ht, List.mem_map]
  obtain ⟨k, hk, rfl⟩ := h.exists_node hb
  constructor
  · rintro ⟨t, ht, rfl⟩
    obtain ⟨x, hx, hsource, rfl⟩ := h.exists_edge hk (Func.mem_succs.2 ht)
    have hs : p.source x = p.blockAt k := by rw [source, hsource]
    exact ⟨x, hx, hs, by rw [← hs, h.retarget_edge hx]⟩
  · rintro ⟨x, hx, hs, rfl⟩
    exact ⟨p.target x, Func.mem_succs.1 (hs ▸ h.leads hx), by rw [← hs, h.retarget_edge hx]⟩

namespace Joined

theorem mem_attached (hf : p.Settled f) (hj : p.Joined f p.cuts g) (b : BlockId) :
    b ∈ g.layout ↔ b ∈ p.attached := by
  rw [hj.mem_layout, hf.layout, attached, List.mem_append, List.mem_map]
  simp only [eq_comm]

theorem mem_succs (h : p.Feasible) (hf : p.Settled f) (hj : p.Joined f p.cuts g)
    (hb : b ∈ p.func.layout) {s : BlockId} :
    s ∈ g.succs b ↔ ∃ x < p.context.edges.size, p.source x = b ∧ s = p.next x := by
  refine h.mem_succs_of_targets hb ?_
  rw [hj.targets b hb, hf.targets hb]

theorem succs_split (hj : p.Joined f p.cuts g) (hx : x ∈ p.cuts) :
    g.succs (p.splitId x) = [p.target x] := by
  unfold Func.succs
  rw [Func.targets_of_term (hj.term_split x hx), hj.jump x hx]
  rfl

theorem hasBlock (h : p.Feasible) (hf : p.Settled f) (hj : p.Joined f p.cuts g)
    (hb : b ∈ p.attached) : g.hasBlock b = true :=
  h.hasBlock_attached (hj.blocks_size.trans hf.blocks_size) hb

/-- Successors of attached blocks are attached. -/
theorem succs_attached (h : p.Feasible) (hf : p.Settled f) (hj : p.Joined f p.cuts g)
    (hb : b ∈ p.attached) : ∀ s ∈ g.succs b, s ∈ p.attached := by
  intro s hs
  rcases List.mem_append.1 hb with hb | hb
  · obtain ⟨x, hx, -, rfl⟩ := (hj.mem_succs h hf hb).1 hs
    exact h.next_mem hx
  · obtain ⟨x, hx, rfl⟩ := List.mem_map.1 hb
    rw [hj.succs_split hx, List.mem_singleton] at hs
    rw [hs]
    exact List.mem_append_left _ (h.target_mem (mem_cuts.1 hx).1)

end Joined

/-- Without split edges the old predecessor lists are still right. -/
theorem Joined.preds_of_nil (h : p.Feasible) (hf : p.Settled f) (hj : p.Joined f p.cuts g)
    (hnil : p.cuts = []) :
    ∀ b ∈ g.layout, ∀ a, a ∈ (g.block b).preds ↔ a ∈ g.layout ∧ b ∈ g.succs a := by
  have hlayout : ∀ b, b ∈ g.layout ↔ b ∈ p.func.layout := fun b => by
    rw [hj.mem_attached hf, attached, hnil, List.map_nil, List.append_nil]
  have hsuccs : ∀ a ∈ p.func.layout, ∀ b, b ∈ g.succs a ↔ b ∈ p.func.succs a := by
    intro a ha b
    rw [hj.mem_succs h hf ha]
    obtain ⟨k, hk, rfl⟩ := h.exists_node ha
    have hcut : ∀ x < p.context.edges.size, p.isCut x = false := fun x hx =>
        Bool.eq_false_iff.2 fun hc => by
      have := mem_cuts.2 ⟨hx, hc⟩
      rw [hnil] at this
      cases this
    constructor
    · rintro ⟨x, hx, hs, rfl⟩
      rw [next, hcut x hx, ← hs]
      exact h.leads hx
    · intro hl
      obtain ⟨x, hx, hs, rfl⟩ := h.exists_edge hk hl
      exact ⟨x, hx, by rw [source, hs], by rw [next, hcut x hx, if_neg Bool.false_ne_true]⟩
  intro b hb a
  have hb' := (hlayout b).1 hb
  rw [hj.preds hnil, hf.preds, hlayout]
  constructor
  · intro ha
    obtain ⟨hal, hs⟩ := (h.assembled.preds b hb' a).1 ha
    exact ⟨hal, (hsuccs a hal b).2 hs⟩
  · rintro ⟨hal, hs⟩
    exact (h.assembled.preds b hb' a).2 ⟨hal, (hsuccs a hal b).1 hs⟩

/-- All steps together, once the predecessor lists are right. -/
theorem Settled.moved (hf : p.Settled f) (h : p.Feasible) (hj : p.Joined f p.cuts g)
    (hr : g.Framed g') (hkept : p.cuts = [] → ∀ b, (g'.block b).preds = (g.block b).preds)
    (hrebuilt : p.cuts ≠ [] →
      ∀ b ∈ g.layout, (g'.block b).preds = g.layout.filter (b ∈ g.succs ·)) :
    p.Moved g' := by
  have hsuccs : ∀ b, g'.succs b = g.succs b := fun b => by
    unfold Func.succs
    rw [hr.targets]
  have hlisted : ∀ b ∈ p.func.layout, ∀ i ∈ p.func.listed b, i ≤ f.instrs.size := fun b hb i hi =>
    hf.instrs_size ▸ (h.assembled.listed_le hb hi).trans (Nat.le_add_right _ _)
  have hpreds : ∀ b ∈ g.layout, ∀ a, a ∈ (g'.block b).preds ↔ a ∈ g.layout ∧ b ∈ g.succs a := by
    intro b hb a
    by_cases hnil : p.cuts = []
    · rw [hkept hnil, hj.preds_of_nil h hf hnil b hb]
    · rw [hrebuilt hnil b hb, List.mem_filter, decide_eq_true_eq]
  refine ⟨?_, ?_, ?_, ?_, ?_, ?_, ?_, ?_, ?_, ?_, ?_, ?_, ?_, ?_, ?_, ?_, ?_, ?_, ?_⟩
  · rw [hr.name, hj.name, hf.name]
  · rw [hr.isExternal, hj.isExternal, hf.isExternal]
  · rw [hr.layout, hj.layout]
  · intro b
    rw [hr.layout, hj.mem_attached hf]
  · rw [hr.layout, hj.head, hf.layout]
  · rw [hr.layout]
    exact hj.nodup
  · rw [hr.blocks_size, hj.blocks_size, hf.blocks_size]
  · intro b
    rw [hr.phis, hj.phis, hf.phis]
  · intro b hb
    rw [hr.body, hj.body, hf.body b hb]
  · intro b hb
    rw [hr.term, hj.term b fun y _ => h.ne_splitId hb, hf.term]
  · intro x hx
    rw [hr.term, hj.term_split x hx]
  · intro x hx
    rw [hr.instr, hj.jump x hx]
  · intro b hb i hi
    obtain ⟨h1, h2, h3, h4⟩ := hj.instr i (hlisted b hb i hi)
    rw [hr.instr, h1, h2, h3, h4, hf.old b hb i hi]
    exact ⟨rfl, rfl, rfl, rfl⟩
  · intro q hq
    obtain ⟨h1, h2, h3, h4⟩ := hj.instr (p.copyId q) (hf.instrs_size ▸ copyId_le hq)
    rw [hr.instr, h1, h2, h3, h4, hf.copy q hq]
    exact ⟨rfl, rfl, rfl, rfl⟩
  · intro b hb
    rw [hr.targets, hj.targets b hb, hf.targets hb]
  · intro b hb i hi
    rw [hr.instr, hj.incoming b hb i hi,
      hf.old b hb i (List.mem_append_left _ (List.mem_append_left _ hi))]
  · intro b hb a
    rw [hr.layout] at hb ⊢
    rw [hpreds b hb, hsuccs]
  · intro hnil b
    rw [hkept hnil, hj.preds hnil, hf.preds]
  · intro hcuts b hb
    rw [hr.layout] at hb ⊢
    simp only [hrebuilt hcuts b hb, hsuccs]

theorem Settled.spliceAll (hf : p.Settled f) (h : p.Feasible) {st : State}
    (hi : p.Inserted p.copies p.cuts st) {m : Motion} (hm : m.splits = 0) :
    ∃ g, State.spliceAll { st with func := f, done := m } =
        .ok ⟨⟩ { st with func := g, done := { m with splits := p.cuts.length } } ∧
      p.Moved g := by
  obtain ⟨g, hrun, hj⟩ := hf.forM_splice h hi m
  rw [hm, Nat.zero_add] at hrun
  have hsize : ({ st with func := f, done := m } : State).context.edges.size =
      p.context.edges.size :=
    hi.edges_size
  unfold State.spliceAll
  rw [Change.get_bind, hsize, Change.bind_eq hrun, Change.get_bind]
  by_cases hnil : p.cuts = []
  · refine ⟨g, ?_, hf.moved h hj (.refl g) (fun _ _ => rfl) fun hcuts => absurd hnil hcuts⟩
    rw [if_neg (by simp [hnil])]
    rfl
  · obtain ⟨g', hrebuild, hframe, hpreds⟩ := Func.rebuild_ok
      (fun b hb => hj.hasBlock h hf ((hj.mem_attached hf b).1 hb))
      (fun b hb s hs => hj.hasBlock h hf
        (hj.succs_attached h hf ((hj.mem_attached hf b).1 hb) s hs))
    refine ⟨g', ?_, hf.moved h hj hframe (fun hn => absurd hn hnil) fun _ => hpreds⟩
    rw [if_pos (by simpa using hnil)]
    exact Change.zoom_ok hrebuild

/-- Every plan that the analysis makes can be carried out, without a complaint. -/
theorem Feasible.run_ok (h : p.Feasible) :
    ∃ st, State.run { func := p.func, context := p.context } = .ok ⟨⟩ st ∧ p.Moved st.func ∧
    st.clones = p.copies.map (fun q => (q.2, p.copyId q)) ∧ st.splits = p.cuts.map p.splitId ∧
    st.done =
      { inserted := p.copies.length, deleted := p.deletions.length, splits := p.cuts.length } ∧
    st.context.log = p.context.log := by
  have hi := Inserted.insertAll h.toDrafted
  obtain ⟨st, hst⟩ : ∃ st, st = State.insertAll p.sets { func := p.func, context := p.context } :=
    ⟨_, rfl⟩
  rw [← hst] at hi
  obtain ⟨g, hrewire, hr⟩ := hi.rewireAll h
  obtain ⟨⟨f, c, clones, splits, m⟩, hdelete, hc, hcontext, hclones, hsplits, hdone⟩ :=
    hi.deleteAll h hr.block
  dsimp only at hc hcontext hclones hsplits hdone
  subst hcontext hclones hsplits hdone
  obtain ⟨g', hsplice, hmoved⟩ :=
    (hi.settled h hr hc).spliceAll h hi (m := { st.done with deleted := p.deletions.length })
    (by rw [hi.motion])
  have hsized : p.context.sized = .ok p.sets := by
    unfold Context.sized
    rw [h.given]
  refine ⟨⟨g', st.context, st.clones, st.splits,
    { st.done with deleted := p.deletions.length, splits := p.cuts.length }⟩, ?_, hmoved,
    hi.clones, hi.splits, ?_, hi.log⟩
  · unfold State.run
    rw [Change.get_bind, hsized, Change.check_bind, Change.modify_bind, ← hst,
      Change.bind_eq hrewire, Change.bind_eq hdelete]
    exact hsplice
  · rw [hi.motion]

end CodeMotion.Plan
