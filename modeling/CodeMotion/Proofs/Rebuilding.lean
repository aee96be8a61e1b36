import Mathlib
import CodeMotion.Proofs.Tidy

/-! Rebuilding makes the predecessor lists of the attached blocks those of the terminators, and
changes nothing else. -/

namespace CodeMotion.Func

variable {fn f g : Func} {a b c : BlockId} {l : List BlockId}

structure Framed (fn g : Func) : Prop where
  name : g.name = fn.name
  params : g.params = fn.params
  isExternal : g.isExternal = fn.isExternal
  layout : g.layout = fn.layout
  instrs : g.instrs = fn.instrs
  blocks_size : g.blocks.size = fn.blocks.size
  names : ∀ b, (g.block b).name = (fn.block b).name
  phis : ∀ b, (g.block b).phis = (fn.block b).phis
  body : ∀ b, (g.block b).body = (fn.block b).body
  term : ∀ b, (g.block b).term = (fn.block b).term

theorem Framed.refl (fn : Func) : fn.Framed fn :=
  ⟨rfl, rfl, rfl, rfl, rfl, rfl, fun _ => rfl, fun _ => rfl, fun _ => rfl, fun _ => rfl⟩

theorem Framed.instr (h : fn.Framed g) (i : InstrId) : g.instr i = fn.instr i := by
  unfold Func.instr
  rw [h.instrs]

theorem Framed.hasBlock (h : fn.Framed g) (b : BlockId) : g.hasBlock b = fn.hasBlock b := by
  rw [Bool.eq_iff_iff, hasBlock_iff, hasBlock_iff, h.blocks_size]

theorem Framed.targets (h : fn.Framed g) (b : BlockId) : g.targets b = fn.targets b :=
  targets_congr (h.term b) fun t _ => by rw [h.instr]

/-- A change of one predecessor list. -/
theorem Framed.modify (h : fn.Framed f) (b : BlockId) (k : List BlockId → List BlockId) :
    fn.Framed (f.modifyBlock b fun blk => { blk with preds := k blk.preds }) := by
  refine ⟨h.name, h.params, h.isExternal, h.layout, h.instrs,
    (Table.size_modify _ _ _).trans h.blocks_size, ?_, ?_, ?_, ?_⟩
  · intro c
    rw [block_modifyBlock, ← h.names]
    split <;> rfl
  · intro c
    rw [block_modifyBlock, ← h.phis]
    split <;> rfl
  · intro c
    rw [block_modifyBlock, ← h.body]
    split <;> rfl
  · intro c
    rw [block_modifyBlock, ← h.term]
    split <;> rfl

theorem preds_modify (k : List BlockId → List BlockId) (hb : f.hasBlock b = true) :
    ((f.modifyBlock b fun blk => { blk with preds := k blk.preds }).block c).preds =
      if b = c then k (f.block c).preds else (f.block c).preds := by
  rw [block_modifyBlock]
  by_cases hbc : b = c
  · subst hbc
    rw [if_pos ⟨rfl, hb⟩, if_pos rfl]
  · rw [if_neg fun h => hbc h.1, if_neg hbc]

/-- The predecessor lists of the attached blocks are emptied. -/
theorem clear_ok (h : ∀ b ∈ fn.layout, fn.hasBlock b = true) :
    ∃ g, fn.layout.forM (editBlock · ({ · with preds := [] })) fn = .ok ⟨⟩ g ∧ fn.Framed g ∧
      ∀ b ∈ fn.layout, (g.block b).preds = [] := by
  refine Change.forM_ok (fun pre g => fn.Framed g ∧ ∀ b ∈ pre, (g.block b).preds = []) ?_
    ⟨.refl fn, by simp⟩
  rintro pre b post f hl ⟨hf, hpre⟩
  have hb : f.hasBlock b = true := hf.hasBlock b ▸ h b (by simp [hl])
  refine ⟨f.modifyBlock b ({ · with preds := [] }), ?_, hf.modify b fun _ => [], fun c hc => ?_⟩
  · unfold editBlock
    rw [Change.bind_eq (require_ok hb)]
    rfl
  · rw [preds_modify (fun _ => []) hb]
    split
    · rfl
    · next hbc =>
      rcases List.mem_append.1 hc with hc | hc
      · exact hpre c hc
      · exact absurd (List.mem_singleton.1 hc).symm hbc

/-- A block is entered into lists one after the other, each of them as it was at the start. -/
theorem forM_addPred {enter : BlockId → Change Func Unit} (hf : fn.Framed f) (hl : l.Nodup)
    (hs : ∀ s ∈ l, fn.hasBlock s = true)
    (henter : ∀ s ∈ l, ∀ g, g.hasBlock s = true → (g.block s).preds = (f.block s).preds →
      enter s g = .ok ⟨⟩ (g.addPred s b)) :
    ∃ g, l.forM enter f = .ok ⟨⟩ g ∧ fn.Framed g ∧
      ∀ c, (g.block c).preds = (f.block c).preds ++ if c ∈ l then [b] else [] := by
  refine Change.forM_ok (fun pre g => fn.Framed g ∧ ∀ c, (g.block c).preds = (f.block c).preds ++
    if c ∈ pre then [b] else []) ?_
    ⟨hf, by simp⟩
  rintro pre s post g rfl ⟨hg, hpre⟩
  have hb : g.hasBlock s = true := hg.hasBlock s ▸ hs s (by simp)
  have hnew : s ∉ pre := fun hm => (List.nodup_append.1 hl).2.2 s hm s List.mem_cons_self rfl
  refine ⟨g.addPred s b, henter s (by simp) g hb (by simp [hpre, hnew]),
    hg.modify s (· ++ [b]), fun c => ?_⟩
  unfold addPred
  rw [preds_modify (· ++ [b]) hb, hpre]
  by_cases hsc : s = c
  · subst hsc
    simp [hnew]
  · simp [hsc, Ne.symm hsc]

/-- A block enters itself into the lists of its successors. -/
theorem link_ok (hf : fn.Framed f) (hl : l.Nodup) (hs : ∀ s ∈ l, fn.hasBlock s = true) :
    ∃ g, l.forM (link b) f = .ok ⟨⟩ g ∧ fn.Framed g ∧
      ∀ c, (g.block c).preds = (f.block c).preds ++ if c ∈ l then [b] else [] := by
  refine forM_addPred hf hl hs fun s _ g hb _ => ?_
  unfold link
  rw [Change.bind_eq (require_ok hb)]
  rfl

/-- A function is rebuilt if its blocks exist. The lists are in the order of the layout. -/
theorem rebuild_ok (h : ∀ b ∈ fn.layout, fn.hasBlock b = true)
    (hs : ∀ b ∈ fn.layout, ∀ s ∈ fn.succs b, fn.hasBlock s = true) :
    ∃ g, rebuild fn = .ok ⟨⟩ g ∧ fn.Framed g ∧ ∀ c ∈ fn.layout,
      (g.block c).preds = fn.layout.filter (c ∈ fn.succs ·) := by
  obtain ⟨f, hclear, hf, hempty⟩ := clear_ok h
  have hloop : ∃ g, fn.layout.forM (fun b => (fn.succs b).forM (link b)) f = .ok ⟨⟩ g ∧
      fn.Framed g ∧ ∀ c ∈ fn.layout, (g.block c).preds = fn.layout.filter (c ∈ fn.succs ·) := by
    refine Change.forM_ok (fun pre g => fn.Framed g ∧ ∀ c ∈ fn.layout,
      (g.block c).preds = pre.filter (c ∈ fn.succs ·)) ?_ ?_
    · rintro pre b post g hl ⟨hg, hpre⟩
      obtain ⟨g', hrun, hg', hlist⟩ := link_ok (b := b) hg (fn.nodup_succs b) (hs b (by simp [hl]))
      refine ⟨g', hrun, hg', fun c hc => ?_⟩
      rw [hlist, hpre c hc, List.filter_append, List.filter_singleton]
      by_cases hcb : c ∈ fn.succs b <;> simp [hcb]
    · exact ⟨hf, fun c hc => by simp [hempty c hc]⟩
  obtain ⟨g, hrun, hg⟩ := hloop
  refine ⟨g, ?_, hg⟩
  unfold rebuild
  rw [Change.get_bind, Change.bind_eq hclear]
  exact hrun

end CodeMotion.Func
