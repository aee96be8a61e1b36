import Mathlib
import CodeMotion.Func.Builder
import CodeMotion.Proofs.Rebuilding

/-! What a builder does when it adds an instruction: the instruction gets the next number, the block
of the builder lists it, and a terminator enters the block into the lists of its successors.
Everything else stays as it is. -/

namespace CodeMotion

@[simp] theorem Table.get?_empty {α : Type} (n : Nat) : ({} : Table α).get? n = none := by
  cases n <;> rfl

theorem Table.modify_push {α : Type} (t : Table α) (a : α) (f : α → α) :
    (t.push a).modify (t.size + 1) f = t.push (f a) := by
  show Table.mk ((t.rows.push a).modify t.rows.size f) = ⟨t.rows.push (f a)⟩
  congr 1
  refine Array.ext (by simp) fun i _ _ => ?_
  rw [Array.getElem_modify, Array.getElem_push, Array.getElem_push]
  split
  · next hi => simp [← hi]
  · next hi =>
    split
    · rfl
    · next hlt =>
      have : i < (t.rows.push (f a)).size := by assumption
      rw [Array.size_push] at this
      omega

namespace Func

variable {fn : Func} {b c : BlockId} {i : InstrId} {ins : Instr} {f : Block → Block}

/-- One more instruction in a block, which lists it as `f` says. -/
def gain (fn : Func) (b : BlockId) (ins : Instr) (f : Block → Block) : Func :=
  { fn with instrs := fn.instrs.push { ins with block := some b }, blocks := fn.blocks.modify b f }

theorem instr_gain :
    (fn.gain b ins f).instr i = if i = fn.instrs.size + 1 then { ins with block := some b }
      else fn.instr i := by
  show (fn.newInstr { ins with block := some b }).2.instr i = _
  exact instr_newInstr _

theorem block_gain (hb : fn.hasBlock b = true) :
    (fn.gain b ins f).block c = if c = b then f (fn.block c) else fn.block c := by
  show (fn.modifyBlock b f).block c = _
  rw [block_modifyBlock]
  by_cases hc : c = b
  · subst hc
    rw [if_pos ⟨rfl, hb⟩, if_pos rfl]
  · rw [if_neg fun h => hc h.1.symm, if_neg hc]

theorem hasBlock_gain : (fn.gain b ins f).hasBlock c = fn.hasBlock c := by
  show (fn.modifyBlock b f).hasBlock c = _
  exact hasBlock_modifyBlock f

theorem setParent_newInstr (ins : Instr) (b : BlockId) :
    (fn.newInstr ins).2.setParent (fn.instrs.size + 1) (some b) =
    { fn with instrs := fn.instrs.push { ins with block := some b } } := by
  show { fn with instrs := (fn.instrs.push ins).modify (fn.instrs.size + 1) _ } = _
  rw [Table.modify_push]

structure Housed (fn : Func) : Prop where
  home : ∀ b, ∀ i ∈ fn.listed b, (fn.instr i).block = some b
  body : ∀ b, ∀ i ∈ (fn.block b).body, (fn.instr i).op ≠ .phi ∧ (fn.instr i).op.isTerminator = false

/-- A way for a block to list a new instruction: as one of its phis, in its body or as its
terminator. -/
structure Lists (fn : Func) (b : BlockId) (ins : Instr) (f : Block → Block) : Prop where
  listed : ∀ i ∈ (f (fn.block b)).phis ++ (f (fn.block b)).body ++ (f (fn.block b)).term.toList,
    i ∈ fn.listed b ∨ i = fn.instrs.size + 1
  body : ∀ i ∈ (f (fn.block b)).body,
    i ∈ (fn.block b).body ∨ i = fn.instrs.size + 1 ∧ ins.op ≠ .phi ∧ ins.op.isTerminator = false

theorem Lists.mem_listed (hl : fn.Lists b ins f) (hb : fn.hasBlock b = true)
    (hi : i ∈ (fn.gain b ins f).listed c) : i ∈ fn.listed c ∨ i = fn.instrs.size + 1 := by
  unfold Func.listed at hi
  rw [block_gain hb] at hi
  split at hi
  · next hc =>
    subst hc
    exact hl.listed i hi
  · exact Or.inl hi

namespace Housed

variable (h : fn.Housed)
include h

theorem hasInstr (hi : i ∈ fn.listed b) : fn.hasInstr i = true := hasInstr_of_block (h.home b i hi)

theorem lt_new (hi : i ∈ fn.listed b) : i < fn.instrs.size + 1 :=
  Nat.lt_succ_of_le (hasInstr_iff.1 (h.hasInstr hi)).2

/-- What holds of the instructions of some of the lists still holds if a block lists a new one. -/
theorem forall_gain {l : Block → List InstrId} {P : BlockId → Instr → Prop}
    (hb : fn.hasBlock b = true) (hsub : ∀ c, ∀ i ∈ l (fn.block c), i ∈ fn.listed c)
    (hold : ∀ c, ∀ i ∈ l (fn.block c), P c (fn.instr i))
    (hnew : ∀ i ∈ l (f (fn.block b)), i ∈ l (fn.block b) ∨ i = fn.instrs.size + 1 ∧
      P b { ins with block := some b }) :
    ∀ c, ∀ i ∈ l ((fn.gain b ins f).block c), P c ((fn.gain b ins f).instr i) := by
  have hkept : ∀ c, ∀ i ∈ l (fn.block c), P c ((fn.gain b ins f).instr i) := fun c i hi => by
    rw [instr_gain, if_neg (Nat.ne_of_lt (h.lt_new (hsub c i hi)))]
    exact hold c i hi
  intro c i hi
  rw [block_gain hb] at hi
  by_cases hc : c = b
  · rw [if_pos hc, hc] at hi
    rcases hnew i hi with hi | ⟨rfl, hp⟩
    · exact hc ▸ hkept b i hi
    · rw [instr_gain, if_pos rfl, hc]
      exact hp
  · rw [if_neg hc] at hi
    exact hkept c i hi

theorem gain (hb : fn.hasBlock b = true) (hl : fn.Lists b ins f) : (fn.gain b ins f).Housed where
  home := h.forall_gain (l := fun blk => blk.phis ++ blk.body ++ blk.term.toList)
    (P := fun c ins => ins.block = some c) hb (fun _ _ hi => hi) h.home
    fun i hi => (hl.listed i hi).imp id fun hi => ⟨hi, rfl⟩
  body := h.forall_gain (l := Block.body) (P := fun _ ins => ins.op ≠ .phi ∧
    ins.op.isTerminator = false) hb
    (fun _ _ hi => mem_listed_of_body hi) h.body hl.body

end Housed

theorem Framed.listed_eq {g : Func} (hf : fn.Framed g) (b : BlockId) :
    g.listed b = fn.listed b := by
  rw [listed, hf.phis, hf.body, hf.term, listed]

theorem Housed.framed {g : Func} (h : fn.Housed) (hf : fn.Framed g) : g.Housed := by
  refine ⟨fun b i => ?_, fun b i => ?_⟩
  · rw [hf.listed_eq, hf.instr]
    exact h.home b i
  · rw [hf.body, hf.instr]
    exact h.body b i

end Func

namespace Builder

variable {fn : Func} {b : BlockId} {ins : Instr}

theorem emit_ok (ht : (fn.block b).term = none) : emit ins ⟨fn, some b⟩ =
    .ok (fn.instrs.size + 1) ⟨fn.gain b ins fun blk =>
      { blk with body := blk.body ++ [fn.instrs.size + 1] }, some b⟩ := by
  have hnew : newInstr ins ⟨fn, some b⟩ = .ok (fn.instrs.size + 1) ⟨(fn.newInstr ins).2, some b⟩ :=
    rfl
  unfold emit
  rw [Change.get_bind]
  simp only [ht, Option.isSome_none, Bool.false_eq_true, if_false]
  rw [Change.bind_eq hnew, Change.modify_bind]
  show EStateM.Result.ok _ (Builder.mk ((fn.newInstr ins).2.append b (fn.instrs.size + 1))
    (some b)) = _
  unfold Func.append
  rw [Func.setParent_newInstr]
  rfl

theorem phi_ok {args : List (BlockId ⊕ Value)} {pairs : List (BlockId × Value)}
    (hlen : args.length % 2 = 0) (hpairs : phiPairs args = .ok pairs) :
    phi args ⟨fn, some b⟩ = .ok (fn.instrs.size + 1)
      ⟨fn.gain b { op := .phi, args := pairs.map (·.2), incoming := pairs.map (·.1) }
        fun blk => { blk with phis := blk.phis ++ [fn.instrs.size + 1] }, some b⟩ := by
  have hnew : newInstr { op := .phi, block := some b } ⟨fn, some b⟩ =
      .ok (fn.instrs.size + 1) ⟨(fn.newInstr { op := .phi, block := some b }).2, some b⟩ := rfl
  unfold phi
  simp only [hlen, ne_eq, not_true_eq_false, if_false, Change.get_bind]
  rw [Change.bind_eq hnew, hpairs, Change.check_bind, Change.modify_bind]
  show EStateM.Result.ok _
    (Builder.mk (Func.modifyBlock
    { fn with instrs := (fn.instrs.push _).modify (fn.instrs.size + 1) _ } b _) _) = _
  rw [Table.modify_push]
  rfl

/-- The block is entered into lists where it does not stand yet. -/
theorem forM_link {l : List BlockId} (hl : l.Nodup)
    (hs : ∀ s ∈ l, fn.hasBlock s = true ∧ b ∉ (fn.block s).preds) :
    ∃ g, l.forM (link b) fn = .ok ⟨⟩ g ∧ fn.Framed g ∧ ∀ c, (g.block c).preds =
      (fn.block c).preds ++ if c ∈ l then [b] else [] := by
  refine Func.forM_addPred (.refl fn) hl (fun s hm => (hs s hm).1) fun s hm g hb hpreds => ?_
  have hno : (g.block s).preds.contains b = false := by simpa [hpreds] using (hs s hm).2
  unfold link
  rw [Change.bind_eq (Func.require_ok hb), Change.modify_apply, hno]
  rfl

/-- A terminator is entered into its block, and then the block into the lists of its successors. -/
theorem terminate_eq {g : Func} (hb : fn.hasBlock b = true) (ht : (fn.block b).term = none)
    (hlink : ins.targets.eraseDups.forM (link b)
      (fn.gain b ins ({ · with term := some (fn.instrs.size + 1) })) = .ok ⟨⟩ g) :
    terminate ins ⟨fn, some b⟩ = .ok (fn.instrs.size + 1) ⟨g, some b⟩ := by
  obtain ⟨ended, hended⟩ : ∃ e, e = fn.gain b ins ({ · with term := some (fn.instrs.size + 1) }) :=
    ⟨_, rfl⟩
  rw [← hended] at hlink
  have hsuccs : ended.succs b = ins.targets.eraseDups := by
    unfold Func.succs
    rw [Func.targets_of_term (i := fn.instrs.size + 1), hended, Func.instr_gain, if_pos rfl]
    rw [hended, Func.block_gain hb, if_pos rfl]
  have hnew : newInstr ins ⟨fn, some b⟩ = .ok (fn.instrs.size + 1) ⟨(fn.newInstr ins).2, some b⟩ :=
    rfl
  have hterm : ((fn.newInstr ins).2.block b).term = none := ht
  have hfn : ((fn.newInstr ins).2.setParent (fn.instrs.size + 1) (some b)).modifyBlock b
      ({ · with term := some (fn.instrs.size + 1) }) = ended := by
    rw [Func.setParent_newInstr, hended]
    rfl
  have hon : onFunc ((ended.succs b).forM (link b)) ⟨ended, some b⟩ = .ok ⟨⟩ ⟨g, some b⟩ := by
    rw [hsuccs]
    exact Change.zoom_ok hlink
  unfold terminate
  rw [Change.bind_eq hnew, Change.get_bind]
  simp only [hterm, Option.isSome_none, Bool.false_eq_true, if_false, hfn]
  rw [Change.modify_bind]
  exact Change.bind_eq hon

/-- A block is ended. -/
theorem terminate_ok (hb : fn.hasBlock b = true) (ht : (fn.block b).term = none)
    (hs : ∀ s ∈ ins.targets, fn.hasBlock s = true ∧ b ∉ (fn.block s).preds) :
    ∃ g, terminate ins ⟨fn, some b⟩ = .ok (fn.instrs.size + 1) ⟨g, some b⟩ ∧
      (fn.gain b ins ({ · with term := some (fn.instrs.size + 1) })).Framed g ∧
      ∀ c, (g.block c).preds = (fn.block c).preds ++ if c ∈ ins.targets then [b] else [] := by
  obtain ⟨ended, hended⟩ : ∃ e, e = fn.gain b ins ({ · with term := some (fn.instrs.size + 1) }) :=
    ⟨_, rfl⟩
  have hpreds : ∀ c, (ended.block c).preds = (fn.block c).preds := fun c => by
    rw [hended, Func.block_gain hb]
    split <;> rfl
  have hlink : ∀ s ∈ ins.targets.eraseDups,
      ended.hasBlock s = true ∧ b ∉ (ended.block s).preds := by
    intro s hm
    rw [hpreds, hended, Func.hasBlock_gain]
    exact hs s (List.mem_eraseDups.1 hm)
  obtain ⟨g, hg, hframe, hlist⟩ := forM_link (Func.nodup_eraseDups _) hlink
  refine ⟨g, terminate_eq hb ht (hended ▸ hg), hended ▸ hframe, fun c => ?_⟩
  rw [hlist, hpreds]
  simp only [List.mem_eraseDups]

end Builder
end CodeMotion
