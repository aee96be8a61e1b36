import Mathlib
import CodeMotion.Func.Edit
import CodeMotion.Proofs.Change
import CodeMotion.Proofs.Graph

/-! What the small changes of a function leave at each block and at each instruction. -/

namespace CodeMotion.Func

variable {fn : Func} {b c : BlockId} {i j : InstrId}

def hasInstr (fn : Func) (i : InstrId) : Bool := (fn.instrs.get? i).isSome

theorem hasInstr_iff {i : Nat} : fn.hasInstr i = true ↔ 0 < i ∧ i ≤ fn.instrs.size :=
  Table.get?_isSome fn.instrs i

theorem hasBlock_iff {b : Nat} : fn.hasBlock b = true ↔ 0 < b ∧ b ≤ fn.blocks.size :=
  Table.get?_isSome fn.blocks b

/-- An instruction that is in a block exists. -/
theorem hasInstr_of_block (h : (fn.instr i).block = some b) : fn.hasInstr i = true := by
  unfold hasInstr
  cases hg : fn.instrs.get? i with
  | none =>
    rw [instr, hg, Option.getD_none] at h
    cases h
  | some _ => rfl

theorem block_eq_default (h : fn.hasBlock b = false) : fn.block b = {} := by
  unfold hasBlock at h
  rw [Option.isSome_eq_false_iff, Option.isNone_iff_eq_none] at h
  rw [block, h]
  rfl

theorem instr_eq_default (h : fn.hasInstr i = false) : fn.instr i = default := by
  unfold hasInstr at h
  rw [Option.isSome_eq_false_iff, Option.isNone_iff_eq_none] at h
  rw [instr, h]
  rfl

theorem instr_modifyInstr (f : Instr → Instr) :
    (fn.modifyInstr i f).instr j = if i = j ∧ fn.hasInstr j = true then f (fn.instr j)
      else fn.instr j := by
  unfold modifyInstr instr hasInstr
  rw [Table.get?_modify]
  by_cases h : i = j
  · cases hg : fn.instrs.get? j <;> simp [h]
  · simp [h]

theorem block_modifyBlock (f : Block → Block) :
    (fn.modifyBlock b f).block c = if b = c ∧ fn.hasBlock c = true then f (fn.block c)
      else fn.block c := by
  unfold modifyBlock block hasBlock
  rw [Table.get?_modify]
  by_cases h : b = c
  · cases hg : fn.blocks.get? c <;> simp [h]
  · simp [h]

@[simp] theorem block_modifyInstr (f : Instr → Instr) : (fn.modifyInstr i f).block b = fn.block b :=
  rfl

@[simp] theorem instr_modifyBlock (f : Block → Block) : (fn.modifyBlock b f).instr i = fn.instr i :=
  rfl

@[simp] theorem hasBlock_modifyInstr (f : Instr → Instr) :
    (fn.modifyInstr i f).hasBlock b = fn.hasBlock b := rfl

@[simp] theorem hasInstr_modifyBlock (f : Block → Block) :
    (fn.modifyBlock b f).hasInstr i = fn.hasInstr i := rfl

@[simp] theorem hasInstr_modifyInstr (f : Instr → Instr) :
    (fn.modifyInstr i f).hasInstr j = fn.hasInstr j := by
  rw [Bool.eq_iff_iff, hasInstr_iff, hasInstr_iff, modifyInstr, Table.size_modify]

@[simp] theorem hasBlock_modifyBlock (f : Block → Block) :
    (fn.modifyBlock b f).hasBlock c = fn.hasBlock c := by
  rw [Bool.eq_iff_iff, hasBlock_iff, hasBlock_iff, modifyBlock, Table.size_modify]

@[simp] theorem instr_setParent (p : Option BlockId) :
    (fn.setParent i p).instr j = if i = j ∧ fn.hasInstr j = true then { fn.instr j with block := p }
      else fn.instr j :=
  instr_modifyInstr _

theorem instr_setParent_none :
    (fn.setParent i none).instr j = if i = j then { fn.instr j with block := none }
      else fn.instr j := by
  rw [instr_setParent]
  by_cases hij : i = j
  · cases hj : fn.hasInstr j with
    | true => rw [if_pos ⟨hij, rfl⟩, if_pos hij]
    | false =>
      rw [if_neg (by simp), if_pos hij, instr_eq_default hj]
      rfl
  · rw [if_neg fun h => hij h.1, if_neg hij]

theorem instr_newInstr (ins : Instr) {j : Nat} :
    (fn.newInstr ins).2.instr j = if j = fn.instrs.size + 1 then ins else fn.instr j := by
  unfold newInstr instr
  simp only [Table.get?_push]
  split <;> rfl

theorem instr_clone {j : Nat} :
    (fn.clone i).2.instr j = if j = fn.instrs.size + 1 then { fn.instr i with block := none }
      else fn.instr j :=
  instr_newInstr _

theorem block_newBlock (name : String) {b : Nat} :
    (fn.newBlock name).2.block b = if b = fn.blocks.size + 1 then { name } else fn.block b := by
  unfold newBlock block
  simp only [Table.get?_push]
  split <;> rfl

/-- Adding an instruction at the end of a body. -/
theorem block_append (h : fn.hasBlock b = true) :
    (fn.append b i).block c = if b = c then { fn.block c with body := (fn.block c).body ++ [i] }
      else fn.block c := by
  unfold append
  rw [block_modifyBlock]
  by_cases hbc : b = c
  · subst hbc
    rw [if_pos ⟨rfl, h⟩, if_pos rfl]
    rfl
  · rw [if_neg fun h => hbc h.1, if_neg hbc]
    rfl

theorem instr_append : (fn.append b i).instr j =
    if i = j ∧ fn.hasInstr j = true then { fn.instr j with block := some b } else fn.instr j := by
  unfold append
  rw [instr_modifyBlock, instr_setParent]

theorem require_ok (h : fn.hasBlock b = true) : require b fn = .ok ⟨⟩ fn := by
  unfold require
  rw [Change.get_bind, checkBlock_ok.2 h]
  rfl

theorem targets_of_term (h : (fn.block b).term = some i) : fn.targets b = (fn.instr i).targets := by
  unfold targets
  rw [h]

theorem targets_of_none (h : (fn.block b).term = none) : fn.targets b = [] := by
  unfold targets
  rw [h]

theorem exists_term (h : c ∈ fn.targets b) : ∃ t, (fn.block b).term = some t := by
  cases ht : (fn.block b).term with
  | none =>
    rw [targets_of_none ht] at h
    cases h
  | some t => exact ⟨t, rfl⟩

theorem targets_congr {g : Func} (hterm : (g.block b).term = (fn.block b).term)
    (h : ∀ t ∈ (fn.block b).term, (g.instr t).targets = (fn.instr t).targets) :
    g.targets b = fn.targets b := by
  unfold targets
  rw [hterm]
  cases ht : (fn.block b).term with
  | none => rfl
  | some t => exact h t ht

end CodeMotion.Func
