import Mathlib
import CodeMotion.Proofs.Exposure
import CodeMotion.Proofs.Semantics

/-! What an instruction does to the value of an expression. Instructions that do not disturb an
expression keep its value and the place where the value is kept; an occurrence puts it there. -/

namespace CodeMotion

variable {V : Type} {fn : Func} {I : Interp V} {σ τ : Machine V} {i j d : InstrId} {v : Value}

theorem Interp.value_congr (h : ∀ d, v = .instr d → σ.env d = τ.env d) :
    I.value σ v = I.value τ v := by
  cases v with
  | instr d => exact h d rfl
  | const _ => rfl
  | param _ _ => rfl
  | global _ _ => rfl

namespace Func

def Plain (fn : Func) (i : InstrId) : Prop := (fn.instr i).op.isTerminator = false

theorem exec_store (h : (fn.instr i).op = .store) :
    fn.exec I σ i = { σ with
      mem := Function.update σ.mem ((fn.instr i).args.getD 1 (.const 0)) (fn.yield I σ i) } := by
  unfold exec
  simp only [h]

theorem exec_call (h : (fn.instr i).op = .call) :
    fn.exec I σ i =
      { σ with
        env := Function.update σ.env i
          (I.reply (σ.calls ++ [⟨(fn.instr i).callee, (fn.instr i).args.map (I.value σ)⟩]))
        calls := σ.calls ++ [⟨(fn.instr i).callee, (fn.instr i).args.map (I.value σ)⟩] } := by
  unfold exec
  simp only [h]

theorem exec_value (hs : (fn.instr i).op ≠ .store) (hc : (fn.instr i).op ≠ .call) :
    fn.exec I σ i = { σ with env := Function.update σ.env i (fn.yield I σ i) } := by
  unfold exec
  split
  · next h => exact absurd h hs
  · next h => exact absurd h hc
  · rfl

theorem exec_env_of_ne (h : d ≠ i) : (fn.exec I σ i).env d = σ.env d := by
  unfold exec
  split
  · rfl
  · exact Function.update_of_ne h _ _
  · exact Function.update_of_ne h _ _

theorem exec_mem_of_ne_store (h : (fn.instr i).op ≠ .store) : (fn.exec I σ i).mem = σ.mem := by
  unfold exec
  split
  · next hs => exact absurd hs h
  · rfl
  · rfl

theorem exec_mem_of_ne {a : Value}
    (h : (fn.instr i).op = .store → (fn.instr i).args.getD 1 (.const 0) ≠ a) :
    (fn.exec I σ i).mem a = σ.mem a := by
  by_cases hs : (fn.instr i).op = .store
  · rw [exec_store hs]
    exact Function.update_of_ne (h hs).symm _ _
  · rw [exec_mem_of_ne_store hs]

theorem exec_calls_of_ne (h : (fn.instr i).op ≠ .call) : (fn.exec I σ i).calls = σ.calls := by
  unfold exec
  split
  · rfl
  · next hc => exact absurd hc h
  · rfl

theorem headD_eq {l : List Value} {a v : Value} (h : l[0]? = some a) : l.headD v = a := by
  cases l with
  | nil => cases h
  | cons _ _ => simpa using h

theorem yield_congr (hv : ∀ v ∈ fn.operands i, I.value σ v = I.value τ v)
    (hm : (fn.instr i).op = .load → σ.mem ((fn.instr i).args.headD (.const 0)) =
      τ.mem ((fn.instr i).args.headD (.const 0))) :
    fn.yield I σ i = fn.yield I τ i := by
  unfold yield
  unfold operands at hv
  split
  · next h => exact hm h
  · next h =>
    rw [if_pos h] at hv
    cases ha : (fn.instr i).args with
    | nil => rfl
    | cons v t => exact hv v (by rw [ha]; exact List.mem_cons_self)
  · rfl
  · next hs _ =>
    rw [if_neg hs] at hv
    exact congrArg _ (List.map_congr_left hv)

/-- An instruction that does not define an operand of another does not change what that one
yields. -/
theorem yield_exec (hj : fn.Plain j) (h : ∀ v, fn.definition? j = some v → v ∉ fn.operands i)
    (harity : (fn.instr j).op = .store → ∃ a, (fn.instr j).args[1]? = some a)
    (hload : (fn.instr i).op = .load → ∃ a, (fn.instr i).args[0]? = some a) :
    fn.yield I (fn.exec I σ j) i = fn.yield I σ i := by
  refine yield_congr (fun v hv => Interp.value_congr fun d hd => ?_) fun hop => ?_
  · by_cases hs : (fn.instr j).op = .store
    · rw [exec_store hs]
    · refine exec_env_of_ne fun hdj => h (.instr j) ?_ (by rw [← hdj, ← hd]; exact hv)
      rw [Scope.definition?_of_ne_store hs, if_pos]
      cases hop : (fn.instr j).op <;> simp_all [Op.hasResult, Op.isTerminator, Plain]
  · obtain ⟨a, ha⟩ := hload hop
    rw [headD_eq ha]
    refine exec_mem_of_ne fun hs heq => ?_
    obtain ⟨b, hb⟩ := harity hs
    have hba : b = a := by simpa [hb] using heq
    refine h b (by simp [definition?, hs, hb]) ?_
    unfold operands
    rw [if_neg (by simp [hop]), hba]
    exact List.mem_of_getElem? ha

end Func
end CodeMotion
