import Mathlib
import CodeMotion.Proofs.Addresses
import CodeMotion.Proofs.Effects
import CodeMotion.Proofs.Points

/-! The value of a cataloged expression, and where it is kept: a store keeps it in memory, anything
else under the name of an instruction. -/

namespace CodeMotion

def Catalog.Entry.kept {V : Type} (n : Catalog.Entry Value InstrId) (w : InstrId) (σ : Machine V) :
    V :=
  if n.op = .store then σ.mem n.dest else σ.env w

namespace Plan

variable {V : Type} {p : Plan} {I : Interp V} {σ : Machine V} {k e m : Nat} {b : BlockId}
  {i j : InstrId}
  {n : Catalog.Entry Value InstrId} {last : Option BlockId}

namespace Valid

variable (h : p.Valid)
include h

theorem plain (hb : b ∈ p.func.layout) (hi : i ∈ (p.func.block b).body) : p.func.Plain i :=
  ((h.sound.fitting b hb).body i hi).2

theorem entry_operands (hn : p.context.catalog.entries[e]? = some n) :
    (n.expression p.func.reader).operands = p.func.operands n.instr := by
  obtain ⟨c₀, hs⟩ := h.solved
  exact Func.operands_of_expression (hs.numbered.lawful.entry e n hn).1

theorem store_address (hb : b ∈ p.func.layout) (hi : i ∈ (p.func.block b).body)
    (hop : (p.func.instr i).op = .store) : ∃ v a, (p.func.instr i).args = [v, a] := by
  have hlen := h.sound.arity b hb i (Func.mem_listed_of_body hi) 2 (by rw [hop]; rfl)
  match ha : (p.func.instr i).args with
  | [v, a] => exact ⟨v, a, rfl⟩
  | [] => simp [ha] at hlen
  | [_] => simp [ha] at hlen
  | _ :: _ :: _ :: _ => simp [ha] at hlen

theorem load_address (hb : b ∈ p.func.layout) (hi : i ∈ (p.func.block b).body)
    (hop : (p.func.instr i).op = .load) : ∃ a, (p.func.instr i).args = [a] := by
  have hlen := h.sound.arity b hb i (Func.mem_listed_of_body hi) 1 (by rw [hop]; rfl)
  match ha : (p.func.instr i).args with
  | [a] => exact ⟨a, rfl⟩
  | [] => simp [ha] at hlen
  | _ :: _ :: _ => simp [ha] at hlen

/-- What does not disturb an expression does not change its value. -/
theorem yield_of_not_kills (hn : p.context.catalog.entries[e]? = some n) (hb : b ∈ p.func.layout)
    (hj : j ∈ (p.func.block b).body) (hno : ¬ p.func.Kills p.context.catalog false j e) :
    p.func.yield I (p.func.exec I σ j) n.instr = p.func.yield I σ n.instr := by
  obtain ⟨ho, hop, home, hl, hbody⟩ := h.origin_of_entry hn
  rw [ho] at hbody
  refine Func.yield_exec (h.plain hb hj) (fun v hv hmem => ?_) (fun hst => ?_) fun hld => ?_
  · rw [← h.entry_operands hn] at hmem
    exact hno ⟨n, hn, Or.inl ⟨v, hv, hmem⟩⟩
  · obtain ⟨v, a, ha⟩ := h.store_address hb hj hst
    exact ⟨a, by rw [ha]; rfl⟩
  · obtain ⟨a, ha⟩ := h.load_address hl hbody hld
    exact ⟨a, by rw [ha]; rfl⟩

theorem yield_enter (hn : p.context.catalog.entries[e]? = some n) (hb : b ∈ p.func.layout)
    (hno : ∀ j ∈ (p.func.block b).phis, ¬ p.func.Kills p.context.catalog false j e) :
    p.func.yield I (p.func.enter I b last σ) n.instr = p.func.yield I σ n.instr := by
  refine Func.yield_congr (fun v hv => Interp.value_congr fun d hd => ?_) fun _ => rfl
  refine if_neg fun hphi => hno d hphi ?_
  have hop := ((h.sound.fitting b hb).phis d hphi).1
  refine ⟨n, hn, Or.inl ⟨v, ?_, by rw [h.entry_operands hn]; exact hv⟩⟩
  rw [Scope.definition?_of_ne_store (by rw [hop]; exact fun hx => by cases hx), hop, hd]
  rfl

/-- What does not disturb an expression leaves alone what is kept of it. -/
theorem kept_of_not_kills (hn : p.context.catalog.entries[e]? = some n) (hb : b ∈ p.func.layout)
    (hj : j ∈ (p.func.block b).body) (hno : ¬ p.func.Kills p.context.catalog false j e)
    (hne : p.func.exprAt p.context.catalog j ≠ some e) :
    n.kept n.instr (p.func.exec I σ j) = n.kept n.instr σ := by
  obtain ⟨c₀, hs⟩ := h.solved
  unfold Catalog.Entry.kept
  split
  · next hst =>
    refine Func.exec_mem_of_ne fun hj' heq => hno ⟨n, hn, Or.inr (Or.inl ⟨hst, hj', ?_, hne⟩)⟩
    obtain ⟨v, a, ha⟩ := h.store_address hb hj hj'
    rw [ha] at heq ⊢
    exact congrArg some heq
  · refine Func.exec_env_of_ne fun hni => hne ?_
    rw [← hni]
    exact hs.numbered.lawful.exprAt_instr hn

/-- An occurrence keeps the value of its expression. -/
theorem kept_self (hn : p.context.catalog.entries[e]? = some n) (hb : b ∈ p.func.layout)
    (hj : j ∈ (p.func.block b).body) (he : p.func.exprAt p.context.catalog j = some e) :
    n.kept n.instr (p.func.exec I σ j) = p.func.yield I σ n.instr := by
  obtain ⟨c₀, hs⟩ := h.solved
  obtain ⟨hmov, hx⟩ := (hs.numbered.lawful.exprAt_iff_entry hn).1 he
  have hop : (p.func.instr j).op = n.op := (Reader.expression_op hx).symm
  unfold Catalog.Entry.kept
  split
  · next hst =>
    obtain ⟨v, -, hargs⟩ := h.store_args hn hst
    obtain ⟨ho, hop', home, hl, hbody⟩ := h.origin_of_entry hn
    rw [ho] at hbody hop'
    have hj' := hargs b hb j hj he
    have hn' := hargs home hl n.instr hbody (hs.numbered.lawful.exprAt_instr hn)
    rw [Func.exec_store (hop.trans hst), hj']
    simp [Func.yield, hop.trans hst, hop'.trans hst, hj', hn']
  · next hst =>
    rw [hs.numbered.lawful.instr_unique hn hst he] at hop hmov ⊢
    rw [Func.exec_value (by rw [hop]; exact hst) (fun hc => by rw [hc] at hmov; cases hmov)]
    exact Function.update_self _ _ _

/-- An occurrence does not change the value of its expression, since it does not use itself. -/
theorem yield_self (hn : p.context.catalog.entries[e]? = some n) (hk : p.context.Reach k)
    (hj : (p.func.block (p.blockAt k)).body[m]? = some j)
    (he : p.func.exprAt p.context.catalog j = some e) :
    p.func.yield I (p.func.exec I σ j) n.instr = p.func.yield I σ n.instr := by
  obtain ⟨c₀, hs⟩ := h.solved
  obtain ⟨π, hπ⟩ := hk
  have hl := h.blockAt_mem (hπ.lt h.wired)
  obtain ⟨hmov, hx⟩ := (hs.numbered.lawful.exprAt_iff_entry hn).1 he
  have hop : (p.func.instr j).op = n.op := (Reader.expression_op hx).symm
  by_cases hst : n.op = .store
  · -- a store changes no operand
    rw [Func.exec_store (hop.trans hst)]
    refine Func.yield_congr (fun v _ => Interp.value_congr fun d _ => rfl) fun hld => ?_
    rw [← (h.origin_of_entry hn).1, (h.origin_of_entry hn).2.1, hst] at hld
    cases hld
  · have hjn := hs.numbered.lawful.instr_unique hn hst he
    subst hjn
    refine Func.yield_congr (fun v hv => Interp.value_congr fun d hd =>
      Func.exec_env_of_ne fun hdn => ?_) fun _ => ?_
    · subst hdn
      have hready := (h.sound.supplied _ (h.walk hπ).reachable).uses n.instr m
        (Func.place_of_body hj) n.instr (Func.mem_args_of_operands (hd ▸ hv))
      obtain ⟨home, hhome, -, hplace⟩ := Func.ready_iff.1 hready
      rw [(h.sound.fitting _ hl).parent n.instr (Func.mem_listed_of_body (List.mem_of_getElem? hj)),
        Option.some.injEq] at hhome
      rw [if_pos hhome.symm] at hplace
      refine hplace (List.mem_iff_getElem?.2 ⟨0, ?_⟩)
      rw [List.getElem?_drop, Nat.add_zero, hj]
    · rw [Func.exec_mem_of_ne_store (by rw [hop]; exact hst)]

end Valid
end Plan
end CodeMotion
