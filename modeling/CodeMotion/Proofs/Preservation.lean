import Mathlib
import CodeMotion.Proofs.Footprint

/-! The report of a run is truthful for every function: what it says to be preserved is, and what it
says to have changed has. -/

namespace CodeMotion

namespace Func

/-- Two functions whose attached blocks have the same lists, and whose listed instructions have the
same operands, targets and incoming blocks. -/
structure Intact (fn g : Func) : Prop where
  layout : g.layout = fn.layout
  lists : ∀ b ∈ fn.layout, (g.block b).phis = (fn.block b).phis ∧
    (g.block b).body = (fn.block b).body ∧
    (g.block b).term = (fn.block b).term ∧ (g.block b).preds = (fn.block b).preds
  slots : ∀ b ∈ fn.layout, ∀ i ∈ fn.listed b, (g.instr i).args = (fn.instr i).args ∧
    (g.instr i).targets = (fn.instr i).targets ∧
    (g.instr i).incoming = (fn.instr i).incoming

theorem Intact.refl (fn : Func) : fn.Intact fn :=
  ⟨rfl, fun _ _ => ⟨rfl, rfl, rfl, rfl⟩, fun _ _ _ _ => ⟨rfl, rfl, rfl⟩⟩

end Func

namespace Workspace

theorem preservedBy_eq_all {m : Motion} : preservedBy m = .all ↔ m.changed = false := by
  unfold preservedBy
  by_cases h0 : m.splits = 0
  · cases hm : m.changed <;> simp [h0]
  · have : m.changed ≠ false := fun hm => h0 (Motion.State.changed_eq_false.1 hm).2.2
    simp [h0, this]

theorem preservedBy_eq_none {m : Motion} : preservedBy m = .none ↔ m.splits ≠ 0 := by
  unfold preservedBy
  by_cases h0 : m.splits = 0
  · cases hm : m.changed <;> simp [h0]
  · simp [h0]

theorem preservedBy_eq_cfg {m : Motion} :
    preservedBy m = .cfg ↔ m.splits = 0 ∧ m.changed = true := by
  unfold preservedBy
  by_cases h0 : m.splits = 0
  · cases hm : m.changed <;> simp [h0]
  · simp [h0]

/-- A run that ends and does not skip the function reports the counters of a motion, and leaves the
function of that motion. -/
theorem optimize_footprint {w w' : Workspace} {o : Options} {f : Nat} {res : Result}
    {err : Option VerifyError}
    (hreal : ∀ b ∈ (w.func f).layout, ∀ i ∈ (w.func f).listed b, (w.func f).hasInstr i = true)
    (h : optimize o f w = .ok (res, err) w') (hs : res.skipped = .notSkipped) :
    ∃ st, Motion.State.Footprint (w.func f) st ∧ w'.func f = st.func ∧
      res.changed = st.done.changed ∧ res.preserved = preservedBy st.done := by
  obtain ⟨r, w₁, hp, hcases⟩ := optimize_inv h
  obtain ⟨-, hr⟩ := prepare_inv hp
  rcases hr with ⟨reason, rfl, hne⟩ | ⟨c₀, c, h₀, hc, rfl⟩
  · obtain ⟨_, hreason, rfl⟩ := hcases.resolve_right fun ⟨_, _, hr, _⟩ => by cases hr
    cases hreason
    exact absurd hs hne
  · obtain ⟨_, st, hr, hrun, hw', rfl⟩ := hcases.resolve_left fun ⟨_, hr, _⟩ => by cases hr
    cases hr
    obtain ⟨s, hsets, -⟩ := Context.analyze_spec (Context.ofFunc_fresh h₀).1 hc
    have hv := Context.Answers.surveyed ⟨c₀, h₀, hc, hsets⟩ hreal
    have hne : (w.func f).isEmpty = false := by
      cases he : (w.func f).isEmpty with
      | false => rfl
      | true =>
        obtain ⟨reason, hskip⟩ := prepare_skipped (o := o) he w
        rw [hskip] at hp
        cases hp
    exact ⟨st, hv.clean.run hsets hrun, func_of_modify (lt_size_of_isEmpty hne) hw', rfl, rfl⟩

/-- What a run over any function reports of it is so, whatever the options are, if the run ends and
the function is not skipped. -/
theorem optimize_preserved {w w' : Workspace} {o : Options} {f : Nat} {res : Result}
    {err : Option VerifyError}
    (hreal : ∀ b ∈ (w.func f).layout, ∀ i ∈ (w.func f).listed b, (w.func f).hasInstr i = true)
    (h : optimize o f w = .ok (res, err) w') (hs : res.skipped = .notSkipped) :
    (res.changed = false ↔ res.preserved = .all) ∧ (res.preserved = .all ↔
      (w.func f).Intact (w'.func f)) ∧
    (res.preserved = .all → w'.func f = w.func f) ∧
    (res.preserved = .cfg → (w.func f).Keeps (w'.func f) ∧
      ∃ b ∈ (w.func f).layout, ((w'.func f).block b).body ≠ ((w.func f).block b).body) ∧
    (res.preserved = .none ↔ (w.func f).layout.length < (w'.func f).layout.length) := by
  obtain ⟨st, hfoot, hfunc, hchanged, hpreserved⟩ := optimize_footprint hreal h hs
  rw [hfunc, hchanged, hpreserved, preservedBy_eq_all, preservedBy_eq_none,
    preservedBy_eq_cfg, hfoot.length]
  refine ⟨Iff.rfl, ⟨fun hno => ?_, fun hin => ?_⟩, hfoot.idle, fun ⟨h0, hyes⟩ => ⟨hfoot.keeps h0,
    hfoot.moved h0 hyes⟩, by omega⟩
  · rw [hfoot.idle hno]
    exact .refl _
  · by_contra hyes
    rw [Bool.not_eq_false] at hyes
    -- the layout is the same, so that no edge was split, and some body differs
    have h0 : st.done.splits = 0 := by
      have hlen := hfoot.length
      rw [hin.layout] at hlen
      omega
    obtain ⟨b, hb, hbody⟩ := hfoot.moved h0 hyes
    exact hbody (hin.lists b hb).2.1

/-- The store leaves the loop, and the graph stays. -/
theorem optimize_preserved_spin :
    (∀ b ∈ Context.spin.layout, ∀ i ∈ Context.spin.listed b, Context.spin.hasInstr i = true) ∧
    ∃ res err w', (optimize {} 0 { funcs := #[Context.spin] } = .ok (res, err) w' ∧
      res.skipped = .notSkipped ∧ res.preserved = .cfg) ∧
      Context.spin.Keeps (w'.func 0) ∧ ∃ b ∈ Context.spin.layout, ((w'.func 0).block b).body ≠
        (Context.spin.block b).body := by
  have hreal : ∀ b ∈ Context.spin.layout, ∀ i ∈ Context.spin.listed b,
      Context.spin.hasInstr i = true := by
    decide +kernel
  have hrun : (match optimize {} 0 { funcs := #[Context.spin] } with
      | .ok r _ => decide (r.1.skipped = .notSkipped ∧ r.1.preserved = .cfg)
      | .error _ _ => false) = true := by decide +kernel
  split at hrun
  · next r w' hr =>
    obtain ⟨hs, hcfg⟩ := of_decide_eq_true hrun
    obtain ⟨-, -, -, hflow, -⟩ :=
      optimize_preserved (w := { funcs := #[Context.spin] }) (f := 0) hreal hr hs
    exact ⟨hreal, r.1, r.2, w', ⟨hr, hs, hcfg⟩, hflow hcfg⟩
  · cases hrun

end Workspace
end CodeMotion
