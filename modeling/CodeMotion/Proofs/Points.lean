import Mathlib
import CodeMotion.Proofs.Equations

/-! The facts of an analysis at points inside of blocks: what is anticipated in front of the rest of
a block, and what is available behind a part of it. Two expressions of which each disturbs the other
are never anticipated at the same node. -/

namespace CodeMotion.Context

variable {fn : Func} {c c₀ : Context} {s : Sets} {k x e f : Nat} {i j : InstrId}
  {pre post : List InstrId}

def AntAt (fn : Func) (c : Context) (s : Sets) (k : Nat) (post : List InstrId) (e : Nat) : Prop :=
  (fn.Occurs c.catalog post e ∧ ∀ j ∈ fn.before c.catalog post e, ¬ fn.Kills c.catalog true j e) ∨
    (e ∈ s.antOut.of k ∧ ∀ j ∈ post, ¬ fn.Kills c.catalog true j e)

def AvailAt (fn : Func) (c : Context) (s : Sets) (k : Nat) (pre : List InstrId) (e : Nat) : Prop :=
  (e ∈ s.availIn.of k ∧ ∀ j ∈ (fn.block (c.node k).block).phis ++ pre,
    ¬ fn.Kills c.catalog false j e) ∨
    (fn.Occurs c.catalog pre e ∧ ∀ j ∈ fn.before c.catalog pre.reverse e,
      ¬ fn.Kills c.catalog false j e)

/-- An expression was neither computed nor disturbed in the phis and a part of the body of a
block. -/
def Untouched (fn : Func) (c : Context) (k : Nat) (pre : List InstrId) (e : Nat) : Prop :=
  ¬ fn.Occurs c.catalog pre e ∧ ∀ j ∈ (fn.block (c.node k).block).phis ++ pre,
    ¬ fn.Kills c.catalog false j e

theorem AntAt.cons (h : AntAt fn c s k (i :: post) e) :
    fn.exprAt c.catalog i = some e ∨ (¬ fn.Kills c.catalog true i e ∧ AntAt fn c s k post e) := by
  by_cases hi : fn.exprAt c.catalog i = some e
  · exact Or.inl hi
  refine Or.inr ?_
  rcases h with ⟨⟨j, hj, hje⟩, hcalm⟩ | ⟨hout, hcalm⟩
  · have hbefore : fn.before c.catalog (i :: post) e = i :: fn.before c.catalog post e := by
      simp [Func.before, hi]
    rw [hbefore] at hcalm
    refine ⟨hcalm i List.mem_cons_self,
      Or.inl ⟨⟨j, ?_, hje⟩, fun l hl => hcalm l (List.mem_cons_of_mem _ hl)⟩⟩
    rcases List.mem_cons.1 hj with rfl | hj
    · exact absurd hje hi
    · exact hj
  · exact ⟨hcalm i List.mem_cons_self,
      Or.inr ⟨hout, fun l hl => hcalm l (List.mem_cons_of_mem _ hl)⟩⟩

theorem AntAt.nil (h : AntAt fn c s k [] e) : e ∈ s.antOut.of k := by
  rcases h with ⟨⟨j, hj, -⟩, -⟩ | ⟨hout, -⟩
  · cases hj
  · exact hout

theorem AvailAt.snoc (h : AvailAt fn c s k (pre ++ [i]) e) :
    fn.exprAt c.catalog i = some e ∨ (¬ fn.Kills c.catalog false i e ∧ AvailAt fn c s k pre e) := by
  by_cases hi : fn.exprAt c.catalog i = some e
  · exact Or.inl hi
  refine Or.inr ?_
  rcases h with ⟨hin, hcalm⟩ | ⟨⟨j, hj, hje⟩, hcalm⟩
  · refine ⟨hcalm i (by simp), Or.inl ⟨hin, fun l hl => hcalm l ?_⟩⟩
    rw [← List.append_assoc]
    exact List.mem_append_left _ hl
  · have hbefore : fn.before c.catalog (pre ++ [i]).reverse e =
        i :: fn.before c.catalog pre.reverse e := by
      simp [Func.before, hi]
    rw [hbefore] at hcalm
    refine ⟨hcalm i List.mem_cons_self,
      Or.inr ⟨⟨j, ?_, hje⟩, fun l hl => hcalm l (List.mem_cons_of_mem _ hl)⟩⟩
    rcases List.mem_append.1 hj with hj | hj
    · exact hj
    · rw [List.mem_singleton.1 hj] at hje
      exact absurd hje hi

theorem Untouched.of_snoc (h : Untouched fn c k (pre ++ [i]) e) :
    Untouched fn c k pre e ∧ fn.exprAt c.catalog i ≠ some e ∧ ¬ fn.Kills c.catalog false i e := by
  obtain ⟨hocc, hcalm⟩ := h
  refine ⟨⟨fun ho => hocc (occurs_append.2 (Or.inl ho)), fun j hj => hcalm j ?_⟩,
    fun hi => hocc ⟨i, by simp, hi⟩, hcalm i (by simp)⟩
  rw [← List.append_assoc]
  exact List.mem_append_left _ hj

namespace Solved

variable (h : Solved fn c₀ c s)
include h

theorem antAt_of_antIn (hk : k < c.nodes.size) (he : e ∈ s.antIn.of k) :
    (∀ j ∈ (fn.block (c.node k).block).phis, ¬ fn.Kills c.catalog true j e) ∧
      AntAt fn c s k (c.body fn k) e := by
  have hx := h.exposed k hk
  rcases (h.mem_antIn hk).1 he with hup | ⟨hout, hkill⟩
  · obtain ⟨hocc, hcalm⟩ := (hx.up e).1 hup
    exact ⟨fun j hj => hcalm j (List.mem_append_left _ hj),
      Or.inl ⟨hocc, fun j hj => hcalm j (List.mem_append_right _ hj)⟩⟩
  · rw [hx.kill] at hkill
    push Not at hkill
    exact ⟨fun j hj => hkill j (List.mem_append_left _ (List.mem_append_left _ hj)),
      Or.inr ⟨hout, fun j hj => hkill j (List.mem_append_left _ (List.mem_append_right _ hj))⟩⟩

theorem availAt_of_availOut (hk : c.Reach k) (he : e ∈ s.availOut.of k) :
    AvailAt fn c s k (c.body fn k) e := by
  have hx := h.exposed k (h.reach_lt hk)
  rcases (h.mem_availOut hk).1 he with hdown | ⟨hin, hkill⟩
  · exact Or.inr ((hx.down e).1 hdown)
  · rw [hx.kill] at hkill
    push Not at hkill
    exact Or.inl ⟨hin, fun j hj hj' => hkill j (List.mem_append_left _ hj) hj'.of_false⟩

/-- What is not exposed in a node and not disturbed there does not occur in it. -/
theorem untouched_of_not_kill (hk : k < c.nodes.size) (hkill : e ∉ s.kill.of k)
    (hup : e ∉ s.up.of k) : Untouched fn c k (c.body fn k) e := by
  have hx := h.exposed k hk
  rw [hx.kill] at hkill
  push Not at hkill
  have hcalm : ∀ j ∈ (fn.block (c.node k).block).phis ++ c.body fn k,
      ¬ fn.Kills c.catalog true j e :=
    fun j hj => hkill j (List.mem_append_left _ hj)
  refine ⟨fun hocc => hup ((hx.up e).2 ⟨hocc, fun j hj => hcalm j ?_⟩), fun j hj hj' =>
    hcalm j hj hj'.of_false⟩
  rcases List.mem_append.1 hj with hj | hj
  · exact List.mem_append_left _ hj
  · exact List.mem_append_right _ ((List.takeWhile_sublist _).subset hj)

omit h in
/-- Of two expressions that disturb each other neither is anticipated in front of an occurrence of
the other. -/
theorem antOut_of_both (hne : e ≠ f)
    (hef : ∀ i, fn.exprAt c.catalog i = some e → fn.Kills c.catalog true i f)
    (hfe : ∀ i, fn.exprAt c.catalog i = some f → fn.Kills c.catalog true i e)
    (he : AntAt fn c s k post e) (hf : AntAt fn c s k post f) :
    e ∈ s.antOut.of k ∧ f ∈ s.antOut.of k := by
  induction post with
  | nil => exact ⟨he.nil, hf.nil⟩
  | cons i post ih =>
    rcases he.cons with hi | ⟨hke, he'⟩
    · rcases hf.cons with hi' | ⟨hkf, -⟩
      · rw [hi, Option.some.injEq] at hi'
        exact absurd hi' hne
      · exact absurd (hef i hi) hkf
    · rcases hf.cons with hi' | ⟨-, hf'⟩
      · exact absurd (hfe i hi') hke
      · exact ih he' hf'

/-- If occurrences of two expressions disturb each other, they are not both anticipated. The
induction is on a way to an end, where nothing is anticipated. -/
theorem not_both_anticipated (hk : c.Ends k) (hne : e ≠ f)
    (hef : ∀ i, fn.exprAt c.catalog i = some e → fn.Kills c.catalog true i f)
    (hfe : ∀ i, fn.exprAt c.catalog i = some f → fn.Kills c.catalog true i e)
    (he : e ∈ s.antIn.of k) (hf : f ∈ s.antIn.of k) : False := by
  induction hk with
  | @pinned k hk hp =>
    have hout := antOut_of_both hne hef hfe (h.antAt_of_antIn hk he).2 (h.antAt_of_antIn hk hf).2
    exact h.not_mem_antOut_pinned hk hp hout.1
  | @step x hx _ ih =>
    have hk := h.wired.source_lt x hx
    have hout := antOut_of_both hne hef hfe (h.antAt_of_antIn hk he).2 (h.antAt_of_antIn hk hf).2
    exact ih (h.antIn_of_antOut hx hout.1) (h.antIn_of_antOut hx hout.2)

end Solved
end CodeMotion.Context
