import Mathlib
import CodeMotion.Proofs.Anticipation
import CodeMotion.Proofs.Placements

/-! A copy is never made in vain: its expression is anticipated behind the edge it is made on, so
that every way on computes it, and it is not available in front of the edge, so that some way there
does not. -/

namespace CodeMotion.Context

variable {fn : Func} {o : Options} {c c₀ : Context} {s : Sets} {e k x : Nat}

/-- An expression that is not available behind a node is missing at the end of a walk through its
block. -/
theorem Charts.exists_walk_not_brings (h : Charts fn c) (hp : (c.availability s).Regular)
    (hs : (c.availability s).Solution ⟨s.availIn, s.availOut⟩) (hr : c.Reach k)
    (hno : e ∉ s.availOut.of k) :
    ∃ l, fn.Walk l (c.node k).block ∧ ¬ Brings fn s e (l ++ [(c.node k).block]) := by
  obtain ⟨π, hπ⟩ := hr
  have hout : e ∈ s.availOut.of k ↔ _ := hs.mem_exit_iff_trails hp (reached_availability h.wired hπ)
  rw [hout] at hno
  push Not at hno
  obtain ⟨m, hm, hmiss⟩ := hno
  refine ⟨_, h.walk_of_trail hp hm, fun hb => hmiss ((h.brings_iff (hm.lt_snoc hp)).1 ?_)⟩
  rw [List.map_append]
  exact hb

/-- What waits on an edge is anticipated behind it and not available in front of it, and what waits
at a block is anticipated there. So is what is copied onto an edge, whether or not the motion of
values is restricted: every descent awaits it, and on some walk it has not been computed. -/
theorem placement_safe (h : Answers fn o c s) :
    (∀ x < c.edges.size, c.Reach (c.edge x).source →
      ∀ e ∈ s.later.of x, e ∈ s.antIn.of (c.edge x).target \ s.availOut.of (c.edge x).source) ∧
    (∀ k, c.Reach k → ∀ e ∈ s.laterIn.of k, e ∈ s.antIn.of k) ∧
    ∀ x < c.edges.size, ∀ e ∈ s.insert.of x, c.Reach (c.edge x).source ∧
      e ∈ s.antIn.of (c.edge x).target \ s.availOut.of (c.edge x).source ∧
      ((∀ y < c.edges.size, (c.edge y).target ≠ 0) →
        (∀ l, fn.Descent (c.node (c.edge x).target).block l →
          Awaits fn s e ((c.node (c.edge x).target).block :: l)) ∧
        ∃ l, fn.Walk l (c.node (c.edge x).source).block ∧
          ¬ Brings fn s e (l ++ [(c.node (c.edge x).source).block])) := by
  obtain ⟨c₀, -, hs, hd⟩ := h.solved
  have hlater : ∀ x < c.edges.size, c.Reach (c.edge x).source →
      ∀ e ∈ s.later.of x, e ∈ s.antIn.of (c.edge x).target \ s.availOut.of (c.edge x).source := by
    rintro x hx ⟨π, hπ⟩ e he
    rw [BitSet.mem_diff]
    exact hs.ant_of_later hπ x hx rfl he
  refine ⟨hlater, fun k ⟨π, hπ⟩ e he => hs.antIn_of_laterIn hπ he, fun x hx e he => ?_⟩
  obtain ⟨hr, hwait, -⟩ := (hs.mem_insertOn hx).1 ((hd.insert_iff x hx e).1 he).1
  have hsafe := hlater x hx hr e hwait
  refine ⟨hr, hsafe, fun h0 => ?_⟩
  obtain ⟨hant, hmiss⟩ := BitSet.mem_diff.1 hsafe
  have hmap := hs.charts (hs.enclosed h0)
  have hfit := hs.numbered.fits
  exact ⟨(hmap.mem_antIn_iff hs.ant (regular_anticipability hs.wired hfit.up)
    (hs.wired.target_lt x hx)).1 hant,
    hmap.exists_walk_not_brings (regular_availability hs.wired hfit.down) hs.avail hr hmiss⟩

/-- The copy in front of the loop. -/
theorem placement_safe_spin :
    ∃ c s, Answers spin {} c s ∧ (∀ y < c.edges.size, (c.edge y).target ≠ 0) ∧ 0 ∈ s.insert.of 0 ∧
    0 ∈ s.antIn.of 1 \ s.availOut.of 0 ∧ (∀ l, spin.Descent 2 l → Awaits spin s 0 (2 :: l)) ∧
    ∃ l, spin.Walk l 1 ∧ ¬ Brings spin s 0 (l ++ [1]) := by
  obtain ⟨c, s, ha, hp⟩ := answers_of_answer? spin {}
    (fun p => p.1.edges == #[⟨0, 1, none⟩, ⟨1, 1, none⟩, ⟨1, 2, none⟩] && (p.1.node 0).block == 1 &&
      (p.1.node 1).block == 2 &&
      decide (∀ y < p.1.edges.size, (p.1.edge y).target ≠ 0) && (p.2.insert.of 0).contains 0) (by
        decide +kernel)
  simp only [Bool.and_eq_true, beq_iff_eq, decide_eq_true_eq] at hp
  obtain ⟨⟨⟨⟨hedges, hsource⟩, htarget⟩, h0⟩, hins⟩ := hp
  have he0 : c.edge 0 = ⟨0, 1, none⟩ := by rw [edge, hedges]; rfl
  obtain ⟨-, -, hcopy⟩ := placement_safe ha
  obtain ⟨-, hsafe, hways⟩ := hcopy 0 (by rw [hedges]; decide) 0 hins
  obtain ⟨hahead, hbehind⟩ := hways h0
  rw [he0] at hsafe hahead hbehind
  rw [htarget] at hahead
  rw [hsource] at hbehind
  exact ⟨c, s, ha, h0, hins, hsafe, hahead, hbehind⟩

end CodeMotion.Context
