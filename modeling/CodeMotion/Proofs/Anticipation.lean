import Mathlib
import CodeMotion.Proofs.MeetOverPaths

/-! The anticipated expressions are the meet over all ways on from a block, to where control ends or
is caught in a loop for ever. -/

namespace CodeMotion

theorem exists_split_reverse {α : Type} {l : List α} {P : List α → α → List α → Prop} :
    (∃ l₁ a l₂, l.reverse = l₁ ++ a :: l₂ ∧ P l₁ a l₂) ↔ ∃ l₁ a l₂, l = l₁ ++ a :: l₂ ∧
      P l₂.reverse a l₁.reverse := by
  constructor
  · rintro ⟨l₁, a, l₂, hl, hP⟩
    exact ⟨l₂.reverse, a, l₁.reverse, by rw [← l.reverse_reverse, hl]; simp, by simpa using hP⟩
  · rintro ⟨l₁, a, l₂, rfl, hP⟩
    exact ⟨l₂.reverse, a, l₁.reverse, by simp, hP⟩

namespace Flow

variable {p : Flow} {f j : Nat}

/-- A fact holds at the exit of a node just if every way through the node carries it. -/
theorem Solution.mem_exit_iff_trails (hp : p.Regular) {s : State} (h : p.Solution s)
    (hr : p.Reached j) : f ∈ s.exit.of j ↔ ∀ l, p.Trail l j → p.Carries f (l ++ [j]) := by
  rw [h.exit_iff j hr, h.mem_entry_iff_trails hp hr]
  simp only [carries_snoc]
  constructor
  · rintro (hg | ⟨hall, hk⟩) l hl
    · exact Or.inl hg
    · exact Or.inr ⟨hall l hl, hk⟩
  · intro hall
    by_cases hg : f ∈ p.gen j
    · exact Or.inl hg
    · obtain ⟨l, hl⟩ := hr.exists_trail
      have hk := ((hall l hl).resolve_left hg).2
      exact Or.inr ⟨fun m hm => ((hall m hm).resolve_left hg).1, hk⟩

end Flow

namespace Func

/-- Control ends with the block, or it never ends once it has come to the block. -/
def Pinned (fn : Func) (b : BlockId) : Prop := fn.succs b = [] ∨ ¬ fn.Exits b

/-- A way on from a block to a pinned one, as the blocks that it comes to. -/
inductive Descent (fn : Func) : BlockId → List BlockId → Prop
  | pinned {b : BlockId} (h : fn.Pinned b) : Descent fn b []
  | step {b a : BlockId} {l : List BlockId} (h : fn.Leads b a) (hl : Descent fn a l) :
    Descent fn b (a :: l)

end Func

namespace Context

/-- One of the blocks exposes the expression upward, and none before it kills it. -/
def Awaits (fn : Func) (t : Sets) (e : Nat) (l : List BlockId) : Prop :=
  ∃ l₁ a l₂, l = l₁ ++ a :: l₂ ∧ e ∈ fn.setAt t.up a ∧ ∀ b ∈ l₁, e ∉ fn.setAt t.kill b

variable {fn : Func} {o : Options} {c c₀ c₁ c₂ c₃ d : Context} {s t : Sets} {e k : Nat}
  {b : BlockId} {l : List BlockId}

namespace Charts

variable (h : Charts fn c)
include h

theorem awaits_iff {m : List Nat} (hm : ∀ i ∈ m, i < c.nodes.size) :
    Awaits fn t e (m.reverse.map fun i => (c.node i).block) ↔ (c.anticipability t).Carries e m := by
  refine exists_split_map.trans (exists_split_reverse.trans
    (exists_congr fun m₁ => exists_congr fun i => exists_congr fun m₂ => and_congr_right ?_))
  rintro rfl
  refine and_congr ?_ ?_
  · rw [h.setAt_block _ (hm i (by simp))]
    rfl
  · simp only [List.forall_mem_map, List.mem_reverse]
    refine forall₂_congr fun j hj => ?_
    rw [h.setAt_block _ (hm j (by simp [hj]))]
    rfl

theorem descent_of_trail (hp : (c.anticipability t).Regular) {m : List Nat}
    (hm : (c.anticipability t).Trail m k) :
    fn.Descent (c.node k).block (m.reverse.map fun i => (c.node i).block) := by
  induction hm with
  | seed hj hpin => exact .pinned ((h.isPinned_iff hj).1 hpin)
  | @step m i j hm hj ih =>
    obtain ⟨x, hx, rfl⟩ := List.mem_map.1 hj
    obtain ⟨hlt, rfl⟩ := (h.wired.mem_pred i (hm.reached.lt hp) x).1 hx
    rw [List.reverse_append, List.map_append]
    exact .step (h.leads hlt) ih

theorem exists_trail (hl : fn.Descent b l) (hk : k < c.nodes.size) (hb : (c.node k).block = b) :
    ∃ m, (c.anticipability t).Trail m k ∧ (m.reverse.map fun i => (c.node i).block) = l := by
  induction hl generalizing k with
  | pinned hpin => exact ⟨[], .seed hk ((h.isPinned_iff hk).2 (hb ▸ hpin)), rfl⟩
  | step hleads _ ih =>
    obtain ⟨x, hx, rfl, ht⟩ := h.exists_edge hk (hb ▸ hleads)
    have htarget := h.wired.target_lt x hx
    obtain ⟨m, hm, rfl⟩ := ih htarget ht
    refine ⟨m ++ [(c.edge x).target], .step hm (List.mem_map.2 ⟨x, ?_, rfl⟩), by simp [ht]⟩
    exact (h.wired.mem_pred _ htarget x).2 ⟨hx, rfl⟩

/-- The ways back to a node are the descents from its block. -/
theorem forall_descents_iff (hp : (c.anticipability t).Regular) (hk : k < c.nodes.size) :
    (∀ m, (c.anticipability t).Trail m k → (c.anticipability t).Carries e (m ++ [k])) ↔
      ∀ l, fn.Descent (c.node k).block l → Awaits fn t e ((c.node k).block :: l) := by
  have hawaits : ∀ m, (c.anticipability t).Trail m k → ((c.anticipability t).Carries e (m ++ [k]) ↔
      Awaits fn t e ((c.node k).block :: m.reverse.map fun i => (c.node i).block)) := by
    intro m hm
    rw [← h.awaits_iff (hm.lt_snoc hp), List.reverse_append, List.map_append]
    rfl
  constructor
  · intro hall l hl
    obtain ⟨m, hm, rfl⟩ := h.exists_trail (t := t) hl hk rfl
    exact (hawaits m hm).1 (hall m hm)
  · intro hall m hm
    exact (hawaits m hm).2 (hall _ (h.descent_of_trail hp hm))

theorem reached_block (hk : k < c.nodes.size) : (c.anticipability t).Reached k :=
  reached_anticipability h.wired (h.marked.ends k hk)

variable (hs : (c.anticipability t).Solution ⟨t.antOut, t.antIn⟩)
include hs

theorem mem_antIn_iff (hp : (c.anticipability t).Regular) (hk : k < c.nodes.size) :
    e ∈ t.antIn.of k ↔ ∀ l, fn.Descent (c.node k).block l →
      Awaits fn t e ((c.node k).block :: l) := by
  rw [← h.forall_descents_iff hp hk]
  exact hs.mem_exit_iff_trails hp (h.reached_block hk)

theorem antOut_eq_empty (hk : k < c.nodes.size) (hpin : fn.Pinned (c.node k).block) :
    t.antOut.of k = .empty c.catalog.size :=
  BitSet.eq_empty (hs.entry_size k hk) (hs.entry_pinned k hk ((h.isPinned_iff hk).2 hpin))

theorem mem_antOut_iff (hk : k < c.nodes.size) (hpin : ¬ fn.Pinned (c.node k).block) :
    e ∈ t.antOut.of k ↔ ∀ a ∈ fn.succs (c.node k).block, e ∈ fn.setAt t.antIn a := by
  have hfree : (c.node k).isPinned = false :=
    Bool.eq_false_iff.2 fun hp => hpin ((h.isPinned_iff hk).1 hp)
  have hiff : e ∈ t.antOut.of k ↔ e < c.catalog.size ∧ ∀ j ∈ (c.anticipability t).sources k,
      e ∈ t.antIn.of j :=
    hs.entry_iff k (h.reached_block hk) hfree e
  have hset : ∀ x ∈ (c.node k).succ, fn.setAt t.antIn (c.node (c.edge x).target).block =
      t.antIn.of (c.edge x).target :=
    fun x hx => h.setAt_block _ (h.wired.target_lt x ((h.wired.mem_succ k hk x).1 hx).1)
  rw [hiff]
  constructor
  · rintro ⟨-, hall⟩ a ha
    obtain ⟨x, hx, rfl⟩ := (h.mem_succs_iff hk).1 ha
    rw [hset x hx]
    exact hall _ (List.mem_map_of_mem hx)
  · intro hall
    have hin : ∀ x ∈ (c.node k).succ, e ∈ t.antIn.of (c.edge x).target := fun x hx =>
      hset x hx ▸ hall _ ((h.mem_succs_iff hk).2 ⟨x, hx, rfl⟩)
    refine ⟨?_, fun j hj => ?_⟩
    · -- a block that is not pinned has a successor, whose set has the size of the catalog
      obtain ⟨a, ha⟩ := List.exists_mem_of_ne_nil _ fun hnil => hpin (Or.inl hnil)
      obtain ⟨x, hx, -⟩ := (h.mem_succs_iff hk).1 ha
      have hsize : (t.antIn.of (c.edge x).target).size = c.catalog.size :=
        hs.exit_size _ (h.wired.target_lt x ((h.wired.mem_succ k hk x).1 hx).1)
      exact hsize ▸ BitSet.lt_size (hin x hx)
    · obtain ⟨x, hx, rfl⟩ := List.mem_map.1 hj
      exact hin x hx

end Charts

/-- What the first two phases leave, if the function is not too large. -/
theorem stage_of_scanning (h₀ : ofFunc fn o = .ok c₀) (h₁ : Phase.numbering.apply fn c₀ = .ok ⟨⟩ c₁)
    (ho : c₁.overflow = false) (h₂ : Phase.scanning.apply fn c₁ = .ok ⟨⟩ c₂) :
    Drawn fn c₀ ∧ ∃ s, Stage fn c₀ c₂ s ∧ ∀ k < c₂.nodes.size, Exposed fn c₂ s k := by
  have hf := (ofFunc_fresh h₀).1
  rcases hf.numberExpressions_inv h₁ with hover | ⟨s₁, hst₁, hkill, hsites⟩
  · rw [ho] at hover
    cases hover
  · obtain ⟨s, hst, hx, -⟩ := localPredicates_inv hst₁ hkill hsites h₂
    exact ⟨hf.toDrawn, s, hst, hx⟩

theorem rounds_ant (hs : c.sets = some s) (h : solveAnticipability c = .ok ⟨⟩ d) :
    d.rounds.ant = (c.anticipability s).visited.length := by
  unfold solveAnticipability at h
  rw [Change.get_bind, Change.bind_ok] at h
  obtain ⟨_, _, hcheck, h⟩ := h
  obtain ⟨-, rfl⟩ := Change.check_apply.1 hcheck
  rw [sized_of_sets hs, Change.check_bind] at h
  cases h
  exact Flow.steps_solve _

/-- The anticipated expressions of a function with distinct blocks and attached successors: in front
of any block those that every descent from it awaits. It does not matter whether the available ones
have been looked for before, and every block is visited. -/
theorem anticipability_meet_over_paths (he : fn.Enclosed) (h₀ : ofFunc fn o = .ok c₀)
    (h₁ : Phase.numbering.apply fn c₀ = .ok ⟨⟩ c₁) (ho : c₁.overflow = false)
    (h₂ : Phase.scanning.apply fn c₁ = .ok ⟨⟩ c₂)
    (h₃ : c₃ = c₂ ∨ Phase.availability.apply fn c₂ = .ok ⟨⟩ c₃) :
    ∃ s d t, c₃.sets = some s ∧ Phase.anticipability.apply fn c₃ = .ok ⟨⟩ d ∧ d.sets = some t ∧
      t = { s with antIn := t.antIn, antOut := t.antOut } ∧
        d.rounds.ant = (c₃.anticipability s).visited.length ∧
      ∀ b ∈ fn.layout, d.nodeOf fn b = .ok (fn.layout.idxOf b) ∧
        ((d.node (fn.layout.idxOf b)).isPinned = true ↔ fn.succs b = [] ∨ ¬ fn.Exits b) ∧
        (∀ e, e ∈ fn.setAt t.antIn b ↔ ∀ l, fn.Descent b l → Awaits fn t e (b :: l)) ∧
        (fn.Pinned b → fn.setAt t.antOut b = .empty d.catalog.size) ∧
        (¬ fn.Pinned b → ∀ e, e ∈ fn.setAt t.antOut b ↔ ∀ a ∈ fn.succs b, e ∈ fn.setAt t.antIn a) ∧
        fn.layout.idxOf b ∈ (c₃.anticipability s).visited := by
  obtain ⟨hdrawn, s₂, hst, -⟩ := stage_of_scanning h₀ h₁ ho h₂
  have hwired := hst.graph.wired hdrawn.wired
  have hbefore : ∃ s, c₂.SameWork c₃ ∧ c₃.sets = some s ∧
      s.Fits c₂.nodes.size c₂.edges.size c₂.catalog.size := by
    rcases h₃ with rfl | h₃
    · exact ⟨s₂, ⟨rfl, rfl, rfl, rfl, rfl⟩, hst.sets, hst.numbered.fits⟩
    · have hturn : Turns fn c₂ .availability s₂ (c₂.withAvail s₂) :=
        turns_availability hst.numbered.fits
      obtain ⟨d, hd, hw, hsets⟩ := hturn c₂ ⟨rfl, rfl, rfl, rfl, rfl⟩ hst.sets
      rw [hd] at h₃
      cases h₃
      exact ⟨_, hw, hsets, fits_withAvail hwired hst.numbered.fits⟩
  obtain ⟨s, hw₃, hs₃, hfit⟩ := hbefore
  have hturn : Turns fn c₂ .anticipability s (c₂.withAnt s) := turns_anticipability hfit
  obtain ⟨d, hd, hw, hsets⟩ := hturn c₃ hw₃ hs₃
  have hmap : Charts fn d := ⟨he, c₀, hdrawn, hst.graph.trans hw.graph⟩
  have hflow : d.anticipability (c₂.withAnt s) = c₂.anticipability s := hw.anticipability rfl rfl
  have hflow₃ : c₃.anticipability s = c₂.anticipability s := hw₃.anticipability rfl rfl
  have hp₂ : (c₂.anticipability s).Regular := regular_anticipability hwired hfit.up
  have hp : (d.anticipability (c₂.withAnt s)).Regular := hflow ▸ hp₂
  have hs : (d.anticipability (c₂.withAnt s)).Solution ⟨(c₂.withAnt s).antOut,
      (c₂.withAnt s).antIn⟩ := by
    rw [hflow]
    exact Flow.solution hp₂
  refine ⟨s, d, c₂.withAnt s, hs₃, hd, hsets, rfl, rounds_ant hs₃ hd, fun b hb => ?_⟩
  obtain ⟨k, hk, rfl⟩ := hmap.exists_node hb
  rw [hmap.idxOf_block hk]
  simp only [hmap.setAt_block _ hk]
  refine ⟨hmap.nodeOf_block hk, hmap.isPinned_iff hk, fun e => hmap.mem_antIn_iff hs hp hk,
    hmap.antOut_eq_empty hs hk, fun hpin e => hmap.mem_antOut_iff hs hk hpin, ?_⟩
  rw [hflow₃, Flow.mem_visited hp₂, ← hflow]
  exact hmap.reached_block hk

/-- One branch stores a number for ever, the other stores it once and ends; a block that is never
reached leads to the second. -/
def forever : Func where
  name := "f"
  params := ["c"]
  layout := [1, 2, 3, 4, 5]
  blocks := ⟨#[{ term := some 1 }, { body := [2], term := some 3, preds := [1, 2] },
    { body := [4], term := some 5, preds := [1, 5] }, { term := some 6, preds := [3] },
      { term := some 7 }]⟩
  instrs := ⟨#[
    { op := .branch, args := [.param 0 "c"], targets := [2, 3], block := some 1 },
    { op := .store, args := [.const 1, .global 0 "g"], block := some 2 },
    { op := .jump, targets := [2], block := some 2 },
    { op := .store, args := [.const 1, .global 0 "g"], block := some 3 },
    { op := .jump, targets := [4], block := some 3 },
    { op := .ret, block := some 4 },
    { op := .jump, targets := [3], block := some 5 }]⟩

theorem anticipability_meet_over_paths_forever :
    forever.Enclosed ∧ ∃ c₀ c₁ c₂ s d t, ofFunc forever {} = .ok c₀ ∧
    Phase.numbering.apply forever c₀ = .ok ⟨⟩ c₁ ∧ c₁.overflow = false ∧
      Phase.scanning.apply forever c₁ = .ok ⟨⟩ c₂ ∧
    c₂.sets = some s ∧ Phase.anticipability.apply forever c₂ = .ok ⟨⟩ d ∧ d.sets = some t ∧
    (d.node 1).isPinned = true ∧ forever.Descent 1 [2] ∧ forever.Descent 1 [3, 4] ∧
    (0 ∈ forever.setAt t.antIn 1 ↔ ∀ l, forever.Descent 1 l → Awaits forever t 0 (1 :: l)) ∧
    (0 ∈ forever.setAt t.antIn 5 ↔ ∀ l, forever.Descent 5 l → Awaits forever t 0 (5 :: l)) ∧
    forever.setAt t.antOut 2 = .empty d.catalog.size ∧ 4 ∈ (c₂.anticipability s).visited := by
  have he : forever.Enclosed := by decide +kernel
  obtain ⟨c₀, c₁, c₂, h₀, h₁, ho, h₂⟩ := exists_of_scanned? forever {} (by decide +kernel)
  obtain ⟨s, d, t, hs, hd, ht, -, -, hall⟩ :=
    anticipability_meet_over_paths he h₀ h₁ ho h₂ (Or.inl rfl)
  have hloop : forever.Pinned 2 := by
    refine Or.inr ?_
    rw [← he.mem_exiting_iff (by decide)]
    decide +kernel
  have hend : forever.Pinned 4 := Or.inl (by decide)
  exact ⟨he, c₀, c₁, c₂, s, d, t, h₀, h₁, ho, h₂, hs, hd, ht, (hall 2 (by decide)).2.1.2 hloop,
    .step (by decide) (.pinned hloop), .step (by decide) (.step (by decide) (.pinned hend)),
    (hall 1 (by decide)).2.2.1 0, (hall 5 (by decide)).2.2.1 0, (hall 2 (by decide)).2.2.2.1 hloop,
    (hall 5 (by decide)).2.2.2.2.2⟩

end Context
end CodeMotion
