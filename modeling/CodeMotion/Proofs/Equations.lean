import Mathlib
import CodeMotion.Proofs.Analysis

/-! The equations of an analysis in the form in which they are used: what holds on one edge or in
one node, on paths from the entry. What an edge delays is anticipated behind it and not available in
front of it, and what is needed at the end of an edge is available, inserted there, or needed
already at its start. -/

namespace CodeMotion.Context

def Reach (c : Context) (k : Nat) : Prop := ∃ π, c.Path π k

variable {fn : Func} {c c₀ : Context} {s : Sets} {k x e : Nat}

theorem reach_target (hx : x < c.edges.size) (h : c.Reach (c.edge x).source) :
    c.Reach (c.edge x).target := by
  obtain ⟨π, hπ⟩ := h
  exact ⟨π ++ [x], .step hπ hx⟩

def Due (s : Sets) (e k : Nat) : Prop := e ∈ s.antIn.of k ∧ e ∉ s.laterIn.of k

namespace Solved

variable (h : Solved fn c₀ c s)
include h

theorem wired : c.Wired := h.graph.wired h.drawn.wired

theorem marked : c.Marked := h.graph.marked h.drawn.marked

theorem reach_lt (hk : c.Reach k) : k < c.nodes.size := hk.elim fun _ hπ => hπ.lt h.wired

theorem isReachable (hk : c.Reach k) : (c.node k).isReachable = true :=
  (h.marked.reachable_iff k (h.reach_lt hk)).2 hk

theorem not_mem_availIn_zero (h0 : 0 < c.nodes.size) : e ∉ s.availIn.of 0 :=
  h.avail.entry_pinned 0 h0 rfl e

theorem mem_availOut (hk : c.Reach k) :
    e ∈ s.availOut.of k ↔ e ∈ s.down.of k ∨ (e ∈ s.availIn.of k ∧ e ∉ s.kill.of k) := by
  obtain ⟨π, hπ⟩ := hk
  exact h.avail.exit_iff k (reached_availability h.wired hπ) e

theorem mem_availIn (hk : c.Reach k) (h0 : k ≠ 0) : e ∈ s.availIn.of k ↔
    e < c.catalog.size ∧ ∀ x < c.edges.size, (c.edge x).target = k →
      e ∈ s.availOut.of (c.edge x).source := by
  have hlt := h.reach_lt hk
  obtain ⟨π, hπ⟩ := hk
  rw [h.avail.entry_iff k (reached_availability h.wired hπ) (by simpa [availability] using h0) e]
  refine and_congr Iff.rfl ?_
  simp only [availability, List.forall_mem_map, h.wired.mem_pred k hlt, and_imp]

theorem mem_antIn (hk : k < c.nodes.size) :
    e ∈ s.antIn.of k ↔ e ∈ s.up.of k ∨ (e ∈ s.antOut.of k ∧ e ∉ s.kill.of k) :=
  h.ant.exit_iff k (reached_anticipability h.wired (h.marked.ends k hk)) e

theorem not_mem_antOut_pinned (hk : k < c.nodes.size) (hp : (c.node k).isPinned = true) :
    e ∉ s.antOut.of k :=
  h.ant.entry_pinned k hk hp e

theorem mem_antOut (hk : k < c.nodes.size) (hp : (c.node k).isPinned = false) : e ∈ s.antOut.of k ↔
    e < c.catalog.size ∧ ∀ x < c.edges.size, (c.edge x).source = k →
      e ∈ s.antIn.of (c.edge x).target := by
  rw [h.ant.entry_iff k (reached_anticipability h.wired (h.marked.ends k hk)) hp e]
  refine and_congr Iff.rfl ?_
  simp only [anticipability, List.forall_mem_map, h.wired.mem_succ k hk, and_imp]

theorem antIn_of_antOut (hx : x < c.edges.size) (he : e ∈ s.antOut.of (c.edge x).source) :
    e ∈ s.antIn.of (c.edge x).target := by
  have hk := h.wired.source_lt x hx
  cases hp : (c.node (c.edge x).source).isPinned with
  | true => exact absurd he (h.not_mem_antOut_pinned hk hp)
  | false => exact ((h.mem_antOut hk hp).1 he).2 x hx rfl

/-- An occurrence that nothing in its block disturbs is exposed both ways. -/
theorem down_of_up (hk : k < c.nodes.size) (hu : e ∈ s.up.of k) (hn : e ∉ s.kill.of k) :
    e ∈ s.down.of k := by
  have hx := h.exposed k hk
  refine (hx.down e).2 ⟨((hx.up e).1 hu).1, fun j hj hkill =>
    hn ((hx.kill e).2 ⟨j, ?_, hkill.of_false⟩)⟩
  have : j ∈ (c.body fn k).reverse := (List.takeWhile_sublist _).subset hj
  exact List.mem_append_left _ (List.mem_append_right _ (List.mem_reverse.1 this))

theorem up_of_down (hk : k < c.nodes.size) (hd : e ∈ s.down.of k) (hn : e ∉ s.kill.of k) :
    e ∈ s.up.of k := by
  have hx := h.exposed k hk
  refine (hx.up e).2 ⟨((hx.down e).1 hd).1, fun j hj hkill => hn ((hx.kill e).2 ⟨j, ?_, hkill⟩)⟩
  rcases List.mem_append.1 hj with hj | hj
  · exact List.mem_append_left _ (List.mem_append_left _ hj)
  · exact List.mem_append_left _ (List.mem_append_right _ ((List.takeWhile_sublist _).subset hj))

theorem mem_earliest (hx : x < c.edges.size) (hr : c.Reach (c.edge x).source) :
    e ∈ s.earliest.of x ↔
    e ∈ s.antIn.of (c.edge x).target ∧ e ∉ s.availOut.of (c.edge x).source ∧
      ((c.edge x).source ≠ 0 → e ∉ s.antOut.of (c.edge x).source ∨
        e ∈ s.kill.of (c.edge x).source) := by
  have hi := h.wired.source_lt x hx
  have hj := h.wired.target_lt x hx
  rw [h.earliest x hx]
  unfold earliestOn
  simp only [h.isReachable hr, Bool.not_true, Bool.false_eq_true, if_false]
  by_cases h0 : (c.edge x).source = 0
  · simp [h0, BitSet.mem_diff]
  · simp only [h0, if_false, BitSet.mem_inter, BitSet.mem_diff, BitSet.mem_union, BitSet.mem_compl,
      h.numbered.fits.antOut.2 _ hi, ne_eq, not_false_eq_true, forall_const, and_assoc]
    refine and_congr_right fun he => and_congr_right fun _ => or_congr_left ?_
    have hlt := BitSet.lt_size he
    rw [h.numbered.fits.antIn.2 _ hj] at hlt
    simp [hlt]

theorem mem_later (hx : x < c.edges.size) (hr : c.Reach (c.edge x).source) : e ∈ s.later.of x ↔
    e ∈ s.earliest.of x ∨ (e ∈ s.laterIn.of (c.edge x).source ∧ e ∉ s.up.of (c.edge x).source) :=
  h.delayed.later_iff x hx hr e

theorem not_mem_laterIn_zero : e ∉ s.laterIn.of 0 := h.delayed.entry e

theorem mem_laterIn (hk : c.Reach k) (h0 : k ≠ 0) : e ∈ s.laterIn.of k ↔
    e < c.catalog.size ∧ ∀ x < c.edges.size, (c.edge x).target = k → e ∈ s.later.of x :=
  h.delayed.laterIn_iff k hk h0 e

theorem mem_insertOn (hx : x < c.edges.size) : e ∈ c.insertOn s x ↔
    c.Reach (c.edge x).source ∧ e ∈ s.later.of x ∧ e ∉ s.laterIn.of (c.edge x).target := by
  unfold insertOn
  by_cases hr : (c.node (c.edge x).source).isReachable = true
  · rw [if_pos hr, BitSet.mem_diff]
    have := (h.marked.reachable_iff _ (h.wired.source_lt x hx)).1 hr
    exact ⟨fun he => ⟨this, he⟩, And.right⟩
  · rw [if_neg hr]
    exact ⟨fun he => absurd he BitSet.not_mem_empty, fun he => absurd (h.isReachable he.1) hr⟩

/-- Where a copy is needed on an edge to another node than the entry, it is not on every edge to
that node that control can take. -/
theorem exists_other (hx : x < c.edges.size) (h0 : (c.edge x).target ≠ 0)
    (he : e ∈ c.insertOn s x) :
    ∃ y < c.edges.size, (c.edge y).target = (c.edge x).target ∧ y ≠ x ∧
      c.Reach (c.edge y).source := by
  obtain ⟨hr, hlater, hnot⟩ := (h.mem_insertOn hx).1 he
  have hlt : e < c.catalog.size := (h.delayed.later_fits.2 x hx) ▸ BitSet.lt_size hlater
  rw [h.mem_laterIn (reach_target hx hr) h0] at hnot
  push Not at hnot
  obtain ⟨y, hy, ht, hmiss⟩ := hnot hlt
  refine ⟨y, hy, ht, ?_, ?_⟩
  · rintro rfl
    exact hmiss hlater
  · by_contra hfar
    exact hmiss (h.delayed.later_full y hy hfar e hlt)

theorem mem_deleteIn (hk : k < c.nodes.size) : e ∈ c.deleteIn s k ↔
    k ≠ 0 ∧ c.Reach k ∧ e ∈ s.up.of k ∧ e ∉ s.laterIn.of k := by
  have hiff : (c.node k).isReachable = true ↔ c.Reach k := h.marked.reachable_iff k hk
  unfold deleteIn
  by_cases hr : k ≠ 0 ∧ (c.node k).isReachable = true
  · rw [if_pos hr, BitSet.mem_diff]
    exact ⟨fun he => ⟨hr.1, hiff.1 hr.2, he⟩, fun he => he.2.2⟩
  · rw [if_neg hr]
    exact ⟨fun he => absurd he BitSet.not_mem_empty, fun he => absurd ⟨he.1, hiff.2 he.2.1⟩ hr⟩

/-- What waits on an edge is anticipated behind it and not available in front of it. The induction
is on a path to the edge: what does not start to wait there waited on the edge before. -/
theorem ant_of_later {π : List Nat} (hπ : c.Path π k) :
    ∀ x < c.edges.size, (c.edge x).source = k → e ∈ s.later.of x →
    e ∈ s.antIn.of (c.edge x).target ∧ e ∉ s.availOut.of (c.edge x).source := by
  induction hπ with
  | entry h0 =>
    intro x hx hk he
    have hr : c.Reach (c.edge x).source := hk ▸ ⟨[], .entry h0⟩
    rcases (h.mem_later hx hr).1 he with he | ⟨he, -⟩
    · exact ⟨((h.mem_earliest hx hr).1 he).1, ((h.mem_earliest hx hr).1 he).2.1⟩
    · rw [hk] at he
      exact absurd he h.not_mem_laterIn_zero
  | @step π y hp hy ih =>
    intro x hx hk he
    have hr : c.Reach (c.edge x).source := hk ▸ ⟨_, .step hp hy⟩
    rcases (h.mem_later hx hr).1 he with he | ⟨hl, hu⟩
    · exact ⟨((h.mem_earliest hx hr).1 he).1, ((h.mem_earliest hx hr).1 he).2.1⟩
    have h0 : (c.edge x).source ≠ 0 := fun h0 => h.not_mem_laterIn_zero (h0 ▸ hl)
    have hly := ((h.mem_laterIn hr h0).1 hl).2 y hy hk.symm
    obtain ⟨hant, hav⟩ := ih y hy rfl hly
    rw [← hk, h.mem_antIn (h.wired.source_lt x hx)] at hant
    obtain ⟨hao, hkill⟩ := hant.resolve_left hu
    refine ⟨h.antIn_of_antOut hx hao, fun hout => ?_⟩
    rcases (h.mem_availOut hr).1 hout with hd | ⟨hin, -⟩
    · exact hu (h.up_of_down (h.reach_lt hr) hd hkill)
    · exact hav (((h.mem_availIn hr h0).1 hin).2 y hy hk.symm)

/-- How an expression that is due behind an edge comes there. -/
theorem due_source (hx : x < c.edges.size) (hr : c.Reach (c.edge x).source)
    (hd : Due s e (c.edge x).target) :
    e ∈ s.availOut.of (c.edge x).source ∨ e ∈ c.insertOn s x ∨
      ((c.edge x).source ≠ 0 ∧ Due s e (c.edge x).source ∧ e ∉ s.kill.of (c.edge x).source ∧
        e ∉ s.up.of (c.edge x).source) := by
  by_cases hl : e ∈ s.later.of x
  · exact Or.inr (Or.inl ((h.mem_insertOn hx).2 ⟨hr, hl, hd.2⟩))
  by_cases ha : e ∈ s.availOut.of (c.edge x).source
  · exact Or.inl ha
  refine Or.inr (Or.inr ?_)
  have hk := h.wired.source_lt x hx
  rw [h.mem_later hx hr, h.mem_earliest hx hr] at hl
  push Not at hl
  obtain ⟨h0, hao, hkill⟩ := hl.1 hd.1 ha
  have hu : e ∉ s.up.of (c.edge x).source :=
    fun hu => ha ((h.mem_availOut hr).2 (Or.inl (h.down_of_up hk hu hkill)))
  refine ⟨h0, ⟨(h.mem_antIn hk).2 (Or.inr ⟨hao, hkill⟩), fun hli => hu (hl.2 hli)⟩, hkill, hu⟩

/-- What is available or due at the end of a path, and does not occur in the nodes that the path
leaves, was inserted on one of its edges. -/
theorem exists_insertion {π : List Nat} (hπ : c.Path π k)
    (hno : ∀ x ∈ π, e ∉ s.down.of (c.edge x).source)
    (hk : e ∈ s.availIn.of k ∨ (k ≠ 0 ∧ Due s e k)) : ∃ x ∈ π, e ∈ c.insertOn s x := by
  induction hπ with
  | entry h0 =>
    rcases hk with hk | ⟨hk, -⟩
    · exact absurd hk (h.not_mem_availIn_zero h0)
    · exact absurd rfl hk
  | @step π x hp hx ih =>
    have hr : c.Reach (c.edge x).source := ⟨π, hp⟩
    have ih' := ih fun y hy => hno y (List.mem_append_left _ hy)
    have hout : e ∈ s.availOut.of (c.edge x).source → ∃ y ∈ π ++ [x], e ∈ c.insertOn s y := by
      intro ho
      have hin := ((h.mem_availOut hr).1 ho).resolve_left (hno x (by simp))
      obtain ⟨y, hy, hins⟩ := ih' (Or.inl hin.1)
      exact ⟨y, List.mem_append_left _ hy, hins⟩
    rcases hk with hk | ⟨hk, hdue⟩
    · have h0 : (c.edge x).target ≠ 0 := by
        intro h0
        rw [h0] at hk
        exact h.not_mem_availIn_zero (h0 ▸ h.wired.target_lt x hx) hk
      exact hout (((h.mem_availIn (reach_target hx hr) h0).1 hk).2 x hx rfl)
    · rcases h.due_source hx hr hdue with ho | hi | ⟨h0, hd, -, -⟩
      · exact hout ho
      · exact ⟨x, by simp, hi⟩
      · obtain ⟨y, hy, hins⟩ := ih' (Or.inr ⟨h0, hd⟩)
        exact ⟨y, List.mem_append_left _ hy, hins⟩

end Solved
end CodeMotion.Context
