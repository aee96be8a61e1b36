import Mathlib
import CodeMotion.Proofs.Anticipation
import CodeMotion.Proofs.Correspondence

/-! What waits at the start of a block is the meet over all walks to it: on each of them the
expression has become necessary on an edge, and nothing has used it since. -/

namespace CodeMotion

def Func.setOn (fn : Func) (c : Context) (f : Family) (a b : BlockId) : BitSet :=
  match c.edgeOf fn a b with
  | .ok (some x) => f.of x
  | _ => default

namespace Context

/-- The expression is necessary on an edge of a walk to a block, and no block behind that edge
exposes it upward. -/
def Waits (fn : Func) (c : Context) (t : Sets) (e : Nat) (l : List BlockId) (b : BlockId) : Prop :=
  ∃ l₁ a l₂, l = l₁ ++ a :: l₂ ∧ e ∈ fn.setOn c t.earliest a (l₂.headD b) ∧ ∀ u ∈ l₂,
    e ∉ fn.setAt t.up u

structure Postponed (fn : Func) (c : Context) (t : Sets) : Prop where
  nodeOf : ∀ b ∈ fn.layout, c.nodeOf fn b = .ok (fn.layout.idxOf b)
  edgeOf : ∀ a ∈ fn.layout, ∀ b ∈ fn.succs a, ∃ x < c.edges.size, c.edgeOf fn a b = .ok (some x)
  mem_laterIn : ∀ b, (∃ l, fn.Walk l b) → ∀ e, e ∈ fn.setAt t.laterIn b ↔ ∀ l, fn.Walk l b →
    Waits fn c t e l b
  laterIn_entry : ∀ b ∈ fn.entry?, fn.setAt t.laterIn b = .empty c.catalog.size
  mem_earliest : ∀ a, (∃ l, fn.Walk l a) → ∀ b ∈ fn.succs a, ∀ e, e ∈ fn.setOn c t.earliest a b ↔
    e ∈ fn.setAt t.antIn b ∧ e ∉ fn.setAt t.availOut a ∧
      (fn.entry? ≠ some a → e ∉ fn.setAt t.antOut a ∨ e ∈ fn.setAt t.kill a)
  later : ∀ a, (∃ l, fn.Walk l a) → ∀ b ∈ fn.succs a,
    fn.setOn c t.later a b = fn.setOn c t.earliest a b ∪ (fn.setAt t.laterIn a \ fn.setAt t.up a)
  insert : ∀ a, (∃ l, fn.Walk l a) → ∀ b ∈ fn.succs a,
    fn.setOn c t.insert a b = fn.setOn c t.later a b \ fn.setAt t.laterIn b
  unreached : ∀ a ∈ fn.layout, (¬ ∃ l, fn.Walk l a) → ∀ b ∈ fn.succs a,
    fn.setOn c t.earliest a b = .empty c.catalog.size ∧ fn.setOn c t.insert a b =
      .empty c.catalog.size ∧
      fn.setOn c t.later a b = .full c.catalog.size
  delete : ∀ b, (∃ l, fn.Walk l b) → fn.entry? ≠ some b →
    fn.setAt t.delete b = fn.setAt t.up b \ fn.setAt t.laterIn b
  delete_none : ∀ b ∈ fn.layout, fn.entry? = some b ∨ (¬ ∃ l, fn.Walk l b) →
    fn.setAt t.delete b = .empty c.catalog.size

variable {fn : Func} {o : Options} {c c₀ c₁ c₂ c₃ c₄ : Context} {t : Sets} {e k x : Nat}
  {a b : BlockId} {l : List BlockId}
  {π : List Nat}

theorem not_waits_nil : ¬ Waits fn c t e [] b := by
  rintro ⟨l₁, a, l₂, hl, -⟩
  simp at hl

/-- What waits behind an edge has become necessary on it, or has waited in front of it without being
used there. -/
theorem waits_snoc : Waits fn c t e (l ++ [a]) b ↔
    e ∈ fn.setOn c t.earliest a b ∨ Waits fn c t e l a ∧ e ∉ fn.setAt t.up a := by
  have hhead : ∀ m : List BlockId, (m ++ [a]).headD b = m.headD a := by
    intro m
    cases m <;> rfl
  refine exists_split_snoc.trans (or_congr (by simp) ?_)
  simp only [Waits, hhead, List.forall_mem_append, List.forall_mem_singleton, ← and_assoc,
    exists_and_right]

theorem lapsed_snoc {up earliest : Family} (hx : x < c.edges.size)
    (hπ : c.Path π (c.edge x).source) :
    c.Lapsed up earliest e (π ++ [x]) (c.edge x).target ↔
      e ∉ earliest.of x ∧ (e ∈ up.of (c.edge x).source ∨
        c.Lapsed up earliest e π (c.edge x).source) := by
  constructor
  · intro hl
    generalize hπ' : π ++ [x] = π', hk : (c.edge x).target = k at hl
    cases hl with
    | entry _ => simp at hπ'
    | used _ _ hu he =>
      obtain ⟨-, hxy⟩ := List.append_inj' hπ' rfl
      rw [List.singleton_inj] at hxy
      subst hxy
      exact ⟨he, Or.inl hu⟩
    | passed hl _ he =>
      obtain ⟨rfl, hxy⟩ := List.append_inj' hπ' rfl
      rw [List.singleton_inj] at hxy
      subst hxy
      exact ⟨he, Or.inr hl⟩
  · rintro ⟨he, hu | hl⟩
    · exact .used hπ hx hu he
    · exact .passed hl hx he

theorem lt_of_mem_setOn {f : Family} (hf : f.Fits c.edges.size c.catalog.size)
    (he : e ∈ fn.setOn c f a b) : e < c.catalog.size := by
  unfold Func.setOn at he
  split at he
  · next x _ =>
    have hx := Family.lt_of_mem he
    rw [hf.1] at hx
    exact hf.2 x hx ▸ BitSet.lt_size he
  · exact absurd he BitSet.not_mem_empty

namespace Charts

variable (h : Charts fn c)
include h

theorem setOn_edge (f : Family) (hx : x < c.edges.size) :
    fn.setOn c f (c.node (c.edge x).source).block (c.node (c.edge x).target).block = f.of x := by
  rw [Func.setOn, h.edgeOf_edge hx]

/-- An expression has lapsed on a path if it does not wait at the end of its walk. -/
theorem lapsed_iff (hπ : c.Path π k) : c.Lapsed t.up t.earliest e π k ↔
    ¬ Waits fn c t e (π.map fun x => (c.node (c.edge x).source).block) (c.node k).block := by
  induction hπ with
  | entry h0 => exact ⟨fun _ => not_waits_nil, fun _ => .entry h0⟩
  | @step π x hπ hx ih =>
    rw [lapsed_snoc hx hπ, ih, List.map_append, List.map_singleton, waits_snoc, h.setOn_edge _ hx,
      h.setAt_block _ (h.wired.source_lt x hx)]
    tauto

end Charts

namespace Solved

variable (h : Solved fn c₀ c t)
include h

theorem laterIn_entry_eq (h0 : 0 < c.nodes.size) : t.laterIn.of 0 = .empty c.catalog.size :=
  BitSet.eq_empty (h.numbered.fits.laterIn.2 0 h0) fun _ => h.not_mem_laterIn_zero

theorem later_eq (hx : x < c.edges.size) (hr : c.Reach (c.edge x).source) :
    t.later.of x = t.earliest.of x ∪ (t.laterIn.of (c.edge x).source \ t.up.of
      (c.edge x).source) := by
  have hfit := h.numbered.fits
  refine BitSet.ext_mem ?_ fun e => ?_
  · rw [BitSet.size_union, BitSet.size_diff, hfit.later.2 x hx, hfit.earliest.2 x hx,
      hfit.laterIn.2 _ (h.wired.source_lt x hx), max_self]
  · rw [BitSet.mem_union, BitSet.mem_diff]
    exact h.mem_later hx hr

theorem earliest_eq_empty (hx : x < c.edges.size) (hr : ¬ c.Reach (c.edge x).source) :
    t.earliest.of x = .empty c.catalog.size :=
  BitSet.eq_empty (h.numbered.fits.earliest.2 x hx) fun _ => h.not_mem_earliest hx hr

theorem later_eq_full (hx : x < c.edges.size) (hr : ¬ c.Reach (c.edge x).source) :
    t.later.of x = .full c.catalog.size :=
  BitSet.eq_full (h.numbered.fits.later.2 x hx) fun e he => h.delayed.later_full x hx hr e he

theorem insertOn_eq_diff (hr : c.Reach (c.edge x).source) :
    c.insertOn t x = t.later.of x \ t.laterIn.of (c.edge x).target := by
  rw [insertOn, if_pos (h.isReachable hr)]

theorem insertOn_eq_empty (hx : x < c.edges.size) (hr : ¬ c.Reach (c.edge x).source) :
    c.insertOn t x = .empty c.catalog.size := by
  rw [insertOn, if_neg fun hmark =>
    hr ((h.marked.reachable_iff _ (h.wired.source_lt x hx)).1 hmark)]

theorem deleteIn_eq_diff (hr : c.Reach k) (h0 : k ≠ 0) :
    c.deleteIn t k = t.up.of k \ t.laterIn.of k := by
  rw [deleteIn, if_pos ⟨h0, h.isReachable hr⟩]

theorem deleteIn_eq_empty (hk : k < c.nodes.size) (hno : k = 0 ∨ ¬ c.Reach k) :
    c.deleteIn t k = .empty c.catalog.size := by
  rw [deleteIn, if_neg]
  rintro ⟨h0, hmark⟩
  exact hno.elim h0 fun hr => hr ((h.marked.reachable_iff k hk).1 hmark)

variable (hm : Charts fn c)
include hm

theorem mem_laterIn_iff_walks (hr : c.Reach k) :
    e ∈ t.laterIn.of k ↔ ∀ l, fn.Walk l (c.node k).block → Waits fn c t e l (c.node k).block := by
  have hk := h.reach_lt hr
  rw [h.mem_laterIn_iff hk]
  constructor
  · rintro ⟨-, hnone⟩ l hl
    obtain ⟨π, j, hπ, hj, rfl⟩ := hm.exists_path hl
    rw [hm.block_inj (hπ.lt hm.wired) hk hj] at hπ
    by_contra hno
    exact hnone ⟨π, (hm.lapsed_iff hπ).2 hno⟩
  · intro hall
    obtain ⟨π, hπ⟩ := hr
    obtain ⟨_, _, _, -, hearl, -⟩ := hall _ (hm.walk hπ)
    refine ⟨lt_of_mem_setOn h.numbered.fits.earliest hearl, fun ⟨π', hl⟩ => ?_⟩
    exact (hm.lapsed_iff hl.path).1 hl (hall _ (hm.walk hl.path))

/-- Each equation of a node or an edge is the one of its blocks. -/
theorem postponed (hins : ∀ x < c.edges.size, t.insert.of x = c.insertOn t x)
    (hdel : ∀ k < c.nodes.size, t.delete.of k = c.deleteIn t k) : Postponed fn c t where
  nodeOf b hb := by
    obtain ⟨k, hk, rfl⟩ := hm.exists_node hb
    rw [hm.idxOf_block hk]
    exact hm.nodeOf_block hk
  edgeOf a ha b hb := by
    obtain ⟨x, hx, rfl, rfl⟩ := hm.exists_succ_edge ha hb
    exact ⟨x, hx, hm.edgeOf_edge hx⟩
  mem_laterIn b hr e := by
    obtain ⟨k, hk, hlt, rfl⟩ := hm.exists_reach hr
    rw [hm.setAt_block _ hlt]
    exact h.mem_laterIn_iff_walks hm hk
  laterIn_entry b hb := by
    obtain ⟨h0, rfl⟩ := hm.entry_node hb
    rw [hm.setAt_block _ h0]
    exact h.laterIn_entry_eq h0
  mem_earliest a hr b hb e := by
    obtain ⟨x, hx, hreach, rfl, rfl⟩ := hm.exists_reached_edge hr hb
    have hi := hm.wired.source_lt x hx
    rw [hm.setOn_edge _ hx, hm.setAt_block _ (hm.wired.target_lt x hx), hm.setAt_block _ hi,
      hm.setAt_block _ hi, hm.setAt_block _ hi, ne_eq, hm.entry_iff hi]
    exact h.mem_earliest hx hreach
  later a hr b hb := by
    obtain ⟨x, hx, hreach, rfl, rfl⟩ := hm.exists_reached_edge hr hb
    have hi := hm.wired.source_lt x hx
    rw [hm.setOn_edge _ hx, hm.setOn_edge _ hx, hm.setAt_block _ hi, hm.setAt_block _ hi]
    exact h.later_eq hx hreach
  insert a hr b hb := by
    obtain ⟨x, hx, hreach, rfl, rfl⟩ := hm.exists_reached_edge hr hb
    rw [hm.setOn_edge _ hx, hm.setOn_edge _ hx, hm.setAt_block _ (hm.wired.target_lt x hx),
      hins x hx]
    exact h.insertOn_eq_diff hreach
  unreached a ha hr b hb := by
    obtain ⟨x, hx, rfl, rfl⟩ := hm.exists_succ_edge ha hb
    rw [hm.exists_walk_iff (hm.wired.source_lt x hx)] at hr
    rw [hm.setOn_edge _ hx, hm.setOn_edge _ hx, hm.setOn_edge _ hx, hins x hx]
    exact ⟨h.earliest_eq_empty hx hr, h.insertOn_eq_empty hx hr, h.later_eq_full hx hr⟩
  delete b hr hb := by
    obtain ⟨k, hk, hlt, rfl⟩ := hm.exists_reach hr
    rw [hm.setAt_block _ hlt, hm.setAt_block _ hlt, hm.setAt_block _ hlt, hdel k hlt]
    exact h.deleteIn_eq_diff hk fun h0 => hb ((hm.entry_iff hlt).2 h0)
  delete_none b hb hno := by
    obtain ⟨k, hk, rfl⟩ := hm.exists_node hb
    rw [hm.entry_iff hk, hm.exists_walk_iff hk] at hno
    rw [hm.setAt_block _ hk, hdel k hk]
    exact h.deleteIn_eq_empty hk hno

end Solved

/-- The two phases of path facts come to an end and leave the graph and the catalog as they are. -/
theorem facts_of_scanning (h₀ : ofFunc fn o = .ok c₀) (h₁ : Phase.numbering.apply fn c₀ = .ok ⟨⟩ c₁)
    (ho : c₁.overflow = false) (h₂ : Phase.scanning.apply fn c₁ = .ok ⟨⟩ c₂) :
    Drawn fn c₀ ∧ ∃ s c₃ c₄, Stage fn c₀ c₂ s ∧ (∀ k < c₂.nodes.size, Exposed fn c₂ s k) ∧
      Phase.availability.apply fn c₂ = .ok ⟨⟩ c₃ ∧ Phase.anticipability.apply fn c₃ = .ok ⟨⟩ c₄ ∧
        c₂.SameWork c₄ ∧
      c₄.sets = some (c₂.withAnt (c₂.withAvail s)) := by
  obtain ⟨hdrawn, s, hst, hexposed⟩ := stage_of_scanning h₀ h₁ ho h₂
  have hfit := hst.numbered.fits
  have havail : Turns fn c₂ .availability s (c₂.withAvail s) := turns_availability hfit
  have hant : Turns fn c₂ .anticipability (c₂.withAvail s) (c₂.withAnt (c₂.withAvail s)) :=
    turns_anticipability (fits_withAvail (hst.graph.wired hdrawn.wired) hfit)
  obtain ⟨c₃, h₃, hw₃, hs₃⟩ := havail c₂ ⟨rfl, rfl, rfl, rfl, rfl⟩ hst.sets
  obtain ⟨c₄, h₄, hw₄, hs₄⟩ := hant c₃ hw₃ hs₃
  exact ⟨hdrawn, s, c₃, c₄, hst, hexposed, h₃, h₄, hw₄, hs₄⟩

/-- The placement of a function with distinct blocks and attached successors, once its available and
anticipated expressions are known: what waits in front of a reachable block is what waits on every
walk to it, and insertions and deletions are where the waiting ends. -/
theorem placement_meet_over_paths (he : fn.Enclosed) (h₀ : ofFunc fn o = .ok c₀)
    (h₁ : Phase.numbering.apply fn c₀ = .ok ⟨⟩ c₁) (ho : c₁.overflow = false)
    (h₂ : Phase.scanning.apply fn c₁ = .ok ⟨⟩ c₂) (h₃ : Phase.availability.apply fn c₂ = .ok ⟨⟩ c₃)
    (h₄ : Phase.anticipability.apply fn c₃ = .ok ⟨⟩ c₄) :
    ∃ s d t, c₄.sets = some s ∧ Phase.placement.apply fn c₄ = .ok ⟨⟩ d ∧ d.sets = some t ∧
      t = { s with
        earliest := t.earliest, later := t.later, laterIn := t.laterIn
        insert := t.insert, delete := t.delete } ∧
      Postponed fn d t := by
  obtain ⟨hdrawn, s, d₃, d₄, hst, hexposed, h₃', h₄', hw₄, hs₄⟩ := facts_of_scanning h₀ h₁ ho h₂
  rw [h₃'] at h₃
  cases h₃
  rw [h₄'] at h₄
  cases h₄
  have hturn : Turns fn c₂ .placement (c₂.withAnt (c₂.withAvail s)) (c₂.solution s) :=
    turns_placement (fits_withFacts (hst.graph.wired hdrawn.wired) hst.numbered.fits)
  obtain ⟨d, hd, hw, hs⟩ := hturn c₄ hw₄ hs₄
  obtain ⟨hsolved, hins, hdel⟩ := solved_solution hdrawn hst hexposed
  have hsolved' : Solved fn c₀ d (c₂.solution s) := hsolved.congr hw rfl hsolved.numbered.fits
  refine ⟨_, d, c₂.solution s, hs₄, hd, hs, rfl,
    hsolved'.postponed (hsolved'.charts he) (fun x hx => ?_) fun k hk => ?_⟩
  · rw [hw.insertOn (s := c₂.solution s) rfl]
    exact hins x (hw.edges ▸ hx)
  · rw [hw.deleteIn (s := c₂.solution s) rfl]
    exact hdel k (hw.nodes ▸ hk)

theorem placement_meet_over_paths_rejoin :
    rejoin.Enclosed ∧ ∃ c₀ c₁ c₂ c₃ c₄ d t, ofFunc rejoin {} = .ok c₀ ∧
    Phase.numbering.apply rejoin c₀ = .ok ⟨⟩ c₁ ∧ c₁.overflow = false ∧
      Phase.scanning.apply rejoin c₁ = .ok ⟨⟩ c₂ ∧
    Phase.availability.apply rejoin c₂ = .ok ⟨⟩ c₃ ∧
      Phase.anticipability.apply rejoin c₃ = .ok ⟨⟩ c₄ ∧
    Phase.placement.apply rejoin c₄ = .ok ⟨⟩ d ∧ d.sets = some t ∧ rejoin.Walk [1, 2] 4 ∧
    (1 ∈ rejoin.setAt t.laterIn 4 ↔ ∀ l, rejoin.Walk l 4 → Waits rejoin d t 1 l 4) ∧
    rejoin.setOn d t.insert 2 4 = rejoin.setOn d t.later 2 4 \ rejoin.setAt t.laterIn 4 ∧
    rejoin.setOn d t.later 5 4 = .full d.catalog.size ∧ rejoin.setAt t.delete 5 =
      .empty d.catalog.size := by
  have he : rejoin.Enclosed := by decide +kernel
  obtain ⟨c₀, c₁, c₂, h₀, h₁, ho, h₂⟩ := exists_of_scanned? rejoin {} (by decide +kernel)
  obtain ⟨-, -, c₃, c₄, -, -, h₃, h₄, -, -⟩ := facts_of_scanning h₀ h₁ ho h₂
  obtain ⟨s, d, t, -, hd, ht, -, hall⟩ := placement_meet_over_paths he h₀ h₁ ho h₂ h₃ h₄
  have hhalf : rejoin.Walk [1] 2 := .step (.entry (e := 1) (by decide)) (by decide)
  have hwalk : rejoin.Walk [1, 2] 4 := .step hhalf (by decide)
  have hno : ¬ ∃ l, rejoin.Walk l 5 := by
    rintro ⟨l, hl⟩
    exact absurd hl.reachable (by decide +kernel)
  exact ⟨he, c₀, c₁, c₂, c₃, c₄, d, t, h₀, h₁, ho, h₂, h₃, h₄, hd, ht, hwalk,
    hall.mem_laterIn 4 ⟨_, hwalk⟩ 1,
    hall.insert 2 ⟨_, hhalf⟩ 4 (by decide), (hall.unreached 5 (by decide) hno 4 (by decide)).2.2,
    hall.delete_none 5 (by decide) (Or.inr hno)⟩

end Context
end CodeMotion
