import Mathlib
import CodeMotion.Proofs.Anticipation
import CodeMotion.Proofs.FinishOrder

/-! The three loops of an analysis end. No visit gives a set a new member, so a loop comes to an
empty queue after a number of visits that the sizes of the graph and of the catalog bound, and it
has then visited every node that the facts can flow to. -/

namespace CodeMotion

namespace Worklist

variable {σ : Type} {visit : Nat → σ → σ × List (Nat × Bool)} {w : Worklist} {s : σ}
  {n m least most : Nat}

/-- A loop that comes to an empty queue with the state `r` after `n` visits and stays there, however
many visits it is allowed beyond `most`, while no visit takes its state upward. -/
structure Completes (visit : Nat → σ → σ × List (Nat × Bool)) (w : Worklist) (s : σ)
    (Le : σ → σ → Prop) (least most : Nat) (r : σ) (n : Nat) : Prop where
  queue : ∀ fuel, most ≤ fuel → (settle visit fuel w s).1.queue = []
  final : ∀ fuel, most ≤ fuel → (settle visit fuel w s).2 = r ∧ (settle visit fuel w s).1.steps = n
  shrinks : ∀ fuel, Le (settle visit (fuel + 1) w s).2 (settle visit fuel w s).2
  least_le : least ≤ n
  le_most : n ≤ most

theorem completes_of_queue (h : (settle visit m w s).1.queue = []) (h0 : w.steps = 0)
    {Le : σ → σ → Prop} (hle : ∀ fuel, Le (settle visit (fuel + 1) w s).2 (settle visit fuel w s).2)
    (hleast : least ≤ (settle visit m w s).1.steps) (hmost : m ≤ most) :
    Completes visit w s Le least most (settle visit m w s).2 (settle visit m w s).1.steps := by
  have hlast : ∀ fuel, most ≤ fuel → settle visit fuel w s = settle visit m w s :=
    fun fuel hf => settle_of_le h (hmost.trans hf)
  have hsteps : (settle visit m w s).1.steps ≤ w.steps + m := steps_settle_le m w s
  refine ⟨fun fuel hf => ?_, fun fuel hf => ?_, hle, hleast, by omega⟩
  · rw [hlast fuel hf]
    exact h
  · rw [hlast fuel hf]
    exact ⟨rfl, rfl⟩

/-- A relation that every visit of a loop establishes between its states holds from turn to turn. -/
theorem settle_shrinks (Inv : Worklist → σ → Prop) {Le : σ → σ → Prop}
    (hlt : ∀ i s, i < n → ∀ u ∈ (visit i s).2, u.1 < n)
    (hinv : ∀ i w w' s, w'.Valid n → i < n → w.Popped i w' → Inv w s →
      Inv (w'.updateAll (visit i s).2) (visit i s).1)
    (hle : ∀ i w s, i < n → Inv w s → Le (visit i s).1 s) (hrefl : ∀ s, Le s s) (hv : w.Valid n)
    (hi : Inv w s) (fuel : Nat) : Le (settle visit (fuel + 1) w s).2 (settle visit fuel w s).2 := by
  obtain ⟨hv', hi'⟩ := settle_keeps hlt hinv hv hi fuel
  rw [settle_succ, turn]
  cases hp : (settle visit fuel w s).1.pop? with
  | none => exact hrefl _
  | some r =>
    obtain ⟨i, w'⟩ := r
    obtain ⟨-, hin, -⟩ := hv'.pop hp
    exact hle i _ _ hin hi'

end Worklist

namespace Family

def Within (f g : Family) : Prop := ∀ k, ∀ e ∈ f.of k, e ∈ g.of k

theorem Within.refl (f : Family) : f.Within f := fun _ _ h => h

end Family

namespace Flow

variable {p : Flow} {s : State} {w : Worklist} {i least most : Nat}

structure State.Within (s t : State) : Prop where
  entry : s.entry.Within t.entry
  exit : s.exit.Within t.exit

theorem within_visit (hp : p.Regular) (h : p.Progress w s) (hi : i < p.size) :
    (p.visit i s).1.Within s := by
  refine ⟨fun j f hf => ?_, fun j f hf => h.exit_mono hp hi hf⟩
  rw [Progress.entry_visit h hi] at hf
  split at hf
  · next heq => exact heq ▸ Progress.meet_subset hf
  · exact hf

theorem completes (hp : p.Regular) (hleast : least ≤ p.solve.1.steps)
    (hmost : p.size + 2 * p.width * p.arcs ≤ most) :
    Worklist.Completes p.visit p.seeds p.start State.Within least most p.solve.2
      p.solve.1.steps := by
  have hend :
      (Worklist.settle p.visit (p.size + 2 * p.width * p.arcs) p.seeds p.start).1.queue = [] :=
    (solve_progress hp).1
  apply Worklist.completes_of_queue hend p.steps_seeds ?_ hleast hmost
  intro fuel
  apply Worklist.settle_shrinks p.Progress (visit_lt hp) ?_ ?_ ?_ (seeds_spec p).1
    (progress_start p)
  · intro i w w' s hv hi hpop h
    exact h.visit hp hv hi hpop
  · intro i w s hi h
    exact within_visit hp h hi
  · exact fun s => ⟨.refl _, .refl _⟩

end Flow

namespace Context

variable {fn : Func} {c c₀ : Context} {s : Sets} {d : Delay} {w : Worklist} {k least most : Nat}
  {o : Options}

structure Delay.Within (d d' : Delay) : Prop where
  laterIn : d.laterIn.Within d'.laterIn
  later : d.later.Within d'.later

theorem within_delayVisit (hc : c.Wired) (hs : s.earliest.Fits c.edges.size c.catalog.size)
    (h : Waiting c s w d) (hk : k < c.nodes.size) : (c.delayVisit s k d).1.Within d := by
  refine ⟨fun j e he => ?_, fun x e he => ?_⟩
  · rw [h.laterIn_visit hc hk] at he
    split at he
    · next heq => exact heq ▸ (mem_waitAt.1 he).1
    · exact he
  · have hsize : (c.delayVisit s k d).1.later.members.size = c.edges.size := by
      rw [delayVisit_eq hc hk]
      exact (size_foldl_set _ _).trans h.later_fits.1
    have hx : x < c.edges.size := hsize ▸ Family.lt_of_mem he
    rw [h.later_visit hc hk hx] at he
    split at he
    · next hsource => exact h.waitOn_subset hc hs hk hx hsource he
    · exact he

theorem steps_delaySeed (c : Context) : c.delaySeed.steps = 0 := by
  unfold delaySeed
  split
  · rfl
  · exact Worklist.steps_push _ 0

theorem delay_completes (hc : c.Wired) (hs : s.earliest.Fits c.edges.size c.catalog.size)
    (hleast : least ≤ (c.delay s).1.steps)
    (hmost : c.nodes.size + c.catalog.size * c.edges.size ≤ most) :
    Worklist.Completes (c.delayVisit s) c.delaySeed c.delayStart Delay.Within least most
      (c.delay s).2 (c.delay s).1.steps := by
  obtain ⟨hv, hseen, -, hq⟩ := delaySeed_spec c
  have hend : (Worklist.settle (c.delayVisit s) (c.nodes.size + c.catalog.size * c.edges.size)
      c.delaySeed c.delayStart).1.queue = [] :=
    (delay_waiting hc hs).1
  apply Worklist.completes_of_queue hend c.steps_delaySeed ?_ hleast hmost
  intro fuel
  apply Worklist.settle_shrinks (Waiting c s) (delayVisit_lt hc) ?_ ?_ ?_ hv
    (waiting_start c s _ hseen hq)
  · intro k w w' d hv' hk hpop h
    exact h.visit hc hs hv' hk hpop
  · intro k w d hk h
    exact within_delayVisit hc hs h hk
  · exact fun d => ⟨.refl _, .refl _⟩

/-- How often a loop may visit nodes at most: twice each of them, and twice per edge and
expression. -/
def visitBound (fn : Func) (c : Context) : Nat :=
  2 * fn.layout.length + 2 * c.catalog.size * c.edges.size

/-- If the lists of some edges are those of the edges with a given end, there are as many entries as
edges. -/
theorem length_flatMap_ends {n m : Nat} {ends : Nat → Nat} {l : Nat → List Nat}
    (hnodup : ∀ k < n, (l k).Nodup) (hmem : ∀ k < n, ∀ x, x ∈ l k ↔ x < m ∧ ends x = k)
    (hlt : ∀ x < m, ends x < n) : ((List.range n).flatMap l).length = m := by
  have hperm : ((List.range n).flatMap l).Perm (List.range m) := by
    apply (List.perm_ext_iff_of_nodup ?_ List.nodup_range).2
    · intro x
      simp only [List.mem_flatMap, List.mem_range]
      refine ⟨fun ⟨k, hk, hx⟩ => ((hmem k hk x).1 hx).1, fun hx => ⟨ends x, hlt x hx, ?_⟩⟩
      exact (hmem _ (hlt x hx) x).2 ⟨hx, rfl⟩
    · apply List.nodup_flatMap.2
      refine ⟨fun k hk => hnodup k (List.mem_range.1 hk), ?_⟩
      apply List.nodup_range.pairwise_of_forall_ne
      intro j hj k hk hne x hxj hxk
      have h1 := (hmem j (List.mem_range.1 hj) x).1 hxj
      have h2 := (hmem k (List.mem_range.1 hk) x).1 hxk
      exact hne (h1.2.symm.trans h2.2)
  rw [hperm.length_eq, List.length_range]

/-- A list that names a node of each of some distinct blocks is not shorter than that of the
blocks. -/
theorem length_le_visited (c : Context) {l : List BlockId} {ks : List Nat} (hl : l.Nodup)
    (hks : ∀ b ∈ l, ∃ k ∈ ks, (c.node k).block = b) : l.length ≤ ks.length := by
  have hsub : l ⊆ ks.map fun k => (c.node k).block := fun b hb => List.mem_map.2 (hks b hb)
  have := (hl.subperm hsub).length_le
  rwa [List.length_map] at this

namespace Charts

variable (h : Charts fn c)
include h

theorem nodup_pred (hk : k < c.nodes.size) : (c.node k).pred.Nodup := by
  obtain ⟨c₀, hd, hg⟩ := h.drawn
  rw [hg.pred, hd.node_eq (hd.block_node (hg.nodes_size ▸ hk))]
  exact (List.filter_sublist.map _).nodup (List.nodup_zipIdx_map_snd _)

theorem arcs_availability (s : Sets) : (c.availability s).arcs = c.edges.size := by
  have := length_flatMap_ends h.wired.nodup_succ h.wired.mem_succ h.wired.source_lt
  simpa [Flow.arcs, availability, List.length_flatMap] using this

theorem arcs_anticipability (s : Sets) : (c.anticipability s).arcs = c.edges.size := by
  have := length_flatMap_ends (fun _ => h.nodup_pred) h.wired.mem_pred h.wired.target_lt
  simpa [Flow.arcs, anticipability, List.length_flatMap] using this

theorem exists_reach_postOrder {b : BlockId} (hb : b ∈ fn.postOrder) :
    ∃ k π, c.Path π k ∧ (c.node k).block = b := by
  rw [Func.mem_postOrder, ← Func.mem_preOrder] at hb
  obtain ⟨k, ⟨π, hπ⟩, -, hk⟩ := h.exists_reach (Func.exists_walk hb)
  exact ⟨k, π, hπ, hk⟩

theorem postOrder_le_availability (hf : s.down.Fits c.nodes.size c.catalog.size) :
    fn.postOrder.length ≤ (c.availability s).solve.1.steps := by
  rw [Flow.steps_solve]
  apply length_le_visited c fn.nodup_postOrder
  intro b hb
  obtain ⟨k, π, hπ, hk⟩ := h.exists_reach_postOrder hb
  exact ⟨k, (Flow.mem_visited (regular_availability h.wired hf)).2
    (reached_availability h.wired hπ), hk⟩

theorem layout_le_anticipability (hf : s.up.Fits c.nodes.size c.catalog.size) :
    fn.layout.length ≤ (c.anticipability s).solve.1.steps := by
  rw [Flow.steps_solve]
  apply length_le_visited c h.enclosed.nodup
  intro b hb
  obtain ⟨k, hk, rfl⟩ := h.exists_node hb
  exact ⟨k, (Flow.mem_visited (regular_anticipability h.wired hf)).2 (h.reached_block hk), rfl⟩

theorem postOrder_le_delay (hf : s.earliest.Fits c.edges.size c.catalog.size) :
    fn.postOrder.length ≤ (c.delay s).1.steps := by
  obtain ⟨hv, hseen, -, -⟩ := delaySeed_spec c
  have hsteps :=
    Worklist.steps_settle (c.delayVisit s) (c.nodes.size + c.catalog.size * c.edges.size)
      c.delaySeed c.delayStart
  rw [steps_delaySeed, Nat.zero_add] at hsteps
  refine (length_le_visited c fn.nodup_postOrder fun b hb => ?_).trans_eq hsteps.symm
  obtain ⟨k, π, hπ, hk⟩ := h.exists_reach_postOrder hb
  have hmark :=
    (Worklist.isSeen_settle (delayVisit_lt h.wired) _ hv c.delayStart k).1
      (isSeen_delay h.wired hf hπ)
  exact ⟨k, hmark.resolve_left (hseen k), hk⟩

theorem availability_completes (hf : s.down.Fits c.nodes.size c.catalog.size) :
    Worklist.Completes (c.availability s).visit (c.availability s).seeds (c.availability s).start
      Flow.State.Within
      fn.postOrder.length (visitBound fn c) (c.availability s).solve.2
        (c.availability s).solve.1.steps := by
  apply Flow.completes (regular_availability h.wired hf) (h.postOrder_le_availability hf)
  have hsize : (c.availability s).size = fn.layout.length := h.nodes_size
  rw [hsize, h.arcs_availability s, visitBound, show (c.availability s).width = c.catalog.size
    from rfl]
  omega

theorem anticipability_completes (hf : s.up.Fits c.nodes.size c.catalog.size) :
    Worklist.Completes (c.anticipability s).visit (c.anticipability s).seeds
      (c.anticipability s).start Flow.State.Within
      fn.layout.length (visitBound fn c) (c.anticipability s).solve.2
        (c.anticipability s).solve.1.steps := by
  apply Flow.completes (regular_anticipability h.wired hf) (h.layout_le_anticipability hf)
  have hsize : (c.anticipability s).size = fn.layout.length := h.nodes_size
  rw [hsize, h.arcs_anticipability s, visitBound, show (c.anticipability s).width = c.catalog.size
    from rfl]
  omega

theorem delay_completes (hf : s.earliest.Fits c.edges.size c.catalog.size) :
    Worklist.Completes (c.delayVisit s) c.delaySeed c.delayStart Delay.Within fn.postOrder.length
      (visitBound fn c)
      (c.delay s).2 (c.delay s).1.steps := by
  apply Context.delay_completes h.wired hf (h.postOrder_le_delay hf)
  rw [h.nodes_size, visitBound, Nat.mul_assoc]
  omega

end Charts

/-- On every context for a function with distinct blocks and attached successors, whatever its
catalog and its sets, the phases that solve equations run their loops to an empty queue. No visit
gives a set a new member, and a loop visits at least the reachable blocks, that of the anticipated
expressions all blocks. -/
theorem solvers_terminate (he : fn.Enclosed) (h₀ : ofFunc fn o = .ok c₀) (hg : c₀.SameGraph c)
    (hs : c.sets = some s) (hf : s.Fits c.nodes.size c.edges.size c.catalog.size) :
    (∃ d t, solveAvailability c = .ok ⟨⟩ d ∧ d.sets = some t ∧
      Worklist.Completes (c.availability s).visit (c.availability s).seeds (c.availability s).start
        Flow.State.Within
        fn.postOrder.length (visitBound fn c) ⟨t.availIn, t.availOut⟩ d.rounds.avail) ∧
    (∃ d t, solveAnticipability c = .ok ⟨⟩ d ∧ d.sets = some t ∧
      Worklist.Completes (c.anticipability s).visit (c.anticipability s).seeds
        (c.anticipability s).start Flow.State.Within
        fn.layout.length (visitBound fn c) ⟨t.antOut, t.antIn⟩ d.rounds.ant) ∧
    (∃ d t, solvePlacement c = .ok ⟨⟩ d ∧ d.sets = some t ∧
      Worklist.Completes (c.delayVisit t) c.delaySeed c.delayStart Delay.Within
        fn.postOrder.length (visitBound fn c) ⟨t.laterIn, t.later⟩ d.rounds.later) := by
  have h : Charts fn c := ⟨he, c₀, ofFunc_drawn h₀, hg⟩
  refine ⟨⟨_, _, solveAvailability_ok hs hf, rfl, h.availability_completes hf.down⟩,
    ⟨_, _, solveAnticipability_ok hs hf, rfl, h.anticipability_completes hf.up⟩,
    ⟨_, _, solvePlacement_ok hs hf, rfl, ?_⟩⟩
  have hearliest : (Family.ofFn c.edges.size (c.earliestOn s)).Fits c.edges.size c.catalog.size :=
    Family.fits_ofFn fun x hx => size_earliestOn h.wired hf hx
  exact h.delay_completes (s := { s with earliest := .ofFn c.edges.size (c.earliestOn s) })
    hearliest

theorem solvers_terminate_forever :
    forever.Enclosed ∧ ∃ c₀ c₁ c₂ s d₁ d₂ d₃, ofFunc forever {} = .ok c₀ ∧
    Phase.numbering.apply forever c₀ = .ok ⟨⟩ c₁ ∧ Phase.scanning.apply forever c₁ = .ok ⟨⟩ c₂ ∧
      c₀.SameGraph c₂ ∧ c₂.sets = some s ∧
    s.Fits c₂.nodes.size c₂.edges.size c₂.catalog.size ∧ solveAvailability c₂ = .ok ⟨⟩ d₁ ∧
      4 ≤ d₁.rounds.avail ∧
    solveAnticipability c₂ = .ok ⟨⟩ d₂ ∧ 5 ≤ d₂.rounds.ant ∧ d₂.rounds.ant ≤ visitBound forever c₂ ∧
    solvePlacement c₂ = .ok ⟨⟩ d₃ ∧ 4 ≤ d₃.rounds.later := by
  have he : forever.Enclosed := by decide +kernel
  obtain ⟨c₀, c₁, c₂, h₀, h₁, ho, h₂⟩ := exists_of_scanned? forever {} (by decide +kernel)
  obtain ⟨-, s, hst, -⟩ := stage_of_scanning h₀ h₁ ho h₂
  obtain ⟨⟨d₁, _, hd₁, -, hr₁⟩, ⟨d₂, _, hd₂, -, hr₂⟩, ⟨d₃, _, hd₃, -, hr₃⟩⟩ :=
    solvers_terminate he h₀ hst.graph hst.sets hst.numbered.fits
  have hlive : forever.postOrder.length = 4 := by decide +kernel
  exact ⟨he, c₀, c₁, c₂, s, d₁, d₂, d₃, h₀, h₁, h₂, hst.graph, hst.sets, hst.numbered.fits, hd₁,
    hlive ▸ hr₁.least_le, hd₂, hr₂.least_le, hr₂.le_most, hd₃, hlive ▸ hr₃.least_le⟩

end Context
end CodeMotion
