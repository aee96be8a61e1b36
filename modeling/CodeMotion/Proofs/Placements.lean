import Mathlib
import CodeMotion.Proofs.Deletion

/-! Placements of one expression, and what they cost on a path: the edges that get a copy, less the
visits to nodes that lose an occurrence. A placement is admissible if every path to such a node
meets a copy or an occurrence that nothing disturbs up to the node. The computed placement is
admissible, and where all occurrences of a path are counted it pays once for each edge at which the
expression becomes necessary. -/

namespace CodeMotion.Context

open Relation

variable {fn : Func} {c c₀ : Context} {s : Sets} {e k x : Nat} {π : List Nat} {I D : Finset Nat}

def visits (c : Context) (π : List Nat) (k : Nat) : List Nat :=
  π.map (fun x => (c.edge x).source) ++ [k]

/-- The edges of a path that are in a set, less its visits to nodes of a set. -/
def balance (c : Context) (I D : Finset Nat) (π : List Nat) (k : Nat) : Int :=
  π.countP (· ∈ I) - (c.visits π k).countP (· ∈ D)

/-- Copies of an expression on the edges `I` and deletions of it in the nodes `D` that keep the
expression at hand. -/
structure Admissible (c : Context) (s : Sets) (e : Nat) (I D : Finset Nat) : Prop where
  anticipated : ∀ x ∈ I, x < c.edges.size ∧ e ∈ s.antIn.of (c.edge x).target
  exposed : ∀ k ∈ D, k < c.nodes.size ∧ e ∈ s.up.of k
  covered : ∀ k ∈ D, ∀ π, c.Path π k → ∃ π₁ x π₂, π = π₁ ++ x :: π₂ ∧
    (x ∈ I ∨ e ∈ s.down.of (c.edge x).source) ∧ ∀ y ∈ π₂, e ∉ s.kill.of (c.edge y).source

def insertions (c : Context) (s : Sets) (e : Nat) : Finset Nat :=
  (Finset.range c.edges.size).filter (e ∈ s.insert.of ·)

def deletions (c : Context) (s : Sets) (e : Nat) : Finset Nat :=
  (Finset.range c.nodes.size).filter (e ∈ s.delete.of ·)

/-- The edges that get a copy of an expression before motions of values are cancelled. -/
def onEdges (c : Context) (s : Sets) (e : Nat) : Finset Nat :=
  (Finset.range c.edges.size).filter (e ∈ c.insertOn s ·)

def inNodes (c : Context) (s : Sets) (e : Nat) : Finset Nat :=
  (Finset.range c.nodes.size).filter (e ∈ c.deleteIn s ·)

theorem mem_onEdges : x ∈ c.onEdges s e ↔ x < c.edges.size ∧ e ∈ c.insertOn s x := by simp [onEdges]

theorem mem_inNodes : k ∈ c.inNodes s e ↔ k < c.nodes.size ∧ e ∈ c.deleteIn s k := by simp [inNodes]

/-- With more than one insertion allowed all motions are carried out. -/
theorem Decided.insertions_eq (h : c.Decided s) (ho : c.options.singleInsertion = false) (e : Nat) :
    c.insertions s e = c.onEdges s e ∧ c.deletions s e = c.inNodes s e := by
  have hc : c.Carried s e := fun hs => by
    rw [ho] at hs
    cases hs
  refine ⟨Finset.filter_congr fun x hx => ?_, Finset.filter_congr fun k hk => ?_⟩
  · rw [h.insert_iff x (Finset.mem_range.1 hx), and_iff_left hc]
  · rw [h.delete_iff k (Finset.mem_range.1 hk), and_iff_left hc]

def Joins (c : Context) (i j : Nat) : Prop :=
  ∃ x < c.edges.size, (c.edge x).source = i ∧ (c.edge x).target = j

def Final (c : Context) (k : Nat) : Prop := ∀ x < c.edges.size, (c.edge x).source ≠ k

/-- A node without successors, or from which no such node can be reached. -/
def Pinned (c : Context) (k : Nat) : Prop := c.Final k ∨ ∀ j, ReflTransGen c.Joins k j → ¬ c.Final j

/-- At the end of a path an expression is at hand, from a copy or from an occurrence. -/
inductive Covered (c : Context) (s : Sets) (e : Nat) (I : Finset Nat) : List Nat → Prop
  | copy {π : List Nat} {x : Nat} (h : x ∈ I) : Covered c s e I (π ++ [x])
  | occurrence {π : List Nat} {x : Nat} (h : e ∈ s.down.of (c.edge x).source) :
    Covered c s e I (π ++ [x])
  | pass {π : List Nat} {x : Nat} (h : Covered c s e I π) (hk : e ∉ s.kill.of (c.edge x).source) :
    Covered c s e I (π ++ [x])

theorem not_covered_nil : ¬ c.Covered s e I [] := by
  intro h
  generalize hm : ([] : List Nat) = m at h
  cases h <;> simp at hm

theorem covered_snoc : c.Covered s e I (π ++ [x]) ↔
    x ∈ I ∨ e ∈ s.down.of (c.edge x).source ∨
      (c.Covered s e I π ∧ e ∉ s.kill.of (c.edge x).source) := by
  constructor
  · intro h
    generalize hm : π ++ [x] = m at h
    cases h with
    | copy h =>
      obtain ⟨-, hx⟩ := List.append_inj' hm rfl
      exact Or.inl (List.singleton_inj.1 hx ▸ h)
    | occurrence h =>
      obtain ⟨-, hx⟩ := List.append_inj' hm rfl
      exact Or.inr (Or.inl (List.singleton_inj.1 hx ▸ h))
    | pass h hk =>
      obtain ⟨rfl, hx⟩ := List.append_inj' hm rfl
      exact Or.inr (Or.inr (List.singleton_inj.1 hx ▸ ⟨h, hk⟩))
  · rintro (h | h | ⟨h, hk⟩)
    · exact .copy h
    · exact .occurrence h
    · exact .pass h hk

/-- An edge that neither makes a copy nor leaves an occurrence covers only what it passes on. -/
theorem not_covered_snoc (hx : x ∉ I) (hd : e ∉ s.down.of (c.edge x).source)
    (hpass : c.Covered s e I π → e ∈ s.kill.of (c.edge x).source) :
    ¬ c.Covered s e I (π ++ [x]) := by
  rw [covered_snoc]
  rintro (hin | hdown | ⟨hcov, hkill⟩)
  · exact hx hin
  · exact hd hdown
  · exact hkill (hpass hcov)

/-- The last copy or occurrence that covers an expression, and the rest of the path. -/
theorem covered_iff : c.Covered s e I π ↔ ∃ π₁ x π₂, π = π₁ ++ x :: π₂ ∧
    (x ∈ I ∨ e ∈ s.down.of (c.edge x).source) ∧ ∀ y ∈ π₂, e ∉ s.kill.of (c.edge y).source := by
  constructor
  · intro h
    induction h with
    | @copy π x h => exact ⟨π, x, [], rfl, Or.inl h, by simp⟩
    | @occurrence π x h => exact ⟨π, x, [], rfl, Or.inr h, by simp⟩
    | @pass π x _ hk ih =>
      obtain ⟨π₁, z, π₂, rfl, hz, hcalm⟩ := ih
      refine ⟨π₁, z, π₂ ++ [x], by simp, hz, fun y hy => ?_⟩
      rcases List.mem_append.1 hy with hy | hy
      · exact hcalm y hy
      · rw [List.mem_singleton.1 hy]
        exact hk
  · rintro ⟨π₁, x, π₂, rfl, hx, hcalm⟩
    induction π₂ using List.reverseRecOn with
    | nil => exact covered_snoc.2 (hx.imp id Or.inl)
    | append_singleton π₂ y ih =>
      rw [← List.cons_append, ← List.append_assoc]
      exact .pass (ih fun z hz => hcalm z (List.mem_append_left _ hz)) (hcalm y (by simp))

theorem Admissible.covered_path (h : c.Admissible s e I D) (hk : k ∈ D) (hπ : c.Path π k) :
    c.Covered s e I π :=
  covered_iff.2 (h.covered k hk π hπ)

/-- Deletions are not made in the entry. -/
theorem Admissible.ne_zero (h : c.Admissible s e I D) (hk : k ∈ D) : k ≠ 0 := by
  rintro rfl
  exact not_covered_nil
    (h.covered_path hk (.entry (Nat.lt_of_le_of_lt (Nat.zero_le _) (h.exposed 0 hk).1)))

namespace Drawn

variable (h : Drawn fn c) (h0 : ∀ x < c.edges.size, (c.edge x).target ≠ 0)
include h

theorem final_iff {b : BlockId} (hb : fn.layout[k]? = some b) : c.Final k ↔ fn.succs b = [] := by
  constructor
  · intro hf
    refine List.eq_nil_iff_forall_not_mem.2 fun t ht => ?_
    obtain ⟨x, hx, hs, -⟩ := h.exists_edge hb ht
    exact hf x hx hs
  · intro hnil x hx hs
    obtain ⟨a, t, ha, ht, -⟩ := h.edge_spec hx
    rw [hs, hb, Option.some.injEq] at ha
    rw [← ha, hnil] at ht
    cases ht

include h0

theorem joins_iff {j : Nat} {b : BlockId} (hb : fn.layout[k]? = some b) :
    c.Joins k j ↔ ∃ t ∈ fn.succs b, fn.layout[j]? = some t := by
  have hidx : ∀ t ∈ fn.succs b, ∀ i, (fn.layout.idxOf? t).getD 0 = i ↔ fn.layout[i]? = some t := by
    intro t ht i
    obtain ⟨j', hj'⟩ := List.getElem?_of_mem (h.succ_mem h0 hb ht)
    rw [h.idxOf?_layout hj', Option.getD_some]
    constructor
    · rintro rfl
      exact hj'
    · intro hi
      have := h.idxOf?_layout hi
      rw [h.idxOf?_layout hj', Option.some.injEq] at this
      exact this
  constructor
  · rintro ⟨x, hx, hs, rfl⟩
    obtain ⟨a, t, ha, ht, htarget⟩ := h.edge_spec hx
    rw [hs, hb, Option.some.injEq] at ha
    subst ha
    exact ⟨t, ht, (hidx t ht _).1 htarget.symm⟩
  · rintro ⟨t, ht, hj⟩
    obtain ⟨x, hx, hs, htarget⟩ := h.exists_edge hb ht
    exact ⟨x, hx, hs, htarget.trans ((hidx t ht j).2 hj)⟩

/-- What the mark of a pinned node stands for. -/
theorem isPinned_iff (hk : k < c.nodes.size) : (c.node k).isPinned = true ↔ c.Pinned k := by
  have hb := h.block_node hk
  have hsteps : ∀ {i j a d}, fn.layout[i]? = some a → fn.layout[j]? = some d →
      (ReflTransGen c.Joins i j ↔ ReflTransGen fn.Flows a d) := by
    intro i j a d hi hj
    constructor
    · intro hr
      induction hr generalizing d with
      | refl =>
        rw [hi, Option.some.injEq] at hj
        exact hj ▸ .refl
      | @tail m j _ hm ih =>
        obtain ⟨x, hx, hsource, -⟩ := id hm
        have hbm := h.block_node (hsource ▸ h.wired.source_lt x hx)
        obtain ⟨t, ht, hj'⟩ := (h.joins_iff h0 hbm).1 hm
        rw [hj, Option.some.injEq] at hj'
        exact (ih hbm).tail ⟨List.mem_of_getElem? hbm, hj' ▸ ht⟩
    · intro hr
      induction hr generalizing j with
      | refl =>
        have h1 := h.idxOf?_layout hi
        rw [h.idxOf?_layout hj, Option.some.injEq] at h1
        exact h1 ▸ .refl
      | @tail m d _ hm ih =>
        obtain ⟨n, hn⟩ := List.getElem?_of_mem hm.1
        exact (ih hn).tail ((h.joins_iff h0 hn).2 ⟨d, hm.2, hj⟩)
  have hmark : (c.node k).isPinned = true ↔ fn.succs (c.node k).block = [] ∨
      (c.node k).block ∉ fn.exiting := by
    rw [h.node_eq hb]
    simp
  rw [hmark, Pinned, h.final_iff hb, Func.mem_exiting]
  refine or_congr_right ⟨fun hno j hj hf => hno ?_, fun hno => ?_⟩
  · have hjb : fn.layout[j]? = some (c.node j).block := by
      rcases hj.cases_tail with rfl | ⟨i, -, x, hx, -, rfl⟩
      · exact hb
      · exact h.block_node (h.target_lt hx)
    exact ⟨_, List.mem_filter.2 ⟨List.mem_of_getElem? hjb, by simp [(h.final_iff hjb).1 hf]⟩,
      (hsteps hb hjb).1 hj⟩
  · rintro ⟨t, ht, hr⟩
    obtain ⟨htl, hts⟩ := List.mem_filter.1 ht
    obtain ⟨j, hj⟩ := List.getElem?_of_mem htl
    exact hno j ((hsteps hb hj).2 hr) ((h.final_iff hj).2 (by simpa using hts))

end Drawn

theorem SameGraph.pinned_iff {d : Context} (hg : c.SameGraph d) : d.Pinned k ↔ c.Pinned k := by
  have hjoins : d.Joins = c.Joins := by
    funext i j
    simp only [Joins, hg.edges_size, hg.source, hg.target]
  have hfinal : d.Final = c.Final := by
    funext j
    simp only [Final, hg.edges_size, hg.source]
  unfold Pinned
  rw [hjoins, hfinal]

def early (s : Sets) (e : Nat) (π : List Nat) : Nat := π.countP (e ∈ s.earliest.of ·)

/-- The copies on some edges and the occurrences at the start of some nodes that stay. -/
def spent (s : Sets) (e : Nat) (I D : Finset Nat) (π l : List Nat) : Nat :=
  π.countP (· ∈ I) + l.countP fun k => k ≠ 0 ∧ e ∈ s.up.of k ∧ k ∉ D

theorem early_snoc (π : List Nat) (x : Nat) :
    early s e (π ++ [x]) = early s e π + if e ∈ s.earliest.of x then 1 else 0 := by
  simp [early, List.countP_append, List.countP_singleton]

theorem spent_edge (π l : List Nat) (x : Nat) :
    spent s e I D (π ++ [x]) l = spent s e I D π l + if x ∈ I then 1 else 0 := by
  simp only [spent, List.countP_append, List.countP_singleton, decide_eq_true_eq]
  omega

theorem spent_node (π l : List Nat) (k : Nat) :
    spent s e I D π (l ++ [k]) = spent s e I D π l + if k ≠ 0 ∧ e ∈ s.up.of k ∧ k ∉ D
      then 1 else 0 := by
  simp only [spent, List.countP_append, List.countP_singleton, decide_eq_true_eq]
  omega

theorem visits_source (π : List Nat) (x : Nat) :
    c.visits π (c.edge x).source = (π ++ [x]).map fun y => (c.edge y).source := by
  simp [visits]

/-- What a placement spends is its balance and the occurrences that there are. -/
theorem balance_eq (hD : ∀ k ∈ D, k ≠ 0 ∧ e ∈ s.up.of k) :
    c.balance I D π k = spent s e I D π (c.visits π k) - (c.visits π k).countP fun j => j ≠ 0 ∧
      e ∈ s.up.of j := by
  have hsplit : ∀ l : List Nat, (l.countP fun j => j ≠ 0 ∧ e ∈ s.up.of j) =
      l.countP (· ∈ D) + l.countP fun j => j ≠ 0 ∧ e ∈ s.up.of j ∧ j ∉ D := by
    intro l
    induction l with
    | nil => rfl
    | cons j t ih =>
      simp only [List.countP_cons, ih, decide_eq_true_eq]
      by_cases hj : j ∈ D
      · simp [hj, hD j hj]
        omega
      · simp only [hj, not_false_eq_true, and_true, if_false]
        omega
  rw [balance, spent, hsplit]
  push_cast
  ring

namespace Solved

variable (h : Solved fn c₀ c s) (h0 : ∀ x < c.edges.size, (c.edge x).target ≠ 0)
include h

theorem isPinned_iff (h0 : ∀ x < c.edges.size, (c.edge x).target ≠ 0) (hk : k < c.nodes.size) :
    (c.node k).isPinned = true ↔ c.Pinned k := by
  rw [h.graph.isPinned, h.drawn.isPinned_iff (h.graph.target_ne_zero h0) (h.graph.nodes_size ▸ hk),
    h.graph.pinned_iff]

theorem covered_of_availIn (hπ : c.Path π k) (he : e ∈ s.availIn.of k) : c.Covered s e I π := by
  induction hπ with
  | entry h0 => exact absurd he (h.not_mem_availIn_zero h0)
  | @step π x hp hx ih =>
    have hr : c.Reach (c.edge x).source := ⟨π, hp⟩
    have hne : (c.edge x).target ≠ 0 := fun h0 => by
      rw [h0] at he
      exact h.not_mem_availIn_zero (h0 ▸ h.wired.target_lt x hx) he
    have hout := ((h.mem_availIn (reach_target hx hr) hne).1 he).2 x hx rfl
    rcases (h.mem_availOut hr).1 hout with hd | ⟨hin, hkill⟩
    · exact .occurrence hd
    · exact .pass (ih hin) hkill

theorem covered_onEdges (hπ : c.Path π k) (hk : k ≠ 0) (hd : Due s e k) :
    c.Covered s e (c.onEdges s e) π := by
  induction hπ with
  | entry _ => exact absurd rfl hk
  | @step π x hp hx ih =>
    have hr : c.Reach (c.edge x).source := ⟨π, hp⟩
    rcases h.due_source hx hr hd with hout | hon | ⟨hs0, hsd, hkill, -⟩
    · rcases (h.mem_availOut hr).1 hout with hd' | ⟨hin, hkill⟩
      · exact .occurrence hd'
      · exact .pass (h.covered_of_availIn hp hin) hkill
    · exact .copy (mem_onEdges.2 ⟨hx, hon⟩)
    · exact .pass (ih hs0 hsd) hkill

/-- The computed placement keeps the expression at hand. -/
theorem admissible_onEdges (e : Nat) : c.Admissible s e (c.onEdges s e) (c.inNodes s e) where
  anticipated x hx := by
    obtain ⟨hlt, hon⟩ := mem_onEdges.1 hx
    obtain ⟨⟨π, hπ⟩, hlater, -⟩ := (h.mem_insertOn hlt).1 hon
    exact ⟨hlt, (h.ant_of_later hπ x hlt rfl hlater).1⟩
  exposed k hk := by
    obtain ⟨hlt, hin⟩ := mem_inNodes.1 hk
    exact ⟨hlt, ((h.mem_deleteIn hlt).1 hin).2.2.1⟩
  covered k hk π hπ := by
    obtain ⟨hlt, hin⟩ := mem_inNodes.1 hk
    obtain ⟨hk0, -, hup, hno⟩ := (h.mem_deleteIn hlt).1 hin
    exact covered_iff.1 (h.covered_onEdges hπ hk0 ⟨(h.mem_antIn hlt).2 (Or.inl hup), hno⟩)

/-- What waits at a node is anticipated there, since it waits on the last edge of any path to it. -/
theorem antIn_of_laterIn (hπ : c.Path π k) (hl : e ∈ s.laterIn.of k) : e ∈ s.antIn.of k := by
  have hk0 : k ≠ 0 := by
    rintro rfl
    exact h.not_mem_laterIn_zero hl
  have hlater := ((h.mem_laterIn ⟨π, hπ⟩ hk0).1 hl).2
  cases hπ with
  | entry _ => exact absurd rfl hk0
  | step hp hx => exact (h.ant_of_later hp _ hx rfl (hlater _ hx rfl)).1

/-- What waits at a node without being used in it is anticipated behind it and not disturbed. -/
theorem antOut_of_laterIn (hπ : c.Path π k) (hl : e ∈ s.laterIn.of k) (hu : e ∉ s.up.of k) :
    e ∈ s.antOut.of k ∧ e ∉ s.kill.of k :=
  ((h.mem_antIn (hπ.lt h.wired)).1 (h.antIn_of_laterIn hπ hl)).resolve_left hu

/-- A node keeps its first occurrence exactly if the expression waits for it. -/
theorem kept_iff (hk : c.Reach k) :
    k ≠ 0 ∧ e ∈ s.up.of k ∧ k ∉ c.inNodes s e ↔ e ∈ s.up.of k ∧ e ∈ s.laterIn.of k := by
  have hlt := h.reach_lt hk
  rw [mem_inNodes, h.mem_deleteIn hlt]
  constructor
  · rintro ⟨hk0, hu, hno⟩
    refine ⟨hu, ?_⟩
    by_contra hl
    exact hno ⟨hlt, hk0, hk, hu, hl⟩
  · rintro ⟨hu, hl⟩
    refine ⟨?_, hu, fun hno => hno.2.2.2.2 hl⟩
    rintro rfl
    exact h.not_mem_laterIn_zero hl

include h0

/-- Each edge at which the expression becomes necessary is paid for by a copy or by an occurrence
that stays, unless the expression still waits. -/
theorem early_eq_spent (hπ : c.Path π k) : early s e π =
    spent s e (c.onEdges s e) (c.inNodes s e) π (π.map fun x => (c.edge x).source) + if e ∈
      s.laterIn.of k then 1 else 0 := by
  induction hπ with
  | entry _ => simp [early, spent, h.not_mem_laterIn_zero]
  | @step π x hp hx ih =>
    have hr : c.Reach (c.edge x).source := ⟨π, hp⟩
    have hlater := h.mem_later (e := e) hx hr
    have hon : x ∈ c.onEdges s e ↔ e ∈ s.later.of x ∧ e ∉ s.laterIn.of (c.edge x).target := by
      rw [mem_onEdges, h.mem_insertOn hx]
      exact ⟨fun hm => hm.2.2, fun hm => ⟨hx, hr, hm⟩⟩
    have hwait : e ∈ s.laterIn.of (c.edge x).target → e ∈ s.later.of x := fun hl =>
      ((h.mem_laterIn (reach_target hx hr) (h0 x hx)).1 hl).2 x hx rfl
    have hone : e ∈ s.earliest.of x → ¬ (e ∈ s.laterIn.of (c.edge x).source ∧
        e ∉ s.up.of (c.edge x).source) := by
      rintro hearly ⟨hl, hu⟩
      obtain ⟨hout, hkill⟩ := h.antOut_of_laterIn hp hl hu
      refine (((h.mem_earliest hx hr).1 hearly).2.2 fun hz => ?_).elim (fun hn => hn hout) hkill
      rw [hz] at hl
      exact h.not_mem_laterIn_zero hl
    rw [List.map_append, List.map_singleton, spent_node, spent_edge, early_snoc, ih,
      if_congr (h.kept_iff hr) rfl rfl, if_congr hon rfl rfl]
    by_cases h1 : e ∈ s.earliest.of x <;> by_cases h2 : e ∈ s.laterIn.of (c.edge x).source <;>
      by_cases h3 : e ∈ s.up.of (c.edge x).source <;> by_cases h4 :
        e ∈ s.laterIn.of (c.edge x).target <;>
      simp_all

/-- On a whole path the computed placement pays once for each such edge. -/
theorem spent_eq_early (hπ : c.Path π k) (hp : c.Pinned k) :
    spent s e (c.onEdges s e) (c.inNodes s e) π (c.visits π k) = early s e π := by
  have hlt := hπ.lt h.wired
  have hpin := (h.isPinned_iff h0 hlt).2 hp
  have hend : e ∈ s.laterIn.of k → e ∈ s.up.of k := fun hl => by
    by_contra hu
    exact h.not_mem_antOut_pinned hlt hpin (h.antOut_of_laterIn hπ hl hu).1
  rw [h.early_eq_spent h0 hπ, visits, spent_node, if_congr (h.kept_iff ⟨π, hπ⟩) rfl rfl]
  exact congrArg _ (if_congr ⟨And.right, fun hl => ⟨hend hl, hl⟩⟩ rfl rfl)

end Solved
end CodeMotion.Context
