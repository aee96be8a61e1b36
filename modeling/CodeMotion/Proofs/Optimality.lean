import Mathlib
import CodeMotion.Proofs.CopyPaths
import CodeMotion.Proofs.Placements

/-! No admissible placement costs less than the computed one on a whole path, and none that costs
the same on all of them puts its copies later. A path is followed edge by edge: an expression that
became necessary is pending until a copy is made or it is used, and where it is used while it is
pending the occurrence cannot be deleted. -/

namespace CodeMotion.Context

variable {fn : Func} {c c₀ : Context} {s : Sets} {e k x n : Nat} {π : List Nat} {I D : Finset Nat}

/-- On a path an expression became necessary, and since then there was neither a use nor a copy. -/
inductive Pending (c : Context) (s : Sets) (e : Nat) (I : Finset Nat) : List Nat → Prop
  | start {π : List Nat} {x : Nat} (he : e ∈ s.earliest.of x) (hI : x ∉ I) :
    Pending c s e I (π ++ [x])
  | pass {π : List Nat} {x : Nat} (h : Pending c s e I π) (hu : e ∉ s.up.of (c.edge x).source)
    (hI : x ∉ I) :
    Pending c s e I (π ++ [x])

theorem not_pending_nil : ¬ c.Pending s e I [] := by
  intro h
  generalize hm : ([] : List Nat) = m at h
  cases h <;> simp at hm

theorem pending_snoc : c.Pending s e I (π ++ [x]) ↔
    x ∉ I ∧ (e ∈ s.earliest.of x ∨ (c.Pending s e I π ∧ e ∉ s.up.of (c.edge x).source)) := by
  constructor
  · intro h
    generalize hm : π ++ [x] = m at h
    cases h with
    | start he hI =>
      obtain ⟨-, hx⟩ := List.append_inj' hm rfl
      exact List.singleton_inj.1 hx ▸ ⟨hI, Or.inl he⟩
    | pass h hu hI =>
      obtain ⟨rfl, hx⟩ := List.append_inj' hm rfl
      exact List.singleton_inj.1 hx ▸ ⟨hI, Or.inr ⟨h, hu⟩⟩
  · rintro ⟨hI, he | ⟨h, hu⟩⟩
    · exact .start he hI
    · exact .pass h hu hI

theorem Pending.append (hp : c.Pending s e I π) (τ : List Nat)
    (hu : ∀ y ∈ τ, e ∉ s.up.of (c.edge y).source) (hI : ∀ y ∈ τ, y ∉ I) :
    c.Pending s e I (π ++ τ) := by
  induction τ using List.reverseRecOn with
  | nil => rwa [List.append_nil]
  | append_singleton τ x ih =>
    rw [← List.append_assoc]
    exact .pass (ih (fun y hy => hu y (List.mem_append_left _ hy)) fun y hy =>
      hI y (List.mem_append_left _ hy))
      (hu x (by simp)) (hI x (by simp))

/-- Nothing is pending where it has lapsed. -/
theorem Lapsed.not_pending (h : c.Lapsed s.up s.earliest e π k) : ¬ c.Pending s e I π := by
  induction h with
  | entry _ => exact not_pending_nil
  | used _ _ hu he => exact fun hp => (pending_snoc.1 hp).2.elim he fun hp => hp.2 hu
  | passed _ _ he ih => exact fun hp => (pending_snoc.1 hp).2.elim he fun hp => ih hp.1

/-- What a placement has spent on a path covers what became necessary, but for one pending copy,
with `n` to spare. -/
def Owing (c : Context) (s : Sets) (e : Nat) (I D : Finset Nat) (n : Nat) (π : List Nat) : Prop :=
  early s e π + n ≤ spent s e I D π (π.map fun x => (c.edge x).source) ∨
    (c.Pending s e I π ∧ early s e π + n ≤ spent s e I D π (π.map fun x => (c.edge x).source) + 1)

/-- Across an edge, once the occurrences of its source are counted. -/
theorem Owing.leave (h : early s e π + n ≤ spent s e I D π (c.visits π (c.edge x).source)) :
    c.Owing s e I D n (π ++ [x]) := by
  unfold Owing
  rw [early_snoc, ← visits_source, spent_edge]
  by_cases he : e ∈ s.earliest.of x
  · by_cases hI : x ∈ I
    · rw [if_pos he, if_pos hI]
      exact Or.inl (by omega)
    · rw [if_pos he]
      exact Or.inr ⟨.start he hI, by omega⟩
  · rw [if_neg he]
    exact Or.inl (by omega)

theorem spent_append (π ρ : List Nat) :
    spent s e I D π (π.map fun x => (c.edge x).source) + ρ.countP (· ∈ I) ≤
    spent s e I D (π ++ ρ) ((π ++ ρ).map fun x => (c.edge x).source) := by
  simp only [spent, List.map_append, List.countP_append]
  omega

theorem Ends.exists_pinned (hk : c.Ends k) :
    ∃ ρ j, (∀ π, c.Path π k → c.Path (π ++ ρ) j) ∧ (c.node j).isPinned = true := by
  induction hk with
  | @pinned k _ hp => exact ⟨[], k, fun π hπ => by simpa using hπ, hp⟩
  | @step x hx _ ih =>
    obtain ⟨ρ, j, hpath, hp⟩ := ih
    refine ⟨x :: ρ, j, fun π hπ => ?_, hp⟩
    rw [List.append_cons]
    exact hpath _ (.step hπ hx)

namespace Solved

variable (h : Solved fn c₀ c s) (h0 : ∀ x < c.edges.size, (c.edge x).target ≠ 0)
include h

theorem antIn_of_pending (hπ : c.Path π k) (hp : c.Pending s e I π) : e ∈ s.antIn.of k := by
  induction hπ with
  | entry _ => exact absurd hp not_pending_nil
  | @step π x hpath hx ih =>
    obtain ⟨-, he | ⟨hp, hu⟩⟩ := pending_snoc.1 hp
    · exact ((h.mem_earliest hx ⟨π, hpath⟩).1 he).1
    · exact h.antIn_of_antOut hx (((h.mem_antIn (h.wired.source_lt x hx)).1 (ih hp)).resolve_left
        hu).1

theorem exists_edge_of_source {i : Nat} (hi : i ∈ (c.availability s).sources k) :
    ∃ x < c.edges.size, (c.edge x).source = i ∧ (c.edge x).target = k := by
  obtain ⟨x, hx, rfl⟩ := List.mem_map.1 hi
  have hk : k < c.nodes.size := by
    by_contra hk
    have hnode : c.node k = default := by simp [node, Array.getD, hk]
    rw [hnode] at hx
    cases hx
  exact ⟨x, ((h.wired.mem_pred k hk x).1 hx).1, rfl, ((h.wired.mem_pred k hk x).1 hx).2⟩

/-- An expression that is missed at a node, and not anticipated there, is covered on no way on which
it is missed, however copies are made where it is anticipated. -/
theorem exists_uncovered (hI : ∀ x ∈ I, e ∈ s.antIn.of (c.edge x).target)
    (hm : (c.availability s).Missed e k) (hk : k < c.nodes.size) :
    c.Reach k ∧ (e ∉ s.antIn.of k → ∃ ρ, c.Path ρ k ∧ ¬ c.Covered s e I ρ) := by
  induction hm with
  | @pinned k hp =>
    have hk0 : k = 0 := by simpa [availability] using hp
    subst hk0
    exact ⟨⟨[], .entry hk⟩, fun _ => ⟨[], .entry hk, not_covered_nil⟩⟩
  | @killed i k hi hj hkill hgen =>
    obtain ⟨x, hx, rfl, rfl⟩ := h.exists_edge_of_source hj
    obtain ⟨ρ, hρ⟩ := path_of_reached h.wired hi
    exact ⟨⟨_, .step hρ hx⟩, fun hant =>
      ⟨ρ ++ [x], .step hρ hx, not_covered_snoc (fun hin => hant (hI x hin)) hgen fun _ => hkill⟩⟩
  | @passed i k _ hj hgen ih =>
    obtain ⟨x, hx, rfl, rfl⟩ := h.exists_edge_of_source hj
    have hlt := h.wired.source_lt x hx
    obtain ⟨⟨ρ₀, hρ₀⟩, ih⟩ := ih hlt
    refine ⟨⟨_, .step hρ₀ hx⟩, fun hant => ?_⟩
    have hout : x ∉ I := fun hin => hant (hI x hin)
    by_cases hkill : e ∈ s.kill.of (c.edge x).source
    · exact ⟨ρ₀ ++ [x], .step hρ₀ hx, not_covered_snoc hout hgen fun _ => hkill⟩
    · have hsource : e ∉ s.antIn.of (c.edge x).source := fun hin => by
        rcases (h.mem_antIn hlt).1 hin with hu | ⟨ho, -⟩
        · exact hgen (h.down_of_up hlt hu hkill)
        · exact hant (h.antIn_of_antOut hx ho)
      obtain ⟨ρ, hρ, hno⟩ := ih hsource
      exact ⟨ρ ++ [x], .step hρ hx, not_covered_snoc hout hgen fun hcov => absurd hcov hno⟩

/-- Where an expression is pending, some path does not cover it. -/
theorem uncovered_of_pending (hI : ∀ x ∈ I, e ∈ s.antIn.of (c.edge x).target) (hπ : c.Path π k)
    (hp : c.Pending s e I π) : ∃ ρ, c.Path ρ k ∧ ¬ c.Covered s e I ρ := by
  induction hπ with
  | entry _ => exact absurd hp not_pending_nil
  | @step π x hpath hx ih =>
    have hr : c.Reach (c.edge x).source := ⟨π, hpath⟩
    have hlt := h.reach_lt hr
    obtain ⟨hIx, he | ⟨hp, hu⟩⟩ := pending_snoc.1 hp
    · obtain ⟨hant, hout, hstart⟩ := (h.mem_earliest hx hr).1 he
      have hdown : e ∉ s.down.of (c.edge x).source :=
        fun hd => hout ((h.mem_availOut hr).2 (Or.inl hd))
      by_cases hkill : e ∈ s.kill.of (c.edge x).source
      · exact ⟨π ++ [x], .step hpath hx, not_covered_snoc hIx hdown fun _ => hkill⟩
      · -- the expression is not available at the start of the source, where it is not anticipated
        have hsize : e < c.catalog.size := by
          have := BitSet.lt_size hant
          rwa [h.numbered.fits.antIn.2 _ (h.wired.target_lt x hx)] at this
        have hin : e ∉ s.availIn.of (c.edge x).source :=
          fun hin => hout ((h.mem_availOut hr).2 (Or.inr ⟨hin, hkill⟩))
        obtain ⟨ρ, hρ, hno⟩ : ∃ ρ, c.Path ρ (c.edge x).source ∧ ¬ c.Covered s e I ρ := by
          by_cases hz : (c.edge x).source = 0
          · rw [hz] at hlt ⊢
            exact ⟨[], .entry hlt, not_covered_nil⟩
          · refine
              (h.exists_uncovered hI (h.avail.missed _ hlt e hsize hin) hlt).2 fun hsource => ?_
            rcases (h.mem_antIn hlt).1 hsource with hu | ⟨ho, -⟩
            · exact hdown (h.down_of_up hlt hu hkill)
            · exact (hstart hz).elim (fun hn => hn ho) hkill
        exact ⟨ρ ++ [x], .step hρ hx, not_covered_snoc hIx hdown fun hcov => absurd hcov hno⟩
    · obtain ⟨ρ, hρ, hno⟩ := ih hp
      have hkill := (((h.mem_antIn hlt).1 (h.antIn_of_pending hpath hp)).resolve_left hu).2
      have hdown : e ∉ s.down.of (c.edge x).source := fun hd => hu (h.up_of_down hlt hd hkill)
      exact ⟨ρ ++ [x], .step hρ hx, not_covered_snoc hIx hdown fun hcov => absurd hcov hno⟩

/-- A pending use is not deleted. -/
theorem not_mem_of_pending (ha : c.Admissible s e I D) (hπ : c.Path π k) (hp : c.Pending s e I π) :
    k ∉ D := by
  intro hk
  obtain ⟨ρ, hρ, hno⟩ := h.uncovered_of_pending (fun x hx => (ha.anticipated x hx).2) hπ hp
  exact hno (ha.covered_path hk hρ)

include h0

omit h in
theorem target_ne_zero_of_pending (hπ : c.Path π k) (hp : c.Pending s e I π) : k ≠ 0 := by
  cases hπ with
  | entry _ => exact absurd hp not_pending_nil
  | step _ hx => exact h0 _ hx

/-- At a node a placement has covered what became necessary, or it is not used there and still
pending. -/
theorem owing_visit (ha : c.Admissible s e I D) (hπ : c.Path π k) (ho : c.Owing s e I D n π) :
    early s e π + n ≤ spent s e I D π (c.visits π k) ∨
      (c.Pending s e I π ∧ e ∉ s.up.of k ∧ early s e π + n ≤
        spent s e I D π (c.visits π k) + 1) := by
  rw [visits, spent_node]
  rcases ho with hle | ⟨hp, hle⟩
  · exact Or.inl (hle.trans (Nat.le_add_right _ _))
  · by_cases hu : e ∈ s.up.of k
    · rw [if_pos ⟨target_ne_zero_of_pending h0 hπ hp, hu, h.not_mem_of_pending ha hπ hp⟩]
      exact Or.inl hle
    · exact Or.inr ⟨hp, hu, by omega⟩

theorem owing_step (ha : c.Admissible s e I D) (hπ : c.Path π (c.edge x).source)
    (hx : x < c.edges.size) (ho : c.Owing s e I D n π) : c.Owing s e I D n (π ++ [x]) := by
  rcases h.owing_visit h0 ha hπ ho with hle | ⟨hp, hu, hle⟩
  · exact .leave hle
  · -- what is pending cannot become necessary again
    have hant :=
      ((h.mem_antIn (h.wired.source_lt x hx)).1 (h.antIn_of_pending hπ hp)).resolve_left hu
    have he : e ∉ s.earliest.of x := fun he =>
      (((h.mem_earliest hx ⟨π, hπ⟩).1 he).2.2 (target_ne_zero_of_pending h0 hπ hp)).elim (fun hn =>
        hn hant.1) hant.2
    unfold Owing
    rw [early_snoc, if_neg he, ← visits_source, spent_edge]
    by_cases hI : x ∈ I
    · rw [if_pos hI]
      exact Or.inl (by omega)
    · exact Or.inr ⟨.pass hp hu hI, by omega⟩

/-- Along a path what is to spare stays. -/
theorem owing_append (ha : c.Admissible s e I D) (ρ : List Nat) :
    ∀ {π k j}, c.Path π j → c.Path (π ++ ρ) k →
    c.Owing s e I D n π → c.Owing s e I D n (π ++ ρ) := by
  induction ρ using List.reverseRecOn with
  | nil =>
    intro π k j _ _ ho
    rwa [List.append_nil]
  | append_singleton ρ x ih =>
    intro π k j hπ hρ ho
    rw [← List.append_assoc] at hρ ⊢
    obtain ⟨hp, hx, -⟩ := path_snoc.1 hρ
    exact h.owing_step h0 ha hp hx (ih hπ hp ho)

theorem owing_path (ha : c.Admissible s e I D) (hπ : c.Path π k) : c.Owing s e I D 0 π := by
  have hstart : c.Path [] 0 := .entry (Nat.lt_of_le_of_lt (Nat.zero_le _) (hπ.lt h.wired))
  exact h.owing_append h0 ha π hstart hπ (Or.inl (by simp [early]))

/-- On a whole path a placement pays for each edge at which the expression becomes necessary. -/
theorem early_le_spent (ha : c.Admissible s e I D) (hπ : c.Path π k) (hk : c.Pinned k)
    (ho : c.Owing s e I D n π) : early s e π + n ≤ spent s e I D π (c.visits π k) := by
  have hlt := hπ.lt h.wired
  rcases h.owing_visit h0 ha hπ ho with hle | ⟨hp, hu, -⟩
  · exact hle
  · have hout := (((h.mem_antIn hlt).1 (h.antIn_of_pending hπ hp)).resolve_left hu).1
    exact absurd hout (h.not_mem_antOut_pinned hlt ((h.isPinned_iff h0 hlt).2 hk))

/-- The balance of the computed placement is the least. -/
theorem balance_onEdges_le (ha : c.Admissible s e I D) (hπ : c.Path π k) (hk : c.Pinned k) :
    c.balance (c.onEdges s e) (c.inNodes s e) π k ≤ c.balance I D π k := by
  have hcomputed := h.admissible_onEdges e
  rw [balance_eq fun j hj => ⟨hcomputed.ne_zero hj, (hcomputed.exposed j hj).2⟩,
    balance_eq fun j hj => ⟨ha.ne_zero hj, (ha.exposed j hj).2⟩, h.spent_eq_early h0 hπ hk]
  have := h.early_le_spent h0 ha hπ hk (h.owing_path h0 ha hπ)
  omega

omit h0 in
/-- What waits on an edge is pending there, unless a copy was made since it began to wait. -/
theorem pending_or_copy (hπ : c.Path π k) :
    ∀ x < c.edges.size, (c.edge x).source = k → e ∈ s.later.of x →
    c.Pending s e I (π ++ [x]) ∨ ∃ π₁ z π₂, π ++ [x] = π₁ ++ z :: π₂ ∧ z ∈ I ∧
      ∀ y ∈ π₂, e ∉ s.up.of (c.edge y).source ∧ e ∉ s.kill.of (c.edge y).source := by
  have hcopy : ∀ {π x}, x ∈ I → ∃ π₁ z π₂, π ++ [x] = π₁ ++ z :: π₂ ∧ z ∈ I ∧
      ∀ y ∈ π₂, e ∉ s.up.of (c.edge y).source ∧ e ∉ s.kill.of (c.edge y).source := fun {π x} hx =>
        ⟨π, x, [], rfl, hx, by simp⟩
  induction hπ with
  | entry hn =>
    intro x hx hk hl
    rcases (h.mem_later hx (hk ▸ ⟨[], .entry hn⟩)).1 hl with he | ⟨hl, -⟩
    · by_cases hI : x ∈ I
      · exact Or.inr (hcopy hI)
      · exact Or.inl (.start he hI)
    · rw [hk] at hl
      exact absurd hl h.not_mem_laterIn_zero
  | @step π y hp hy ih =>
    intro x hx hk hl
    have hpath : c.Path (π ++ [y]) (c.edge x).source := hk ▸ .step hp hy
    by_cases hI : x ∈ I
    · exact Or.inr (hcopy hI)
    rcases (h.mem_later hx ⟨_, hpath⟩).1 hl with he | ⟨hl, hu⟩
    · exact Or.inl (.start he hI)
    have hk0 : (c.edge x).source ≠ 0 := fun hz => h.not_mem_laterIn_zero (hz ▸ hl)
    have hkill := (h.antOut_of_laterIn hpath hl hu).2
    rcases ih y hy rfl (((h.mem_laterIn ⟨_, hpath⟩ hk0).1 hl).2 y hy hk.symm) with hpend |
      ⟨π₁, z, π₂, heq, hz, hquiet⟩
    · exact Or.inl (.pass hpend hu hI)
    · refine Or.inr ⟨π₁, z, π₂ ++ [x], by rw [heq]; simp, hz, fun y' hy' => ?_⟩
      rcases List.mem_append.1 hy' with hy' | hy'
      · exact hquiet y' hy'
      · rw [List.mem_singleton.1 hy']
        exact ⟨hu, hkill⟩

/-- On a way to the next use nothing becomes necessary. -/
theorem early_quiet (τ : List Nat)
    (hq : ∀ y ∈ τ, e ∉ s.up.of (c.edge y).source ∧ e ∉ s.kill.of (c.edge y).source) :
    ∀ {π k j}, c.Path π k → k ≠ 0 → e ∈ s.antIn.of k → c.Path (π ++ τ) j →
      early s e (π ++ τ) = early s e π ∧ j ≠ 0 ∧ e ∈ s.antIn.of j := by
  induction τ using List.reverseRecOn with
  | nil =>
    intro π k j hπ hk hant hj
    rw [List.append_nil] at hj ⊢
    exact ⟨rfl, hj.unique hπ ▸ hk, hj.unique hπ ▸ hant⟩
  | append_singleton τ x ih =>
    intro π k j hπ hk hant hj
    rw [← List.append_assoc] at hj ⊢
    obtain ⟨hp, hx, rfl⟩ := path_snoc.1 hj
    obtain ⟨heq, hx0, hax⟩ := ih (fun y hy => hq y (List.mem_append_left _ hy)) hπ hk hant hp
    obtain ⟨hu, hkill⟩ := hq x (by simp)
    have hout := (((h.mem_antIn (h.wired.source_lt x hx)).1 hax).resolve_left hu).1
    have he : e ∉ s.earliest.of x := fun he =>
      (((h.mem_earliest hx ⟨_, hp⟩).1 he).2.2 hx0).elim (fun hn => hn hout) hkill
    rw [early_snoc, if_neg he]
    exact ⟨heq, h0 x hx, h.antIn_of_antOut hx hout⟩

/-- A placement that spends no more than it must has a copy, with nothing between, in front of every
copy of the computed one. -/
theorem exists_copy_ahead (ha : c.Admissible s e I D)
    (htight : ∀ π k, c.Path π k → c.Pinned k → spent s e I D π (c.visits π k) = early s e π)
    (hπ : c.Path π (c.edge x).source) (hx : x < c.edges.size) (hon : e ∈ c.insertOn s x) :
    ∃ π₁ z π₂, π ++ [x] = π₁ ++ z :: π₂ ∧ z ∈ I ∧ ∀ y ∈ π₂, e ∉ s.up.of (c.edge y).source ∧
      e ∉ s.kill.of (c.edge y).source := by
  obtain ⟨-, hlater, hno⟩ := (h.mem_insertOn hx).1 hon
  rcases h.pending_or_copy hπ x hx rfl hlater with hpend | hcopy
  swap
  · exact hcopy
  exfalso
  have hlt := h.wired.target_lt x hx
  have hant := (h.ant_of_later hπ x hx rfl hlater).1
  have hsize : e < c.catalog.size := by
    have := BitSet.lt_size hant
    rwa [h.numbered.fits.antIn.2 _ hlt] at this
  -- a second path comes to the same node without anything pending, and both go on to the next use
  obtain ⟨ρ, hρ⟩ := h.delayed.lapsed _ hlt e hsize hno
  obtain ⟨τ, j, hway, hup, hquiet⟩ := h.exists_occurrence (h.marked.ends _ hlt) hant
  have hj := hway _ hρ.path
  have hjlt := hj.lt h.wired
  obtain ⟨heq, hj0, -⟩ := h.early_quiet h0 τ hquiet hρ.path (h0 x hx) hant hj
  have hpaid : early s e ρ ≤ spent s e I D ρ (ρ.map fun x => (c.edge x).source) :=
    (h.owing_path h0 ha hρ.path).elim id fun hp => absurd hp.1 hρ.not_pending
  obtain ⟨θ, m, hend, hpin⟩ := (h.marked.ends j hjlt).exists_pinned
  have hm := hend _ hj
  have hpinned := (h.isPinned_iff h0 (hm.lt h.wired)).1 hpin
  have hfull := htight _ _ hm hpinned
  -- on the way to the use the placement makes no copy, for it would be one too many
  have hnone : ∀ y ∈ τ, y ∉ I := by
    intro y hy hI
    have hpos : 0 < τ.countP (· ∈ I) := List.countP_pos_iff.2 ⟨y, hy, by simpa using hI⟩
    have hmore := spent_append (c := c) (s := s) (e := e) (I := I) (D := D) ρ τ
    have howing : c.Owing s e I D 1 (ρ ++ τ) := Or.inl (by omega)
    have := h.early_le_spent h0 ha hm hpinned (h.owing_append h0 ha θ hj hm howing)
    omega
  -- and it deletes the use, for one that stays would be one too many
  have hdel : j ∈ D := by
    by_contra hjD
    have hmore := spent_append (c := c) (s := s) (e := e) (I := I) (D := D) ρ τ
    have hvisit : early s e (ρ ++ τ) + 1 ≤ spent s e I D (ρ ++ τ) (c.visits (ρ ++ τ) j) := by
      rw [visits, spent_node, if_pos ⟨hj0, hup, hjD⟩]
      omega
    cases θ with
    | nil =>
      rw [List.append_nil] at hm hfull
      rw [hm.unique hj] at hfull
      omega
    | cons y θ =>
      have hy : c.Path (ρ ++ τ ++ [y]) (c.edge y).target := .step hm.cut (hm.edge_lt y (by simp))
      rw [← hm.cut.unique hj] at hvisit
      rw [List.append_cons] at hm hfull
      have := h.early_le_spent h0 ha hm hpinned (h.owing_append h0 ha θ hy hm (.leave hvisit))
      omega
  exact h.not_mem_of_pending ha (hway _ (.step hπ hx))
    (hpend.append τ (fun y hy => (hquiet y hy).1) hnone) hdel

end Solved

/-- No admissible placement costs less on a path to its end than the computed one. -/
theorem balance_le {o : Options} (ha : Answers fn o c s) (ho : o.singleInsertion = false)
    (h0 : ∀ x < c.edges.size, (c.edge x).target ≠ 0) (hp : c.Admissible s e I D) (hπ : c.Path π k)
    (hk : c.Pinned k) : c.balance (c.insertions s e) (c.deletions s e) π k ≤ c.balance I D π k := by
  obtain ⟨c₀, hopt, hs, hd⟩ := ha.solved
  obtain ⟨hins, hdel⟩ := hd.insertions_eq (by rw [hopt, ho]) e
  rw [hins, hdel]
  exact hs.balance_onEdges_le h0 hp hπ hk

/-- A loop behind a block that only leads to it. -/
def detour : Func where
  name := "f"
  params := ["c"]
  layout := [1, 2, 3, 4]
  blocks := ⟨#[{ term := some 1 }, { term := some 2, preds := [1] },
    { body := [3], term := some 4, preds := [2, 3] }, { term := some 5, preds := [3] }]⟩
  instrs := ⟨#[
    { op := .jump, targets := [2], block := some 1 },
    { op := .jump, targets := [3], block := some 2 },
    { op := .store, args := [.const 1, .global 0 "g"], block := some 3 },
    { op := .branch, args := [.param 0 "c"], targets := [3, 4], block := some 3 },
    { op := .ret, block := some 4 }]⟩

/-- What the analysis of the loop comes to: the store is copied onto the edge into the loop. -/
structure Detoured (c : Context) (s : Sets) : Prop where
  answers : Answers detour { singleInsertion := false } c s
  nodes : c.nodes.size = 4
  edges : c.edges = #[⟨0, 1, none⟩, ⟨1, 2, none⟩, ⟨2, 2, none⟩, ⟨2, 3, none⟩]
  insertions : c.insertions s 0 = {1}
  deletions : c.deletions s 0 = {2}
  antIn : 0 ∈ s.antIn.of 1
  up : 0 ∈ s.up.of 2
  kill : ∀ k < 4, 0 ∉ s.kill.of k

theorem exists_detoured : ∃ c s, Detoured c s := by
  obtain ⟨c, s, ha, hp⟩ :=
    answers_of_answer? detour { singleInsertion := false } (fun (c, s) => c.nodes.size == 4 &&
      c.edges == #[⟨0, 1, none⟩, ⟨1, 2, none⟩, ⟨2, 2, none⟩, ⟨2, 3, none⟩] && c.insertions s 0 ==
        {1} && c.deletions s 0 == {2} &&
      decide (0 ∈ s.antIn.of 1) && decide (0 ∈ s.up.of 2) &&
        decide (∀ k < (4 : Nat), 0 ∉ s.kill.of k)) (by decide +kernel)
  simp only [Bool.and_eq_true, beq_iff_eq, decide_eq_true_eq, and_assoc] at hp
  obtain ⟨h1, h2, h3, h4, h5, h6, h7⟩ := hp
  exact ⟨c, s, ha, h1, h2, h3, h4, h5, h6, h7⟩

namespace Detoured

variable (h : Detoured c s)
include h

theorem edge_cases (hx : x < c.edges.size) :
    x = 0 ∧ c.edge x = ⟨0, 1, none⟩ ∨ x = 1 ∧ c.edge x = ⟨1, 2, none⟩ ∨
    x = 2 ∧ c.edge x = ⟨2, 2, none⟩ ∨ x = 3 ∧ c.edge x = ⟨2, 3, none⟩ := by
  rw [h.edges] at hx
  change x < 4 at hx
  unfold edge
  rw [h.edges]
  interval_cases x <;> simp

theorem target_ne_zero : ∀ x < c.edges.size, (c.edge x).target ≠ 0 := by
  intro x hx
  rcases h.edge_cases hx with ⟨-, he⟩ | ⟨-, he⟩ | ⟨-, he⟩ | ⟨-, he⟩ <;> simp [he]

theorem edge_eq : c.edge 0 = ⟨0, 1, none⟩ ∧ c.edge 1 = ⟨1, 2, none⟩ ∧ c.edge 2 = ⟨2, 2, none⟩ ∧
    c.edge 3 = ⟨2, 3, none⟩ := by
  unfold edge
  rw [h.edges]
  exact ⟨rfl, rfl, rfl, rfl⟩

theorem path : c.Path [0] 1 ∧ c.Path [0, 1, 2, 3] 3 := by
  obtain ⟨h0, h1, h2, h3⟩ := h.edge_eq
  have hlt : ∀ y < 4, y < c.edges.size := fun y hy => by rwa [h.edges]
  have hone : c.Path ([] ++ [0]) 1 :=
    path_snoc.2 ⟨by rw [h0]; exact .entry (by rw [h.nodes]; decide), hlt 0 (by decide), by rw [h0]⟩
  have htwo : c.Path ([0] ++ [1]) 2 :=
    path_snoc.2 ⟨by rw [h1]; exact hone, hlt 1 (by decide), by rw [h1]⟩
  have hround : c.Path ([0, 1] ++ [2]) 2 :=
    path_snoc.2 ⟨by rw [h2]; exact htwo, hlt 2 (by decide), by rw [h2]⟩
  exact ⟨hone, path_snoc.2 ⟨by rw [h3]; exact hround, hlt 3 (by decide), by rw [h3]⟩⟩

theorem final : c.Final 3 := by
  intro x hx
  rcases h.edge_cases hx with ⟨-, he⟩ | ⟨-, he⟩ | ⟨-, he⟩ | ⟨-, he⟩ <;> simp [he]

theorem not_pinned : ¬ c.Pinned 1 := by
  obtain ⟨-, h1, -, h3⟩ := h.edge_eq
  have hlt : ∀ y < 4, y < c.edges.size := fun y hy => by rwa [h.edges]
  have hone : c.Joins 1 2 := ⟨1, hlt 1 (by decide), by rw [h1], by rw [h1]⟩
  have htwo : c.Joins 2 3 := ⟨3, hlt 3 (by decide), by rw [h3], by rw [h3]⟩
  rintro (hf | hno)
  · exact hf 1 (hlt 1 (by decide)) (by rw [h1])
  · exact hno 3 ((Relation.ReflTransGen.single hone).tail htwo) h.final

/-- Every path begins with the first edge and takes the second one when it has left the
second node. -/
theorem path_spec (hπ : c.Path π k) : (k = 0 ∧ π = [] ∨ ∃ ρ, π = 0 :: ρ) ∧
    π.countP (· ∈ ({0} : Finset Nat)) = π.countP (· ∈ ({1} : Finset Nat)) + if k = 1
      then 1 else 0 := by
  induction hπ with
  | entry _ => simp
  | @step π x _ hx ih =>
    obtain ⟨hfirst, hcount⟩ := ih
    rw [List.countP_append, List.countP_append, hcount]
    rcases h.edge_cases hx with ⟨rfl, he⟩ | ⟨rfl, he⟩ | ⟨rfl, he⟩ | ⟨rfl, he⟩ <;> rw [he]
      at hfirst ⊢ <;>
      refine ⟨Or.inr ?_, by simp⟩
    · rcases hfirst with ⟨-, rfl⟩ | ⟨ρ, rfl⟩
      · exact ⟨[], rfl⟩
      · exact ⟨ρ ++ [0], rfl⟩
    all_goals
      rcases hfirst with ⟨hk, -⟩ | ⟨ρ, rfl⟩
      · cases hk
      · exact ⟨ρ ++ [_], rfl⟩

/-- The copy can be made one edge earlier. -/
theorem admissible : c.Admissible s 0 {0} {2} where
  anticipated x hx := by
    rw [Finset.mem_singleton.1 hx, h.edge_eq.1]
    exact ⟨by rw [h.edges]; decide, h.antIn⟩
  exposed k hk := by
    rw [Finset.mem_singleton.1 hk]
    exact ⟨by rw [h.nodes]; decide, h.up⟩
  covered k hk π hπ := by
    rcases (h.path_spec hπ).1 with ⟨rfl, -⟩ | ⟨ρ, rfl⟩
    · simp at hk
    · refine ⟨[], 0, ρ, rfl, Or.inl (Finset.mem_singleton_self 0), fun y hy => h.kill _ ?_⟩
      rcases h.edge_cases (hπ.edge_lt y (List.mem_cons_of_mem _ hy)) with ⟨-, he⟩ | ⟨-, he⟩ |
        ⟨-, he⟩ | ⟨-, he⟩ <;> rw [he] <;> decide

end Detoured

theorem balance_le_detour : ∃ c s, Answers detour { singleInsertion := false } c s ∧
    (∀ x < c.edges.size, (c.edge x).target ≠ 0) ∧
    c.Admissible s 0 {0} {2} ∧ c.Path [0, 1, 2, 3] 3 ∧ c.Pinned 3 ∧
    c.balance (c.insertions s 0) (c.deletions s 0) [0, 1, 2, 3] 3 ≤ c.balance {0} {2} [0,
      1, 2, 3] 3 := by
  obtain ⟨c, s, h⟩ := exists_detoured
  exact ⟨c, s, h.answers, h.target_ne_zero, h.admissible, h.path.2, Or.inl h.final,
    balance_le h.answers rfl h.target_ne_zero h.admissible h.path.2 (Or.inl h.final)⟩

/-- A placement that costs the same as the computed one on all paths to an end has a copy in front
of each computed copy, with neither a use nor a disturbance between. -/
theorem copy_ahead_of_balance_eq {o : Options} (ha : Answers fn o c s)
    (ho : o.singleInsertion = false) (h0 : ∀ x < c.edges.size, (c.edge x).target ≠ 0)
    (hp : c.Admissible s e I D)
    (hsame : ∀ π k, c.Path π k → c.Pinned k → c.balance I D π k = c.balance (c.insertions s e)
      (c.deletions s e) π k) (hπ : c.Path π (c.edge x).source) (hx : x < c.edges.size)
    (hins : e ∈ s.insert.of x) :
    ∃ π₁ z π₂, π ++ [x] = π₁ ++ z :: π₂ ∧ z ∈ I ∧ ∀ y ∈ π₂, e ∉ s.up.of (c.edge y).source ∧
      e ∉ s.kill.of (c.edge y).source := by
  obtain ⟨c₀, hopt, hs, hd⟩ := ha.solved
  obtain ⟨hedges, hnodes⟩ := hd.insertions_eq (by rw [hopt, ho]) e
  have hcomputed := hs.admissible_onEdges e
  refine hs.exists_copy_ahead h0 hp (fun ρ k hρ hk => ?_) hπ hx ((hd.insert_iff x hx e).1 hins).1
  have hbalance := hsame ρ k hρ hk
  rw [hedges, hnodes, balance_eq fun j hj => ⟨hp.ne_zero hj, (hp.exposed j hj).2⟩,
    balance_eq fun j hj => ⟨hcomputed.ne_zero hj, (hcomputed.exposed j hj).2⟩,
      hs.spent_eq_early h0 hρ hk] at hbalance
  omega

/-- In front of the copy on the second edge the other placement has its own on the first. -/
theorem copy_ahead_detour : ∃ c s, Answers detour { singleInsertion := false } c s ∧
    (∀ x < c.edges.size, (c.edge x).target ≠ 0) ∧
    c.Admissible s 0 {0} {2} ∧
    (∀ π k, c.Path π k → c.Pinned k → c.balance {0} {2} π k = c.balance (c.insertions s 0)
      (c.deletions s 0) π k) ∧
    c.Path [0] (c.edge 1).source ∧ 0 ∈ s.insert.of 1 ∧
    ∃ π₁ z π₂, [0] ++ [1] = π₁ ++ z :: π₂ ∧ z ∈ ({0} : Finset Nat) ∧
      ∀ y ∈ π₂, 0 ∉ s.up.of (c.edge y).source ∧ 0 ∉ s.kill.of (c.edge y).source := by
  obtain ⟨c, s, h⟩ := exists_detoured
  have hsame : ∀ π k, c.Path π k → c.Pinned k → c.balance {0} {2} π k = c.balance (c.insertions s 0)
      (c.deletions s 0) π k := by
    intro π k hπ hk
    have hne : k ≠ 1 := fun hk1 => h.not_pinned (hk1 ▸ hk)
    rw [h.insertions, h.deletions, balance, balance, (h.path_spec hπ).2, if_neg hne, Nat.add_zero]
  have hpath : c.Path [0] (c.edge 1).source := by
    rw [h.edge_eq.2.1]
    exact h.path.1
  have hins : 0 ∈ s.insert.of 1 := by
    have : 1 ∈ c.insertions s 0 := by
      rw [h.insertions]
      exact Finset.mem_singleton_self 1
    exact (Finset.mem_filter.1 this).2
  exact ⟨c, s, h.answers, h.target_ne_zero, h.admissible, hsame, hpath, hins,
    copy_ahead_of_balance_eq h.answers rfl h.target_ne_zero h.admissible hsame hpath
      (by rw [h.edges]; decide) hins⟩

end CodeMotion.Context
