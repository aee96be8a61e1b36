import Mathlib
import CodeMotion.Flow
import CodeMotion.Proofs.Sets
import CodeMotion.Proofs.Worklist

/-! The answer of `Flow.solve` solves the equations of its problem, and it is the greatest
solution: a fact that is missing at a node is missed on some way from a pinned node. Sets only
shrink, a node that waits for nothing satisfies its equation, and a node is behind no visited one
until it waits. -/

namespace CodeMotion.Flow

/-- What a problem needs to be solved by looking at the sinks of a node whenever it changed. -/
structure Regular (p : Flow) : Prop where
  sinks_lt : ∀ i < p.size, ∀ j ∈ p.sinks i, j < p.size
  mem_sinks : ∀ i < p.size, ∀ j < p.size, j ∈ p.sinks i ↔ i ∈ p.sources j
  sources_lt : ∀ j < p.size, ∀ i ∈ p.sources j, i < p.size
  gen_size : ∀ i < p.size, (p.gen i).size = p.width

/-- The nodes that come after a pinned node. -/
inductive Reached (p : Flow) : Nat → Prop
  | seed {i : Nat} (hi : i < p.size) (h : p.pinned i = true) : Reached p i
  | next {i j : Nat} (hi : Reached p i) (h : j ∈ p.sinks i) : Reached p j

/-- Some way to the entry of a node passes a pinned node or a kill without passing the fact
after it. -/
inductive Missed (p : Flow) (f : Nat) : Nat → Prop
  | pinned {j : Nat} (h : p.pinned j = true) : Missed p f j
  | killed {i j : Nat} (hi : p.Reached i) (hj : i ∈ p.sources j) (hk : f ∈ p.kill i) (hg :
    f ∉ p.gen i) : Missed p f j
  | passed {i j : Nat} (hi : Missed p f i) (hj : i ∈ p.sources j) (hg : f ∉ p.gen i) : Missed p f j

structure Solution (p : Flow) (s : State) : Prop where
  entry_count : s.entry.members.size = p.size
  exit_count : s.exit.members.size = p.size
  entry_size : ∀ j < p.size, (s.entry.of j).size = p.width
  exit_size : ∀ j < p.size, (s.exit.of j).size = p.width
  entry_pinned : ∀ j < p.size, p.pinned j = true → ∀ f, f ∉ s.entry.of j
  entry_iff : ∀ j, p.Reached j → p.pinned j = false →
    ∀ f, f ∈ s.entry.of j ↔ f < p.width ∧ ∀ i ∈ p.sources j, f ∈ s.exit.of i
  exit_iff : ∀ j, p.Reached j → ∀ f, f ∈ s.exit.of j ↔ f ∈ p.gen j ∨
    (f ∈ s.entry.of j ∧ f ∉ p.kill j)
  entry_full : ∀ j < p.size, ¬ p.Reached j → ∀ f < p.width, f ∈ s.entry.of j
  exit_full : ∀ j < p.size, ¬ p.Reached j → ∀ f < p.width, f ∈ s.exit.of j
  missed : ∀ j < p.size, ∀ f < p.width, f ∉ s.entry.of j → p.Missed f j

structure Progress (p : Flow) (w : Worklist) (s : State) : Prop where
  entry_count : s.entry.members.size = p.size
  exit_count : s.exit.members.size = p.size
  entry_size : ∀ j < p.size, (s.entry.of j).size = p.width
  exit_size : ∀ j < p.size, (s.exit.of j).size = p.width
  entry_pinned : ∀ j < p.size, p.pinned j = true → ∀ f, f ∉ s.entry.of j
  unseen_entry : ∀ j < p.size, ¬ w.isSeen j → p.pinned j = false → ∀ f < p.width, f ∈ s.entry.of j
  unseen_exit : ∀ j < p.size, ¬ w.isSeen j → ∀ f < p.width, f ∈ s.exit.of j
  seen_exit : ∀ j < p.size, w.isSeen j → ∀ f, f ∈ s.exit.of j ↔ f ∈ p.gen j ∨
    (f ∈ s.entry.of j ∧ f ∉ p.kill j)
  settled : ∀ j < p.size, w.isSeen j → j ∉ w.queue → p.pinned j = false →
    ∀ i ∈ p.sources j, ∀ f ∈ s.entry.of j, f ∈ s.exit.of i
  covered : ∀ j < p.size, p.pinned j = false → ∀ f < p.width, (∀ i ∈ p.sources j, f ∈ s.exit.of i) →
    f ∈ s.entry.of j
  ahead : ∀ i < p.size, w.isSeen i → ∀ j ∈ p.sinks i, w.isSeen j ∨ j ∈ w.queue
  seeded : ∀ j < p.size, p.pinned j = true → w.isSeen j ∨ j ∈ w.queue
  reached : ∀ j, w.isSeen j ∨ j ∈ w.queue → p.Reached j
  missed : ∀ j < p.size, ∀ f < p.width, f ∉ s.entry.of j → p.Missed f j

theorem Reached.lt {p : Flow} (hp : p.Regular) {j : Nat} (h : p.Reached j) : j < p.size := by
  induction h with
  | seed hi _ => exact hi
  | next _ h ih => exact hp.sinks_lt _ ih _ h

theorem mem_meet (p : Flow) (s : State) (i f : Nat) :
    f ∈ p.meet s i ↔ f ∈ s.entry.of i ∧ (p.pinned i = false → ∀ j ∈ p.sources i,
      f ∈ s.exit.of j) := by
  unfold meet
  cases h : p.pinned i with
  | true => simp
  | false => simp [BitSet.mem_foldl_inter]

theorem mem_transfer (p : Flow) (i : Nat) (x : BitSet) (f : Nat) :
    f ∈ p.transfer i x ↔ f ∈ p.gen i ∨ (f ∈ x ∧ f ∉ p.kill i) := by
  unfold transfer
  rw [BitSet.mem_union, BitSet.mem_diff]
  exact or_comm

namespace Progress

variable {p : Flow} {w w' : Worklist} {s : State} {i : Nat}

theorem meet_size (hp : p.Regular) (h : p.Progress w s) (hi : i < p.size) :
    (p.meet s i).size = p.width := by
  unfold meet
  split
  · exact h.entry_size i hi
  · exact BitSet.size_foldl_inter (h.entry_size i hi) fun j hj =>
      h.exit_size j (hp.sources_lt i hi j hj)

theorem transfer_size (hp : p.Regular) (h : p.Progress w s) (hi : i < p.size) :
    (p.transfer i (p.meet s i)).size = p.width := by
  simp [transfer, meet_size hp h hi, hp.gen_size i hi]

theorem meet_subset {f : Nat} (hf : f ∈ p.meet s i) : f ∈ s.entry.of i :=
  ((mem_meet p s i f).1 hf).1

theorem transfer_subset (hp : p.Regular) (h : p.Progress w s) (hi : i < p.size) {f : Nat}
    (hf : f ∈ p.transfer i (p.meet s i)) : f ∈ s.exit.of i := by
  by_cases hs : w.isSeen i
  · rw [h.seen_exit i hi hs]
    rcases (mem_transfer p i _ f).1 hf with hg | ⟨hm, hk⟩
    · exact Or.inl hg
    · exact Or.inr ⟨meet_subset hm, hk⟩
  · have hlt := BitSet.lt_size hf
    rw [transfer_size hp h hi] at hlt
    exact h.unseen_exit i hi hs f hlt

theorem entry_visit (h : p.Progress w s) (hi : i < p.size) (j : Nat) :
    (p.visit i s).1.entry.of j = if i = j then p.meet s i else s.entry.of j := by
  simp [visit, Family.of_set, h.entry_count, hi]

theorem exit_visit (h : p.Progress w s) (hi : i < p.size) (j : Nat) :
    (p.visit i s).1.exit.of j = if i = j then p.transfer i (p.meet s i) else s.exit.of j := by
  simp [visit, Family.of_set, h.exit_count, hi]

def changes (p : Flow) (s : State) (i : Nat) : Prop :=
  p.meet s i ≠ s.entry.of i ∨ p.transfer i (p.meet s i) ≠ s.exit.of i

theorem mem_updates {j : Nat} {b : Bool} :
    (j, b) ∈ (p.visit i s).2 ↔ j ∈ p.sinks i ∧ (b = true ↔ changes p s i) := by
  simp only [visit, List.mem_map, Prod.mk.injEq, changes]
  constructor
  · rintro ⟨k, hk, rfl, rfl⟩
    refine ⟨hk, ?_⟩
    simp only [Bool.or_eq_true, bne_iff_ne]
  · rintro ⟨hj, hb⟩
    refine ⟨j, hj, rfl, ?_⟩
    rw [Bool.eq_iff_iff, hb]
    simp only [Bool.or_eq_true, bne_iff_ne]

theorem exit_mono (hp : p.Regular) (h : p.Progress w s) (hi : i < p.size) {j f : Nat}
    (hf : f ∈ (p.visit i s).1.exit.of j) : f ∈ s.exit.of j := by
  rw [exit_visit h hi] at hf
  split at hf
  · next e => exact e ▸ transfer_subset hp h hi hf
  · exact hf

/-- Who waits after a visit. -/
theorem queue_visit (hp : p.Regular) (hv : w'.Valid p.size) (hpop : w.Popped i w') (hi : i < p.size)
    {j : Nat} :
    j ∈ (w'.updateAll (p.visit i s).2).queue ↔
      j ∈ w'.queue ∨ (j ∈ p.sinks i ∧ (changes p s i ∨ ¬ (j = i ∨ w.isSeen j))) := by
  have hu : ∀ u ∈ (p.visit i s).2, u.1 < p.size :=
    fun u hu => hp.sinks_lt i hi u.1 (mem_updates.1 hu).1
  rw [Worklist.mem_updateAll hv hu]
  simp only [mem_updates, hpop.seen]
  refine or_congr Iff.rfl ⟨?_, ?_⟩
  · rintro ⟨b, ⟨hj, hb⟩, h⟩
    exact ⟨hj, h.imp hb.1 id⟩
  · rintro ⟨hj, h⟩
    by_cases hc : changes p s i
    · exact ⟨true, ⟨hj, by simp [hc]⟩, Or.inl rfl⟩
    · exact ⟨false, ⟨hj, by simp [hc]⟩, Or.inr (h.resolve_left hc)⟩

/-- A node that waits for nothing after a visit did not wait before, and nothing changed
behind it. -/
theorem settled_visit (hp : p.Regular) (h : p.Progress w s) (hv : w'.Valid p.size)
    (hpop : w.Popped i w') (hi : i < p.size) {j : Nat} (hj : j < p.size) (hs : j = i ∨ w.isSeen j)
    (hq : j ∉ (w'.updateAll (p.visit i s).2).queue) (hpin : p.pinned j = false) {k : Nat}
    (hk : k ∈ p.sources j) {f : Nat} (hf : f ∈ (p.visit i s).1.entry.of j) :
    f ∈ (p.visit i s).1.exit.of k := by
  rw [queue_visit hp hv hpop hi] at hq
  push Not at hq
  have hold : f ∈ s.exit.of k := by
    rw [entry_visit h hi] at hf
    split at hf
    · next e => subst e; exact ((mem_meet p s i f).1 hf).2 hpin k hk
    · next e =>
      have hjw : j ∉ w.queue := by
        rw [hpop.queue, List.mem_cons]
        exact fun hm => hm.elim (fun he => e he.symm) hq.1
      exact h.settled j hj (hs.resolve_left fun he => e he.symm) hjw hpin k hk f hf
  rw [exit_visit h hi]
  split
  · next e =>
    subst e
    have hc := (hq.2 ((hp.mem_sinks i hi j hj).2 hk)).1
    unfold changes at hc
    push Not at hc
    rw [hc.2]
    exact hold
  · exact hold

theorem missed_visit (hp : p.Regular) (h : p.Progress w s) (hi : i < p.size) {j : Nat}
    (hj : j < p.size) {f : Nat} (hf : f < p.width) (hn : f ∉ (p.visit i s).1.entry.of j) :
    p.Missed f j := by
  rw [entry_visit h hi] at hn
  split at hn
  · next e =>
    subst e
    rw [mem_meet] at hn
    by_cases he : f ∈ s.entry.of i
    · push Not at hn
      obtain ⟨hpin, k, hk, hx⟩ := hn he
      have hks := hp.sources_lt i hi k hk
      have hseen : w.isSeen k := by
        by_contra hs
        exact hx (h.unseen_exit k hks hs f hf)
      rw [h.seen_exit k hks hseen] at hx
      push Not at hx
      by_cases hm : f ∈ s.entry.of k
      · exact .killed (h.reached k (Or.inl hseen)) hk (hx.2 hm) hx.1
      · exact .passed (h.missed k hks f hf hm) hk hx.1
    · exact h.missed i hi f hf he
  · exact h.missed j hj f hf hn

theorem visit (hp : p.Regular) (h : p.Progress w s) (hv : w'.Valid p.size) (hi : i < p.size)
    (hpop : w.Popped i w') : p.Progress (w'.updateAll (p.visit i s).2) (p.visit i s).1 where
  entry_count := by simp [Flow.visit, h.entry_count]
  exit_count := by simp [Flow.visit, h.exit_count]
  entry_size j hj := by
    rw [entry_visit h hi]
    split
    · exact meet_size hp h hi
    · exact h.entry_size j hj
  exit_size j hj := by
    rw [exit_visit h hi]
    split
    · exact transfer_size hp h hi
    · exact h.exit_size j hj
  entry_pinned j hj hpin f hf := by
    rw [entry_visit h hi] at hf
    split at hf
    · next e => exact h.entry_pinned i hi (e ▸ hpin) f (meet_subset hf)
    · exact h.entry_pinned j hj hpin f hf
  unseen_entry j hj hs hpin f hf := by
    rw [hpop.isSeen_updateAll] at hs
    push Not at hs
    rw [entry_visit h hi, if_neg hs.1.symm]
    exact h.unseen_entry j hj hs.2 hpin f hf
  unseen_exit j hj hs f hf := by
    rw [hpop.isSeen_updateAll] at hs
    push Not at hs
    rw [exit_visit h hi, if_neg hs.1.symm]
    exact h.unseen_exit j hj hs.2 f hf
  seen_exit j hj hs f := by
    rw [hpop.isSeen_updateAll] at hs
    rw [exit_visit h hi, entry_visit h hi]
    split
    · next e => subst e; exact mem_transfer p i _ f
    · next e => exact h.seen_exit j hj (hs.resolve_left fun he => e he.symm) f
  settled j hj hs hq hpin k hk f hf :=
    settled_visit hp h hv hpop hi hj ((hpop.isSeen_updateAll).1 hs) hq hpin hk hf
  covered j hj hpin f hf hall := by
    have hold : ∀ k ∈ p.sources j, f ∈ s.exit.of k := fun k hk => exit_mono hp h hi (hall k hk)
    have he := h.covered j hj hpin f hf hold
    rw [entry_visit h hi]
    split
    · next e => subst e; exact (mem_meet p s i f).2 ⟨he, fun _ => hold⟩
    · exact he
  ahead k hk hs j hj := by
    rw [hpop.isSeen_updateAll] at hs
    rw [hpop.isSeen_updateAll, queue_visit hp hv hpop hi]
    rcases hs with rfl | hs
    · by_cases hjs : j = k ∨ w.isSeen j
      · exact Or.inl hjs
      · exact Or.inr (Or.inr ⟨hj, Or.inr hjs⟩)
    · exact (hpop.seen_or_waits (h.ahead k hk hs j hj)).imp_right Or.inl
  seeded j hj hpin := by
    rw [hpop.isSeen_updateAll, queue_visit hp hv hpop hi]
    exact (hpop.seen_or_waits (h.seeded j hj hpin)).imp_right Or.inl
  reached j hj := by
    have hri : p.Reached i := h.reached i (Or.inr (by simp [hpop.queue]))
    rw [hpop.isSeen_updateAll, queue_visit hp hv hpop hi] at hj
    rcases hj with (rfl | hs) | (hq | ⟨hm, _⟩)
    · exact hri
    · exact h.reached j (Or.inl hs)
    · exact h.reached j (Or.inr (by simp [hpop.queue, hq]))
    · exact hri.next hm
  missed j hj f hf hn := missed_visit hp h hi hj hf hn

end Progress

/-- The members that can still be lost, each counted once for every sink that would be told. -/
def cost (p : Flow) (s : State) : Nat :=
  ∑ j ∈ Finset.range p.size, ((s.entry.of j).card + (s.exit.of j).card) * (p.sinks j).length

theorem cost_visit {p : Flow} (hp : p.Regular) {w : Worklist} {s : State} (h : p.Progress w s)
    {i : Nat} (hi : i < p.size) :
    p.cost (p.visit i s).1 + (p.visit i s).2.countP (·.2) ≤ p.cost s := by
  have hsplit : ∀ t : State, p.cost t =
      ((t.entry.of i).card + (t.exit.of i).card) * (p.sinks i).length +
      ∑ j ∈ (Finset.range p.size).erase i, ((t.entry.of j).card + (t.exit.of j).card) *
        (p.sinks j).length :=
    fun t => (Finset.add_sum_erase _ _ (Finset.mem_range.2 hi)).symm
  have hrest : ∑ j ∈ (Finset.range p.size).erase i,
        (((p.visit i s).1.entry.of j).card + ((p.visit i s).1.exit.of j).card) *
          (p.sinks j).length =
      ∑ j ∈ (Finset.range p.size).erase i, ((s.entry.of j).card + (s.exit.of j).card) *
        (p.sinks j).length := by
    refine Finset.sum_congr rfl fun j hj => ?_
    have hne : i ≠ j := fun e => (Finset.mem_erase.1 hj).1 e.symm
    rw [Progress.entry_visit h hi, Progress.exit_visit h hi, if_neg hne, if_neg hne]
  rw [hsplit, hsplit s, hrest, Progress.entry_visit h hi, Progress.exit_visit h hi,
    if_pos rfl, if_pos rfl]
  have hx : (p.meet s i).size = (s.entry.of i).size := by
    rw [Progress.meet_size hp h hi, h.entry_size i hi]
  have hy : (p.transfer i (p.meet s i)).size = (s.exit.of i).size := by
    rw [Progress.transfer_size hp h hi, h.exit_size i hi]
  have h1 := BitSet.card_le hx fun f hf => Progress.meet_subset hf
  have h2 := BitSet.card_le hy fun f hf => Progress.transfer_subset hp h hi hf
  by_cases hc : Progress.changes p s i
  · have hlt : (p.meet s i).card + (p.transfer i (p.meet s i)).card + 1 ≤ (s.entry.of i).card +
        (s.exit.of i).card := by
      rcases hc with hc | hc
      · have := BitSet.card_lt hx (fun f hf => Progress.meet_subset hf) hc
        omega
      · have := BitSet.card_lt hy (fun f hf => Progress.transfer_subset hp h hi hf) hc
        omega
    have hcount : (p.visit i s).2.countP (·.2) ≤ (p.sinks i).length := by
      refine List.countP_le_length.trans ?_
      simp [visit]
    have := Nat.mul_le_mul_right (p.sinks i).length hlt
    rw [Nat.add_mul, Nat.one_mul] at this
    omega
  · have hcount : (p.visit i s).2.countP (·.2) = 0 := by
      rw [List.countP_eq_zero]
      rintro ⟨j, b⟩ hu hb
      exact hc ((Progress.mem_updates.1 hu).2.1 hb)
    have := Nat.mul_le_mul_right (p.sinks i).length (Nat.add_le_add h1 h2)
    omega

theorem cost_start (p : Flow) : p.cost p.start ≤ 2 * p.width * p.arcs := by
  have harcs : p.arcs = ∑ j ∈ Finset.range p.size, (p.sinks j).length := by
    unfold arcs
    rw [List.length_flatMap, ← List.sum_toFinset _ List.nodup_range, List.toFinset_range]
  rw [harcs, Finset.mul_sum]
  refine Finset.sum_le_sum fun j hj => Nat.mul_le_mul_right _ ?_
  have hj' := Finset.mem_range.1 hj
  have h1 : (p.start.entry.of j).size = p.width := by
    simp only [start, Family.of_ofFn hj']
    split <;> rfl
  have h2 : (p.start.exit.of j).size = p.width := by simp [start, Family.of_replicate hj']
  have := (p.start.entry.of j).card_le_size
  have := (p.start.exit.of j).card_le_size
  omega

def seeds (p : Flow) : Worklist := ((List.range p.size).filter p.pinned).foldl .push (.empty p.size)

theorem foldl_push {n : Nat} {w : Worklist} (hw : w.Valid n) (hs : ∀ j, ¬ w.isSeen j) (l : List Nat)
    (hl : ∀ i ∈ l, i < n) :
    (l.foldl Worklist.push w).Valid n ∧ (∀ j, ¬ (l.foldl Worklist.push w).isSeen j) ∧
      (l.foldl Worklist.push w).due n ≤ w.due n ∧
      ∀ j, j ∈ (l.foldl Worklist.push w).queue ↔ j ∈ l ∨ j ∈ w.queue := by
  induction l generalizing w with
  | nil => exact ⟨hw, hs, Nat.le_refl _, by simp⟩
  | cons a t ih =>
    have ha : a < n := hl a (by simp)
    obtain ⟨h1, h2, h3, h4⟩ := ih (hw.push ha) (fun j => by rw [Worklist.isSeen_push]; exact hs j)
      fun i hi => hl i (by simp [hi])
    refine ⟨h1, h2, h3.trans ?_, fun j => ?_⟩
    · have := Worklist.due_push_le hw ha
      simpa [hs a] using this
    · rw [List.foldl_cons, h4, Worklist.mem_push hw, List.mem_cons]
      tauto

theorem seeds_spec (p : Flow) :
    p.seeds.Valid p.size ∧ (∀ j, ¬ p.seeds.isSeen j) ∧ p.seeds.due p.size ≤ p.size ∧
    ∀ j, j ∈ p.seeds.queue ↔ j < p.size ∧ p.pinned j = true := by
  obtain ⟨hv, hs, hd, hq⟩ := foldl_push (Worklist.valid_empty p.size) (Worklist.isSeen_empty p.size)
    ((List.range p.size).filter p.pinned) fun i hi => by simpa using (List.mem_filter.1 hi).1
  refine ⟨hv, hs, by simpa [seeds, Worklist.due_empty] using hd, fun j => (hq j).trans ?_⟩
  simp [Worklist.empty]

theorem progress_start (p : Flow) : p.Progress p.seeds p.start := by
  obtain ⟨-, hs, -, hq⟩ := seeds_spec p
  refine
    { entry_count := by simp [start]
      exit_count := by simp [start]
      entry_size := fun j hj => ?_
      exit_size := fun j hj => by simp [start, Family.of_replicate hj]
      entry_pinned := fun j hj hpin f => by simp [start, Family.of_ofFn hj, hpin]
      unseen_entry := fun j hj _ hpin f hf => by simpa [start, Family.of_ofFn hj, hpin] using hf
      unseen_exit := fun j hj _ f hf => by simpa [start, Family.of_replicate hj] using hf
      seen_exit := fun j _ h => absurd h (hs j)
      settled := fun j _ h => absurd h (hs j)
      covered := fun j hj hpin f hf _ => by simpa [start, Family.of_ofFn hj, hpin] using hf
      ahead := fun i _ h => absurd h (hs i)
      seeded := fun j hj hpin => Or.inr ((hq j).2 ⟨hj, hpin⟩)
      reached := fun j h => ?_
      missed := fun j hj f hf hn => ?_ }
  · simp only [start, Family.of_ofFn hj]
    split <;> rfl
  · have := (hq j).1 (h.resolve_left (hs j))
    exact .seed this.1 this.2
  · cases hpin : p.pinned j with
    | true => exact .pinned hpin
    | false => exact absurd (by simpa [start, Family.of_ofFn hj, hpin] using hf) hn

theorem visit_lt {p : Flow} (hp : p.Regular) :
    ∀ i s, i < p.size → ∀ u ∈ (p.visit i s).2, u.1 < p.size :=
  fun i _ hi u hu => hp.sinks_lt i hi u.1 (Progress.mem_updates.1 hu).1

theorem solve_progress {p : Flow} (hp : p.Regular) :
    p.solve.1.queue = [] ∧ p.Progress p.solve.1 p.solve.2 := by
  obtain ⟨hv, -, hd, -⟩ := seeds_spec p
  refine Worklist.settle_induct p.visit p.size p.Progress p.cost (visit_lt hp) ?_ ?_ _ _ _ hv
    (progress_start p) ?_
  · intro i w w' s _ hv' hi hpop h
    exact h.visit hp hv' hi hpop
  · intro i w s hi h
    exact cost_visit hp h hi
  · exact Nat.add_le_add hd (cost_start p)

theorem isSeen_solve {p : Flow} (hp : p.Regular) {j : Nat} : p.solve.1.isSeen j ↔ p.Reached j := by
  obtain ⟨hq, h⟩ := solve_progress hp
  refine ⟨fun hs => h.reached j (Or.inl hs), fun hr => ?_⟩
  induction hr with
  | seed hi hpin => exact (h.seeded _ hi hpin).resolve_right (by simp [hq])
  | next hi hj ih => exact (h.ahead _ (hi.lt hp) ih _ hj).resolve_right (by simp [hq])

def visited (p : Flow) : List Nat :=
  Worklist.served p.visit (p.size + 2 * p.width * p.arcs) p.seeds p.start

theorem steps_seeds (p : Flow) : p.seeds.steps = 0 := by
  have hfold : ∀ (l : List Nat) (w : Worklist), (l.foldl Worklist.push w).steps = w.steps := by
    intro l
    induction l with
    | nil => exact fun _ => rfl
    | cons a t ih => exact fun w => (ih (w.push a)).trans (Worklist.steps_push w a)
  exact hfold _ _

theorem steps_solve (p : Flow) : p.solve.1.steps = p.visited.length := by
  have h := Worklist.steps_settle p.visit (p.size + 2 * p.width * p.arcs) p.seeds p.start
  rw [steps_seeds, Nat.zero_add] at h
  exact h

/-- The nodes that come after a pinned one are visited, and no others. -/
theorem mem_visited {p : Flow} (hp : p.Regular) {j : Nat} : j ∈ p.visited ↔ p.Reached j := by
  obtain ⟨hv, hs, -, -⟩ := seeds_spec p
  have h := Worklist.isSeen_settle (visit_lt hp) (p.size + 2 * p.width * p.arcs) hv p.start j
  rw [or_iff_right (hs j)] at h
  exact h.symm.trans (isSeen_solve hp)

/-- The solver solves its problem. -/
theorem solution {p : Flow} (hp : p.Regular) : p.Solution p.solve.2 := by
  obtain ⟨hq, h⟩ := solve_progress hp
  have hseen : ∀ j, p.Reached j → p.solve.1.isSeen j := fun _ => (isSeen_solve hp).2
  have hunseen : ∀ j, ¬ p.Reached j → ¬ p.solve.1.isSeen j :=
    fun _ hr hs => hr ((isSeen_solve hp).1 hs)
  refine
    { entry_count := h.entry_count
      exit_count := h.exit_count
      entry_size := h.entry_size
      exit_size := h.exit_size
      entry_pinned := h.entry_pinned
      entry_iff := fun j hr hpin f =>
        ⟨fun hf => ?_, fun hf => h.covered j (hr.lt hp) hpin f hf.1 hf.2⟩
      exit_iff := fun j hr => h.seen_exit j (hr.lt hp) (hseen j hr)
      entry_full := fun j hj hr => ?_
      exit_full := fun j hj hr => h.unseen_exit j hj (hunseen j hr)
      missed := h.missed }
  · refine ⟨h.entry_size j (hr.lt hp) ▸ BitSet.lt_size hf, fun i hi => ?_⟩
    exact h.settled j (hr.lt hp) (hseen j hr) (by simp [hq]) hpin i hi f hf
  · cases hpin : p.pinned j with
    | true => exact absurd (.seed hj hpin) hr
    | false => exact h.unseen_entry j hj (hunseen j hr) hpin

/-- A node at which a fact is missed comes after a pinned node. -/
theorem Missed.reached {p : Flow} (hp : p.Regular) {f j : Nat} (h : p.Missed f j)
    (hj : j < p.size) : p.Reached j := by
  induction h with
  | pinned hpin => exact .seed hj hpin
  | killed hi hs _ _ => exact hi.next ((hp.mem_sinks _ (hi.lt hp) _ hj).2 hs)
  | passed _ hs _ ih =>
    have hi := hp.sources_lt _ hj _ hs
    exact (ih hi).next ((hp.mem_sinks _ hi _ hj).2 hs)

/-- The facts at the entry of a node are those that are not missed. -/
theorem Solution.mem_entry {p : Flow} (hp : p.Regular) {s : State} (h : p.Solution s) {f j : Nat}
    (hj : j < p.size) : f ∈ s.entry.of j ↔ f < p.width ∧ ¬ p.Missed f j := by
  constructor
  · intro hf
    refine ⟨h.entry_size j hj ▸ BitSet.lt_size hf, fun hm => ?_⟩
    -- on the way that misses it, the fact would have to hold all the way back
    have hexit : ∀ {i j : Nat}, p.Reached i → j < p.size → i ∈ p.sources j → f ∈ s.entry.of j →
        f ∈ s.exit.of i := by
      intro i j hi hj hs hf
      have hr : p.Reached j := hi.next ((hp.mem_sinks _ (hi.lt hp) _ hj).2 hs)
      cases hpin : p.pinned j with
      | true => exact absurd hf (h.entry_pinned j hj hpin f)
      | false => exact ((h.entry_iff j hr hpin f).1 hf).2 i hs
    induction hm with
    | pinned hpin => exact h.entry_pinned _ hj hpin f hf
    | killed hi hs hk hg =>
      rcases (h.exit_iff _ hi f).1 (hexit hi hj hs hf) with hgen | ⟨-, hnot⟩
      · exact hg hgen
      · exact hnot hk
    | passed hi hs hg ih =>
      have hlt := hp.sources_lt _ hj _ hs
      have hr := hi.reached hp hlt
      rcases (h.exit_iff _ hr f).1 (hexit hr hj hs hf) with hgen | ⟨hin, -⟩
      · exact hg hgen
      · exact ih hlt hin
  · rintro ⟨hlt, hno⟩
    by_contra hf
    exact hno (h.missed j hj f hlt hf)

end CodeMotion.Flow
