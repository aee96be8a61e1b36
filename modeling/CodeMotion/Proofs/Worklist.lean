import Mathlib
import CodeMotion.Table
import CodeMotion.Worklist

/-! Serving a worklist ends. A node waits at most once, and a node that was never taken out is
accepted once; every other acceptance is paid for by the state of the loop, whose cost goes down
whenever a visit reports a change. What every visit keeps holds in the end, with an empty queue. -/

namespace CodeMotion.Worklist

def isSeen (w : Worklist) (i : Nat) : Prop := w.seen.getD i false = true

instance (w : Worklist) (i : Nat) : Decidable (w.isSeen i) := inferInstanceAs (Decidable (_ = true))

/-- What holds of every worklist for `n` nodes that is used with numbers below `n`. -/
structure Valid (n : Nat) (w : Worklist) : Prop where
  seen_size : w.seen.size = n
  queued_size : w.queued.size = n
  nodup : w.queue.Nodup
  mem_queue : ∀ i, i ∈ w.queue ↔ w.queued.getD i false = true

def updateAll (w : Worklist) (us : List (Nat × Bool)) : Worklist :=
  us.foldl (fun w u => w.update u.1 u.2) w

theorem Valid.lt {n : Nat} {w : Worklist} (h : w.Valid n) {i : Nat} (hi : i ∈ w.queue) : i < n := by
  have hq := (h.mem_queue i).1 hi
  by_contra hn
  have : w.queued.getD i false = false := by
    simp [Array.getD, h.queued_size, hn]
  simp [this] at hq

theorem isSeen_empty (n i : Nat) : ¬ (empty n).isSeen i := by
  by_cases h : i < n <;> simp [isSeen, empty, Array.getD, h]

theorem valid_empty (n : Nat) : (empty n).Valid n := by
  refine ⟨by simp [empty], by simp [empty], by simp [empty], fun i => ?_⟩
  by_cases h : i < n <;> simp [empty, Array.getD, h]

@[simp] theorem seen_push (w : Worklist) (i : Nat) : (w.push i).seen = w.seen := by
  unfold push; split <;> rfl

theorem isSeen_push {w : Worklist} {i j : Nat} : (w.push i).isSeen j ↔ w.isSeen j := by
  simp [isSeen]

theorem push_of_mem {n : Nat} {w : Worklist} (h : w.Valid n) {i : Nat} (hi : i ∈ w.queue) :
    w.push i = w := by
  unfold push
  rw [if_pos ((h.mem_queue i).1 hi)]

theorem queue_push {n : Nat} {w : Worklist} (h : w.Valid n) {i : Nat} (hi : i ∉ w.queue) :
    (w.push i).queue = w.queue ++ [i] := by
  unfold push
  rw [if_neg (by rw [← h.mem_queue]; exact hi)]

theorem mem_push {n : Nat} {w : Worklist} (h : w.Valid n) (i : Nat) {j : Nat} :
    j ∈ (w.push i).queue ↔ j = i ∨ j ∈ w.queue := by
  by_cases hq : i ∈ w.queue
  · rw [push_of_mem h hq]
    exact ⟨Or.inr, fun hj => hj.elim (fun e => e ▸ hq) id⟩
  · simp [queue_push h hq, or_comm]

theorem Valid.push {n : Nat} {w : Worklist} (h : w.Valid n) {i : Nat} (hi : i < n) :
    (w.push i).Valid n := by
  unfold Worklist.push
  split
  · exact h
  · next hq =>
    have hni : i ∉ w.queue := fun hm => hq ((h.mem_queue i).1 hm)
    refine ⟨h.seen_size, by simp [h.queued_size], ?_, fun j => ?_⟩
    · exact List.nodup_append.2 ⟨h.nodup, by simp, by
        intro a ha b hb
        simp only [List.mem_singleton] at hb
        exact fun e => hni (hb ▸ e ▸ ha)⟩
    · rw [getD_setIfInBounds (h.queued_size ▸ hi)]
      rcases eq_or_ne i j with rfl | hj
      · simp
      · simp [hj, hj.symm, h.mem_queue]

theorem isSeen_update {w : Worklist} {i j : Nat} {b : Bool} :
    (w.update i b).isSeen j ↔ w.isSeen j := by
  unfold update
  split
  · exact isSeen_push
  · exact Iff.rfl

theorem Valid.update {n : Nat} {w : Worklist} (h : w.Valid n) {i : Nat} (hi : i < n) (b : Bool) :
    (w.update i b).Valid n := by
  unfold Worklist.update
  split
  · exact h.push hi
  · exact h

theorem mem_update {n : Nat} {w : Worklist} (h : w.Valid n) {i : Nat} {b : Bool} {j : Nat} :
    j ∈ (w.update i b).queue ↔ j ∈ w.queue ∨ (j = i ∧ (b = true ∨ ¬ w.isSeen i)) := by
  unfold update
  split
  · next hc =>
    have hc' : b = true ∨ ¬ w.isSeen i := by simpa [isSeen] using hc
    rw [mem_push h]
    tauto
  · next hc =>
    have hc' : ¬ (b = true ∨ ¬ w.isSeen i) := by simpa [isSeen] using hc
    tauto

theorem isSeen_updateAll {w : Worklist} {us : List (Nat × Bool)} {j : Nat} :
    (w.updateAll us).isSeen j ↔ w.isSeen j := by
  induction us generalizing w with
  | nil => rfl
  | cons u us ih => exact (ih (w := w.update u.1 u.2)).trans isSeen_update

theorem Valid.updateAll {n : Nat} {w : Worklist} (h : w.Valid n) {us : List (Nat × Bool)}
    (hu : ∀ u ∈ us, u.1 < n) : (w.updateAll us).Valid n := by
  induction us generalizing w with
  | nil => exact h
  | cons u us ih =>
    exact ih (h.update (hu u (by simp)) u.2) fun v hv => hu v (by simp [hv])

theorem mem_updateAll {n : Nat} {w : Worklist} (h : w.Valid n) {us : List (Nat × Bool)}
    (hu : ∀ u ∈ us, u.1 < n) {j : Nat} :
    j ∈ (w.updateAll us).queue ↔ j ∈ w.queue ∨ ∃ b, (j, b) ∈ us ∧ (b = true ∨ ¬ w.isSeen j) := by
  induction us generalizing w with
  | nil => simp [updateAll]
  | cons u us ih =>
    have hstep := ih (h.update (hu u (by simp)) u.2) fun v hv => hu v (by simp [hv])
    rw [show w.updateAll (u :: us) = (w.update u.1 u.2).updateAll us from rfl, hstep, mem_update h]
    simp only [isSeen_update, List.mem_cons]
    constructor
    · rintro ((hq | ⟨rfl, hb⟩) | ⟨b, hm, hb⟩)
      · exact Or.inl hq
      · exact Or.inr ⟨u.2, Or.inl rfl, hb⟩
      · exact Or.inr ⟨b, Or.inr hm, hb⟩
    · rintro (hq | ⟨b, rfl | hm, hb⟩)
      · exact Or.inl (Or.inl hq)
      · exact Or.inl (Or.inr ⟨rfl, hb⟩)
      · exact Or.inr ⟨b, hm, hb⟩

structure Popped (w : Worklist) (i : Nat) (w' : Worklist) : Prop where
  queue : w.queue = i :: w'.queue
  seen : ∀ j, w'.isSeen j ↔ j = i ∨ w.isSeen j
  fresh : i ∉ w'.queue

theorem Valid.pop {n : Nat} {w w' : Worklist} {i : Nat} (h : w.Valid n)
    (hp : w.pop? = some (i, w')) : w'.Valid n ∧ i < n ∧ w.Popped i w' := by
  unfold pop? at hp
  split at hp
  · simp at hp
  · next k rest hq =>
    simp only [Option.some.injEq, Prod.mk.injEq] at hp
    obtain ⟨rfl, rfl⟩ := hp
    have hi : k < n := h.lt (by simp [hq])
    have hnd := h.nodup
    rw [hq, List.nodup_cons] at hnd
    refine ⟨⟨by simp [h.seen_size], by simp [h.queued_size], hnd.2, fun j => ?_⟩, hi, hq,
      fun j => ?_, hnd.1⟩
    · rw [getD_setIfInBounds (h.queued_size ▸ hi)]
      have := h.mem_queue j
      rw [hq, List.mem_cons] at this
      rcases eq_or_ne k j with rfl | hj
      · simpa using hnd.1
      · simpa [hj, hj.symm] using this
    · unfold isSeen
      rw [getD_setIfInBounds (h.seen_size ▸ hi)]
      rcases eq_or_ne k j with rfl | hj
      · simp
      · simp [hj, hj.symm]

def idle (w : Worklist) (n : Nat) : Finset Nat :=
  (Finset.range n).filter fun j => ¬ w.isSeen j ∧ j ∉ w.queue

/-- The visits that are due even if nothing changes any more. -/
def due (w : Worklist) (n : Nat) : Nat := w.queue.length + (w.idle n).card

theorem due_empty (n : Nat) : (empty n).due n = n := by
  have : (empty n).idle n = Finset.range n := by
    unfold idle
    exact Finset.filter_true_of_mem fun j _ => ⟨isSeen_empty n j, by simp [empty]⟩
  rw [due, this]
  simp [empty]

theorem due_push_le {n : Nat} {w : Worklist} (h : w.Valid n) {i : Nat} (hi : i < n) :
    (w.push i).due n ≤ w.due n + if w.isSeen i then 1 else 0 := by
  by_cases hq : i ∈ w.queue
  · rw [push_of_mem h hq]
    exact Nat.le_add_right _ _
  · have hlen : (w.push i).queue.length = w.queue.length + 1 := by
      rw [queue_push h hq]
      simp
    have hidle : (w.push i).idle n = (w.idle n).erase i := by
      ext j
      simp only [idle, Finset.mem_filter, Finset.mem_range, Finset.mem_erase,
        isSeen_push, mem_push h]
      tauto
    unfold due
    rw [hlen, hidle]
    by_cases hs : w.isSeen i
    · have := Finset.card_erase_le (s := w.idle n) (a := i)
      simp only [hs, if_true]
      omega
    · have hm : i ∈ w.idle n := by simp [idle, hi, hs, hq]
      have := Finset.card_erase_add_one hm
      simp only [hs, if_false]
      omega

theorem due_update_le {n : Nat} {w : Worklist} (h : w.Valid n) {i : Nat} (hi : i < n) (b : Bool) :
    (w.update i b).due n ≤ w.due n + if b then 1 else 0 := by
  unfold update
  split
  · next hc =>
    refine (due_push_le h hi).trans (Nat.add_le_add_left ?_ _)
    cases b with
    | true => split <;> simp
    | false =>
      have : ¬ w.isSeen i := by simpa [isSeen] using hc
      simp [this]
  · exact Nat.le_add_right _ _

theorem due_updateAll_le {n : Nat} {w : Worklist} (h : w.Valid n) {us : List (Nat × Bool)}
    (hu : ∀ u ∈ us, u.1 < n) : (w.updateAll us).due n ≤ w.due n + us.countP (·.2) := by
  induction us generalizing w with
  | nil => exact Nat.le_refl _
  | cons u us ih =>
    have hv := h.update (hu u (by simp)) u.2
    have h1 := ih hv fun v hv => hu v (by simp [hv])
    have h2 := due_update_le h (hu u (by simp)) u.2
    rw [show w.updateAll (u :: us) = (w.update u.1 u.2).updateAll us from rfl, List.countP_cons]
    omega

theorem due_pop {n : Nat} {w w' : Worklist} {i : Nat} (hp : w.Popped i w') :
    w'.due n + 1 = w.due n := by
  have hidle : w'.idle n = w.idle n := by
    ext j
    simp only [idle, Finset.mem_filter, hp.seen, hp.queue, List.mem_cons]
    have := hp.fresh
    tauto
  simp only [due, hidle, hp.queue, List.length_cons]
  omega

theorem Popped.isSeen_updateAll {w w' : Worklist} {i : Nat} (h : w.Popped i w')
    {us : List (Nat × Bool)} {j : Nat} : (w'.updateAll us).isSeen j ↔ j = i ∨ w.isSeen j := by
  rw [Worklist.isSeen_updateAll, h.seen]

/-- No node is lost when one is taken out: what was seen or waited is seen now or waits still. -/
theorem Popped.seen_or_waits {w w' : Worklist} {i j : Nat} (h : w.Popped i w')
    (hj : w.isSeen j ∨ j ∈ w.queue) : (j = i ∨ w.isSeen j) ∨ j ∈ w'.queue := by
  rcases hj with hj | hj
  · exact Or.inl (Or.inr hj)
  · rw [h.queue, List.mem_cons] at hj
    exact hj.imp_left Or.inl

/-- The loop ends with an empty queue and keeps what every visit keeps, if each change that a visit
reports is paid for by its cost. -/
theorem settle_induct {σ : Type} (visit : Nat → σ → σ × List (Nat × Bool)) (n : Nat)
    (Inv : Worklist → σ → Prop) (cost : σ → Nat) (hlt : ∀ i s, i < n → ∀ u ∈ (visit i s).2, u.1 < n)
    (hinv : ∀ i w w' s, w.Valid n → w'.Valid n → i < n → w.Popped i w' → Inv w s →
      Inv (w'.updateAll (visit i s).2) (visit i s).1)
    (hcost : ∀ i w s, i < n → Inv w s → cost (visit i s).1 + (visit i s).2.countP (·.2) ≤ cost s)
    (fuel : Nat) (w : Worklist) (s : σ) (hv : w.Valid n) (hi : Inv w s)
    (hf : w.due n + cost s ≤ fuel) :
    (settle visit fuel w s).1.queue = [] ∧
      Inv (settle visit fuel w s).1 (settle visit fuel w s).2 := by
  induction fuel generalizing w s with
  | zero =>
    have : w.queue.length = 0 := by unfold due at hf; omega
    exact ⟨List.eq_nil_of_length_eq_zero this, hi⟩
  | succ fuel ih =>
    unfold settle
    cases hp : w.pop? with
    | none =>
      refine ⟨?_, hi⟩
      unfold pop? at hp
      split at hp
      · assumption
      · simp at hp
    | some r =>
      obtain ⟨i, w'⟩ := r
      obtain ⟨hv', hin, hpop⟩ := hv.pop hp
      have hu := hlt i s hin
      have h1 := due_updateAll_le hv' hu
      have h2 := hcost i w s hin hi
      have h3 := due_pop (n := n) hpop
      exact ih _ _ (hv'.updateAll hu) (hinv i w w' s hv hv' hin hpop hi) (by
        show (w'.updateAll (visit i s).2).due n + cost (visit i s).1 ≤ fuel
        omega)

def served {σ : Type} (visit : Nat → σ → σ × List (Nat × Bool)) : Nat → Worklist → σ → List Nat
  | 0, _, _ => []
  | fuel + 1, w, s =>
    match w.pop? with
    | none => []
    | some (i, w) => i :: served visit fuel (w.updateAll (visit i s).2) (visit i s).1

theorem steps_push (w : Worklist) (i : Nat) : (w.push i).steps = w.steps := by
  unfold push; split <;> rfl

theorem steps_updateAll (w : Worklist) (us : List (Nat × Bool)) :
    (w.updateAll us).steps = w.steps := by
  induction us generalizing w with
  | nil => rfl
  | cons u us ih =>
    refine (ih (w.update u.1 u.2)).trans ?_
    unfold update
    split
    · exact steps_push w u.1
    · rfl

theorem steps_pop {w w' : Worklist} {i : Nat} (hp : w.pop? = some (i, w')) :
    w'.steps = w.steps + 1 := by
  unfold pop? at hp
  split at hp
  · cases hp
  · cases hp
    rfl

def turn {σ : Type} (visit : Nat → σ → σ × List (Nat × Bool)) (r : Worklist × σ) : Worklist × σ :=
  match r.1.pop? with
  | none => r
  | some (i, w) => (w.updateAll (visit i r.2).2, (visit i r.2).1)

section Turns

variable {σ : Type} {visit : Nat → σ → σ × List (Nat × Bool)} {n : Nat} {w : Worklist} {s : σ}

theorem turn_of_queue {r : Worklist × σ} (h : r.1.queue = []) : turn visit r = r := by
  unfold turn pop?
  rw [h]

theorem settle_of_none (hp : w.pop? = none) (fuel : Nat) : settle visit fuel w s = (w, s) := by
  cases fuel with
  | zero => rfl
  | succ fuel => rw [settle, hp]

theorem settle_of_some {i : Nat} {w' : Worklist} (hp : w.pop? = some (i, w')) (fuel : Nat) :
    settle visit (fuel + 1) w s = settle visit fuel (w'.updateAll (visit i s).2) (visit i s).1 := by
  rw [settle, hp]
  rfl

theorem settle_succ (fuel : Nat) (w : Worklist) (s : σ) :
    settle visit (fuel + 1) w s = turn visit (settle visit fuel w s) := by
  induction fuel generalizing w s with
  | zero =>
    rw [settle, settle, turn]
    rfl
  | succ fuel ih =>
    cases hp : w.pop? with
    | none => rw [settle_of_none hp, settle_of_none hp, turn, hp]
    | some r => rw [settle_of_some hp, settle_of_some hp, ih]

/-- What every visit keeps holds at any time. -/
theorem settle_keeps {Inv : Worklist → σ → Prop} (hlt : ∀ i s, i < n → ∀ u ∈ (visit i s).2, u.1 < n)
    (hinv : ∀ i w w' s, w'.Valid n → i < n → w.Popped i w' → Inv w s →
      Inv (w'.updateAll (visit i s).2) (visit i s).1) (hv : w.Valid n) (hi : Inv w s) (fuel : Nat) :
    (settle visit fuel w s).1.Valid n ∧
      Inv (settle visit fuel w s).1 (settle visit fuel w s).2 := by
  induction fuel with
  | zero => exact ⟨hv, hi⟩
  | succ fuel ih =>
    rw [settle_succ, turn]
    cases hp : (settle visit fuel w s).1.pop? with
    | none => exact ih
    | some r =>
      obtain ⟨i, w'⟩ := r
      obtain ⟨hv', hin, hpop⟩ := ih.1.pop hp
      exact ⟨hv'.updateAll (hlt i _ hin), hinv i _ w' _ hv' hin hpop ih.2⟩

/-- A loop that has come to an empty queue is over, however many visits it is still allowed. -/
theorem settle_of_le {m fuel : Nat} (h : (settle visit m w s).1.queue = []) (hle : m ≤ fuel) :
    settle visit fuel w s = settle visit m w s := by
  induction fuel, hle using Nat.le_induction with
  | base => rfl
  | succ fuel _ ih => rw [settle_succ, ih, turn_of_queue h]

theorem steps_settle_le (fuel : Nat) (w : Worklist) (s : σ) :
    (settle visit fuel w s).1.steps ≤ w.steps + fuel := by
  induction fuel with
  | zero => exact Nat.le_refl _
  | succ fuel ih =>
    rw [settle_succ, turn]
    cases hp : (settle visit fuel w s).1.pop? with
    | none => exact Nat.le_succ_of_le ih
    | some r =>
      obtain ⟨i, w'⟩ := r
      rw [steps_updateAll, steps_pop hp]
      omega

end Turns

/-- The counter of a loop counts its visits. -/
theorem steps_settle {σ : Type} (visit : Nat → σ → σ × List (Nat × Bool)) (fuel : Nat)
    (w : Worklist) (s : σ) :
    (settle visit fuel w s).1.steps = w.steps + (served visit fuel w s).length := by
  induction fuel generalizing w s with
  | zero => rfl
  | succ fuel ih =>
    unfold settle served
    cases hp : w.pop? with
    | none => rfl
    | some r =>
      obtain ⟨i, w'⟩ := r
      have hstep := ih (w'.updateAll (visit i s).2) (visit i s).1
      rw [steps_updateAll, steps_pop hp] at hstep
      refine hstep.trans ?_
      rw [List.length_cons]
      omega

/-- A node is marked in the end if it was before or the loop has visited it. -/
theorem isSeen_settle {σ : Type} {visit : Nat → σ → σ × List (Nat × Bool)} {n : Nat}
    (hlt : ∀ i s, i < n → ∀ u ∈ (visit i s).2, u.1 < n) (fuel : Nat) {w : Worklist} (hv : w.Valid n)
    (s : σ) (j : Nat) :
    (settle visit fuel w s).1.isSeen j ↔ w.isSeen j ∨ j ∈ served visit fuel w s := by
  induction fuel generalizing w s with
  | zero => simp [settle, served]
  | succ fuel ih =>
    unfold settle served
    cases hp : w.pop? with
    | none => simp
    | some r =>
      obtain ⟨i, w'⟩ := r
      obtain ⟨hv', hi, hpop⟩ := hv.pop hp
      refine (ih (hv'.updateAll (hlt i s hi)) (visit i s).1).trans ?_
      rw [hpop.isSeen_updateAll, List.mem_cons]
      tauto

end CodeMotion.Worklist
