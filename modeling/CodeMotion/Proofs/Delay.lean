import Mathlib
import CodeMotion.Context.Placement
import CodeMotion.Proofs.Graph
import CodeMotion.Proofs.Numbering
import CodeMotion.Proofs.Worklist

/-! The delay loop solves its equations: what waits on an edge becomes necessary there or waits at
the start of its source without being used in it, and what waits at the start of a node waits on
every edge into it. It is the greatest solution: what does not wait at a node has lapsed on a path
to it. -/

namespace CodeMotion.Context

variable {c : Context} {s : Sets} {d : Delay} {w w' : Worklist} {k x : Nat}

def waitAt (c : Context) (d : Delay) (k : Nat) : BitSet :=
  if k = 0 then d.laterIn.of 0 else (c.node k).pred.foldl (fun x e => x ∩ d.later.of e)
    (d.laterIn.of k)

def waitOn (c : Context) (s : Sets) (d : Delay) (k x : Nat) : BitSet :=
  s.earliest.of x ∪ (c.waitAt d k \ s.up.of k)

theorem mem_waitAt {e : Nat} :
    e ∈ c.waitAt d k ↔ e ∈ d.laterIn.of k ∧ (k ≠ 0 → ∀ x ∈ (c.node k).pred, e ∈ d.later.of x) := by
  unfold waitAt
  by_cases hk : k = 0
  · simp [hk]
  · simp [hk, BitSet.mem_foldl_inter]

theorem mem_waitOn {e : Nat} :
    e ∈ c.waitOn s d k x ↔ e ∈ s.earliest.of x ∨ (e ∈ c.waitAt d k ∧ e ∉ s.up.of k) := by
  rw [waitOn, BitSet.mem_union, BitSet.mem_diff]

theorem foldl_delayEdge (y : BitSet) (l : List Nat) (hl : l.Nodup) (d : Delay)
    (us : List (Nat × Bool)) :
    l.foldl (c.delayEdge s y) (d, us) =
      ({ d with later := l.foldl (fun f x => f.set x (s.earliest.of x ∪ y)) d.later },
        us ++ l.map fun x => ((c.edge x).target, (s.earliest.of x ∪ y) != d.later.of x)) := by
  induction l generalizing d us with
  | nil => simp
  | cons a t ih =>
    obtain ⟨ha, ht⟩ := List.nodup_cons.1 hl
    rw [List.foldl_cons, delayEdge, ih ht]
    have : ∀ x ∈ t, (d.later.set a (s.earliest.of a ∪ y)).of x = d.later.of x :=
      fun x hx => Family.of_set_ne fun h => ha (h ▸ hx)
    simp only [List.foldl_cons, List.map_cons, List.append_assoc, List.singleton_append,
      Prod.mk.injEq, true_and]
    rw [List.map_congr_left fun x hx => by rw [this x hx]]

theorem of_foldl_set {g : Nat → BitSet} (l : List Nat) (f : Family)
    (hl : ∀ x ∈ l, x < f.members.size) :
    (l.foldl (fun f x => f.set x (g x)) f).of x = if x ∈ l then g x else f.of x := by
  induction l generalizing f with
  | nil => simp
  | cons a t ih =>
    rw [List.foldl_cons, ih _ fun y hy => by simpa using hl y (by simp [hy])]
    by_cases hx : x ∈ t
    · simp [hx]
    · by_cases ha : x = a
      · subst ha
        simp [hx, Family.of_set_self (hl x (by simp))]
      · simp [hx, ha, Family.of_set_ne fun h => ha h.symm]

theorem size_foldl_set {g : Nat → BitSet} (l : List Nat) (f : Family) :
    (l.foldl (fun f x => f.set x (g x)) f).members.size = f.members.size := by
  induction l generalizing f with
  | nil => rfl
  | cons a t ih => rw [List.foldl_cons, ih, Family.size_set]

theorem delayVisit_eq (hc : c.Wired) (hk : k < c.nodes.size) (d : Delay) :
    c.delayVisit s k d =
      ({ laterIn := d.laterIn.set k (c.waitAt d k)
         later := (c.node k).succ.foldl (fun f x => f.set x (c.waitOn s d k x)) d.later },
        (c.node k).succ.map fun x => ((c.edge x).target, c.waitOn s d k x != d.later.of x)) := by
  unfold delayVisit
  rw [foldl_delayEdge _ _ (hc.nodup_succ k hk)]
  rfl

/-- A path at whose end an expression does not wait: it has not become necessary since it was used,
or since the path began. -/
inductive Lapsed (c : Context) (up earliest : Family) (e : Nat) : List Nat → Nat → Prop
  | entry (h : 0 < c.nodes.size) : Lapsed c up earliest e [] 0
  | used {π : List Nat} {x : Nat} (h : c.Path π (c.edge x).source) (hx : x < c.edges.size)
    (hu : e ∈ up.of (c.edge x).source) (he : e ∉ earliest.of x) :
      Lapsed c up earliest e (π ++ [x]) (c.edge x).target
  | passed {π : List Nat} {x : Nat} (h : Lapsed c up earliest e π (c.edge x).source) (hx :
    x < c.edges.size)
    (he : e ∉ earliest.of x) : Lapsed c up earliest e (π ++ [x]) (c.edge x).target

theorem Lapsed.path {up earliest : Family} {e : Nat} {π : List Nat}
    (h : c.Lapsed up earliest e π k) : c.Path π k := by
  induction h with
  | entry h => exact .entry h
  | used h hx _ _ => exact .step h hx
  | passed _ hx _ ih => exact .step ih hx

theorem Lapsed.congr {d : Context} {up earliest : Family} {e : Nat} {π : List Nat}
    (h : c.Lapsed up earliest e π k) (hg : c.SameGraph d) : d.Lapsed up earliest e π k := by
  induction h with
  | entry h => exact .entry (hg.nodes_size ▸ h)
  | @used π x h hx hu he =>
    rw [← hg.target]
    exact .used (by rw [hg.source]; exact hg.path_iff.2 h) (hg.edges_size ▸ hx)
      (by rw [hg.source]; exact hu) he
  | @passed π x _ hx he ih =>
    rw [← hg.target]
    exact .passed (by rw [hg.source]; exact ih) (hg.edges_size ▸ hx) he

structure Waiting (c : Context) (s : Sets) (w : Worklist) (d : Delay) : Prop where
  laterIn_fits : d.laterIn.Fits c.nodes.size c.catalog.size
  later_fits : d.later.Fits c.edges.size c.catalog.size
  entry : ∀ e, e ∉ d.laterIn.of 0
  unseen_node : ∀ k < c.nodes.size, k ≠ 0 → ¬ w.isSeen k → ∀ e < c.catalog.size, e ∈ d.laterIn.of k
  unseen_edge : ∀ x < c.edges.size, ¬ w.isSeen (c.edge x).source →
    ∀ e < c.catalog.size, e ∈ d.later.of x
  seen_edge : ∀ x < c.edges.size, w.isSeen (c.edge x).source → ∀ e, e ∈ d.later.of x ↔
    e ∈ s.earliest.of x ∨ (e ∈ d.laterIn.of (c.edge x).source ∧ e ∉ s.up.of (c.edge x).source)
  settled : ∀ x < c.edges.size, (c.edge x).target ≠ 0 → w.isSeen (c.edge x).target →
    (c.edge x).target ∉ w.queue →
    ∀ e ∈ d.laterIn.of (c.edge x).target, e ∈ d.later.of x
  covered : ∀ k < c.nodes.size, k ≠ 0 → ∀ e < c.catalog.size, (∀ x ∈ (c.node k).pred,
    e ∈ d.later.of x) → e ∈ d.laterIn.of k
  ahead : ∀ x < c.edges.size, w.isSeen (c.edge x).source → w.isSeen (c.edge x).target ∨
    (c.edge x).target ∈ w.queue
  seeded : 0 < c.nodes.size → w.isSeen 0 ∨ 0 ∈ w.queue
  reached : ∀ k, w.isSeen k ∨ k ∈ w.queue → ∃ π, c.Path π k
  lapsed : ∀ k < c.nodes.size, ∀ e < c.catalog.size, e ∉ d.laterIn.of k →
    ∃ π, c.Lapsed s.up s.earliest e π k

namespace Waiting

theorem size_waitAt (hc : c.Wired) (h : Waiting c s w d) (hk : k < c.nodes.size) :
    (c.waitAt d k).size = c.catalog.size := by
  unfold waitAt
  split
  · next h0 => exact h.laterIn_fits.2 0 (h0 ▸ hk)
  · exact BitSet.size_foldl_inter (h.laterIn_fits.2 k hk) fun x hx =>
      h.later_fits.2 x ((hc.mem_pred k hk x).1 hx).1

theorem size_waitOn (hc : c.Wired) (hs : s.earliest.Fits c.edges.size c.catalog.size)
    (h : Waiting c s w d) (hk : k < c.nodes.size) (hx : x < c.edges.size) :
    (c.waitOn s d k x).size = c.catalog.size := by
  rw [waitOn, BitSet.size_union, BitSet.size_diff, size_waitAt hc h hk, hs.2 x hx, max_self]

/-- Visits only take away. -/
theorem waitOn_subset (hc : c.Wired) (hs : s.earliest.Fits c.edges.size c.catalog.size)
    (h : Waiting c s w d) (hk : k < c.nodes.size) (hx : x < c.edges.size)
    (hxk : (c.edge x).source = k) {e : Nat} (he : e ∈ c.waitOn s d k x) : e ∈ d.later.of x := by
  subst hxk
  by_cases hseen : w.isSeen (c.edge x).source
  · rw [h.seen_edge x hx hseen]
    rcases mem_waitOn.1 he with he | ⟨he, hu⟩
    · exact Or.inl he
    · exact Or.inr ⟨(mem_waitAt.1 he).1, hu⟩
  · have hlt := BitSet.lt_size he
    rw [size_waitOn hc hs h hk hx] at hlt
    exact h.unseen_edge x hx hseen e hlt

theorem laterIn_visit (hc : c.Wired) (h : Waiting c s w d) (hk : k < c.nodes.size) (j : Nat) :
    (c.delayVisit s k d).1.laterIn.of j = if k = j then c.waitAt d k else d.laterIn.of j := by
  rw [delayVisit_eq hc hk, Family.of_set]
  simp [h.laterIn_fits.1, hk]

theorem later_visit (hc : c.Wired) (h : Waiting c s w d) (hk : k < c.nodes.size)
    (hx : x < c.edges.size) :
    (c.delayVisit s k d).1.later.of x = if (c.edge x).source = k then c.waitOn s d k x
      else d.later.of x := by
  rw [delayVisit_eq hc hk]
  show ((c.node k).succ.foldl (fun f x => f.set x (c.waitOn s d k x)) d.later).of x = _
  rw [of_foldl_set _ _ fun y hy => by
    rw [h.later_fits.1]
    exact ((hc.mem_succ k hk y).1 hy).1]
  simp only [hc.mem_succ k hk x, hx, true_and]

/-- Who waits for a visit after a visit. -/
theorem queue_visit (hc : c.Wired) (hv : w'.Valid c.nodes.size) (hpop : w.Popped k w')
    (hk : k < c.nodes.size) {j : Nat} :
    j ∈ (w'.updateAll (c.delayVisit s k d).2).queue ↔ j ∈ w'.queue ∨
      ∃ x < c.edges.size, (c.edge x).source = k ∧
      (c.edge x).target = j ∧ (c.waitOn s d k x ≠ d.later.of x ∨ ¬ (j = k ∨ w.isSeen j)) := by
  rw [delayVisit_eq hc hk]
  rw [Worklist.mem_updateAll hv fun u hu => by
    obtain ⟨x, hx, rfl⟩ := List.mem_map.1 hu
    exact hc.target_lt x ((hc.mem_succ k hk x).1 hx).1]
  simp only [List.mem_map, Prod.mk.injEq, hpop.seen, hc.mem_succ k hk]
  refine or_congr Iff.rfl ⟨?_, ?_⟩
  · rintro ⟨b, ⟨x, ⟨hx, hxk⟩, rfl, rfl⟩, h⟩
    exact ⟨x, hx, hxk, rfl, h.imp (by simp) id⟩
  · rintro ⟨x, hx, hxk, rfl, h⟩
    exact ⟨_, ⟨x, ⟨hx, hxk⟩, rfl, rfl⟩, h.imp (by simp) id⟩

/-- What a visit takes away has lapsed on an edge into the node. -/
theorem lapsed_visit (hc : c.Wired) (h : Waiting c s w d) (hk : k < c.nodes.size) {e : Nat}
    (he : e < c.catalog.size) (hn : e ∉ c.waitAt d k) : ∃ π, c.Lapsed s.up s.earliest e π k := by
  by_cases hin : e ∈ d.laterIn.of k
  · rw [mem_waitAt] at hn
    push Not at hn
    obtain ⟨-, x, hx, hlater⟩ := hn hin
    obtain ⟨hlt, rfl⟩ := (hc.mem_pred k hk x).1 hx
    have hseen : w.isSeen (c.edge x).source := by
      by_contra hseen
      exact hlater (h.unseen_edge x hlt hseen e he)
    rw [h.seen_edge x hlt hseen] at hlater
    push Not at hlater
    by_cases hu : e ∈ s.up.of (c.edge x).source
    · obtain ⟨π, hπ⟩ := h.reached _ (Or.inl hseen)
      exact ⟨π ++ [x], .used hπ hlt hu hlater.1⟩
    · obtain ⟨π, hπ⟩ := h.lapsed _ (hc.source_lt x hlt) e he fun hl => hu (hlater.2 hl)
      exact ⟨π ++ [x], .passed hπ hlt hlater.1⟩
  · exact h.lapsed k hk e he hin

theorem settled_visit (hc : c.Wired) (h : Waiting c s w d) (hv : w'.Valid c.nodes.size)
    (hpop : w.Popped k w') (hk : k < c.nodes.size) (hx : x < c.edges.size)
    (h0 : (c.edge x).target ≠ 0) (hseen : (c.edge x).target = k ∨ w.isSeen (c.edge x).target)
    (hq : (c.edge x).target ∉ (w'.updateAll (c.delayVisit s k d).2).queue) {e : Nat}
    (he : e ∈ (c.delayVisit s k d).1.laterIn.of (c.edge x).target) :
    e ∈ (c.delayVisit s k d).1.later.of x := by
  rw [queue_visit hc hv hpop hk] at hq
  push Not at hq
  have hold : e ∈ d.later.of x := by
    rw [laterIn_visit hc h hk] at he
    split at he
    · next heq =>
      have hpred : x ∈ (c.node k).pred := (hc.mem_pred k hk x).2 ⟨hx, heq.symm⟩
      exact (mem_waitAt.1 he).2 (heq ▸ h0) x hpred
    · next hne =>
      refine h.settled x hx h0 (hseen.resolve_left fun h => hne h.symm) ?_ e he
      rw [hpop.queue, List.mem_cons]
      rintro (heq | hm)
      · exact hne heq.symm
      · exact hq.1 hm
  rw [later_visit hc h hk hx]
  split
  · next hsrc =>
    rw [(hq.2 x hx hsrc rfl).1]
    exact hold
  · exact hold

theorem visit (hc : c.Wired) (hs : s.earliest.Fits c.edges.size c.catalog.size)
    (h : Waiting c s w d) (hv : w'.Valid c.nodes.size) (hk : k < c.nodes.size)
    (hpop : w.Popped k w') :
    Waiting c s (w'.updateAll (c.delayVisit s k d).2) (c.delayVisit s k d).1 where
  laterIn_fits := by
    rw [delayVisit_eq hc hk]
    exact h.laterIn_fits.set (size_waitAt hc h hk)
  later_fits := by
    refine ⟨?_, fun x hx => ?_⟩
    · rw [delayVisit_eq hc hk]
      exact (size_foldl_set _ _).trans h.later_fits.1
    · rw [later_visit hc h hk hx]
      split
      · exact size_waitOn hc hs h hk hx
      · exact h.later_fits.2 x hx
  entry e he := by
    rw [laterIn_visit hc h hk] at he
    split at he
    · next h0 => exact h.entry e (h0 ▸ (mem_waitAt.1 he).1)
    · exact h.entry e he
  unseen_node j hj h0 hseen e he := by
    rw [hpop.isSeen_updateAll] at hseen
    push Not at hseen
    rw [laterIn_visit hc h hk, if_neg hseen.1.symm]
    exact h.unseen_node j hj h0 hseen.2 e he
  unseen_edge x hx hseen e he := by
    rw [hpop.isSeen_updateAll] at hseen
    push Not at hseen
    rw [later_visit hc h hk hx, if_neg hseen.1]
    exact h.unseen_edge x hx hseen.2 e he
  seen_edge x hx hseen e := by
    rw [hpop.isSeen_updateAll] at hseen
    rw [later_visit hc h hk hx, laterIn_visit hc h hk]
    by_cases hsrc : (c.edge x).source = k
    · rw [if_pos hsrc, if_pos hsrc.symm, hsrc]
      exact mem_waitOn
    · rw [if_neg hsrc, if_neg fun h => hsrc h.symm]
      exact h.seen_edge x hx (hseen.resolve_left hsrc) e
  settled x hx h0 hseen hq e he :=
    settled_visit hc h hv hpop hk hx h0 (hpop.isSeen_updateAll.1 hseen) hq he
  covered j hj h0 e he hall := by
    have hold : ∀ x ∈ (c.node j).pred, e ∈ d.later.of x := by
      intro x hx
      have hlt := ((hc.mem_pred j hj x).1 hx).1
      have hnew := hall x hx
      rw [later_visit hc h hk hlt] at hnew
      split at hnew
      · next hsrc => exact waitOn_subset hc hs h hk hlt hsrc hnew
      · exact hnew
    have hin := h.covered j hj h0 e he hold
    rw [laterIn_visit hc h hk]
    split
    · next heq =>
      subst heq
      exact mem_waitAt.2 ⟨hin, fun _ => hold⟩
    · exact hin
  ahead x hx hseen := by
    rw [hpop.isSeen_updateAll] at hseen
    rw [hpop.isSeen_updateAll, queue_visit hc hv hpop hk]
    rcases hseen with hsrc | hseen
    · by_cases ht : (c.edge x).target = k ∨ w.isSeen (c.edge x).target
      · exact Or.inl ht
      · exact Or.inr (Or.inr ⟨x, hx, hsrc, rfl, Or.inr ht⟩)
    · exact (hpop.seen_or_waits (h.ahead x hx hseen)).imp_right Or.inl
  seeded h0 := by
    rw [hpop.isSeen_updateAll, queue_visit hc hv hpop hk]
    exact (hpop.seen_or_waits (h.seeded h0)).imp_right Or.inl
  reached j hj := by
    have hpath : ∃ π, c.Path π k := h.reached k (Or.inr (by simp [hpop.queue]))
    rw [hpop.isSeen_updateAll, queue_visit hc hv hpop hk] at hj
    rcases hj with (rfl | hseen) | (hq | ⟨x, hx, hsrc, rfl, -⟩)
    · exact hpath
    · exact h.reached j (Or.inl hseen)
    · exact h.reached j (Or.inr (by simp [hpop.queue, hq]))
    · obtain ⟨π, hπ⟩ := hpath
      exact ⟨π ++ [x], .step (hsrc ▸ hπ) hx⟩
  lapsed j hj e he hn := by
    rw [laterIn_visit hc h hk] at hn
    split at hn
    · next heq => exact heq ▸ lapsed_visit hc h hk he hn
    · exact h.lapsed j hj e he hn

end Waiting

def delayCost (c : Context) (f : Family) : Nat := ∑ x ∈ Finset.range c.edges.size, (f.of x).card

theorem delayCost_set {f : Family} {y : BitSet} (hf : f.members.size = c.edges.size)
    (hx : x < c.edges.size) (hsize : y.size = (f.of x).size) (hsub : ∀ e ∈ y, e ∈ f.of x) :
    c.delayCost (f.set x y) + (if y = f.of x then 0 else 1) ≤ c.delayCost f := by
  have hsplit : ∀ g : Family, c.delayCost g = (g.of x).card + ∑ z ∈
      (Finset.range c.edges.size).erase x, (g.of z).card :=
    fun g => (Finset.add_sum_erase _ _ (Finset.mem_range.2 hx)).symm
  have hrest : ∑ z ∈ (Finset.range c.edges.size).erase x, ((f.set x y).of z).card =
      ∑ z ∈ (Finset.range c.edges.size).erase x, (f.of z).card := by
    refine Finset.sum_congr rfl fun z hz => ?_
    rw [Family.of_set_ne fun h => (Finset.mem_erase.1 hz).1 h.symm]
  rw [hsplit, hsplit f, hrest, Family.of_set_self (hf.symm ▸ hx)]
  split
  · next heq =>
    rw [heq]
    omega
  · next hne =>
    have := BitSet.card_lt hsize hsub hne
    omega

theorem delayCost_foldl {g : Nat → BitSet} (l : List Nat) (hl : l.Nodup) (f : Family)
    (hf : f.members.size = c.edges.size)
    (hg : ∀ x ∈ l, x < c.edges.size ∧ (g x).size = (f.of x).size ∧ ∀ e ∈ g x, e ∈ f.of x) :
    c.delayCost (l.foldl (fun f x => f.set x (g x)) f) + l.countP (fun x => g x != f.of x) ≤
      c.delayCost f := by
  induction l generalizing f with
  | nil => simp
  | cons a t ih =>
    obtain ⟨ha, ht⟩ := List.nodup_cons.1 hl
    obtain ⟨hlt, hsize, hsub⟩ := hg a (by simp)
    have hkeep : ∀ x ∈ t, (f.set a (g a)).of x = f.of x :=
      fun x hx => Family.of_set_ne fun h => ha (h ▸ hx)
    have h1 := ih ht (f.set a (g a)) (by simpa using hf) fun x hx => by
      rw [hkeep x hx]
      exact hg x (by simp [hx])
    have h2 := delayCost_set hf hlt hsize hsub
    have h3 : t.countP (fun x => g x != (f.set a (g a)).of x) = t.countP fun x => g x != f.of x :=
      List.countP_congr fun x hx => by rw [hkeep x hx]
    rw [h3] at h1
    rw [List.foldl_cons, List.countP_cons]
    by_cases heq : g a = f.of a
    · simp only [heq, if_true, bne_self_eq_false, Bool.false_eq_true, if_false] at h2 ⊢
      rw [heq] at h1
      omega
    · simp only [heq, if_false, bne_iff_ne, ne_eq, not_false_eq_true, if_true] at h2 ⊢
      omega

theorem delayCost_visit (hc : c.Wired) (hs : s.earliest.Fits c.edges.size c.catalog.size)
    (h : Waiting c s w d) (hk : k < c.nodes.size) :
    c.delayCost (c.delayVisit s k d).1.later + (c.delayVisit s k d).2.countP (·.2) ≤
      c.delayCost d.later := by
  rw [delayVisit_eq hc hk, List.countP_map]
  refine delayCost_foldl _ (hc.nodup_succ k hk) _ h.later_fits.1 fun x hx => ?_
  obtain ⟨hlt, hsrc⟩ := (hc.mem_succ k hk x).1 hx
  refine ⟨hlt, ?_, fun e he => Waiting.waitOn_subset hc hs h hk hlt hsrc he⟩
  rw [Waiting.size_waitOn hc hs h hk hlt, h.later_fits.2 x hlt]

theorem delayCost_start (c : Context) :
    c.delayCost c.delayStart.later ≤ c.catalog.size * c.edges.size := by
  unfold delayCost
  have hle : ∀ x ∈ Finset.range c.edges.size, (c.delayStart.later.of x).card ≤ c.catalog.size := by
    intro x hx
    rw [delayStart, Family.of_replicate (Finset.mem_range.1 hx)]
    exact BitSet.card_le_size _
  have := Finset.sum_le_card_nsmul _ _ _ hle
  rw [Finset.card_range, smul_eq_mul, Nat.mul_comm] at this
  exact this

theorem waiting_start (c : Context) (s : Sets) (w : Worklist) (hseen : ∀ j, ¬ w.isSeen j)
    (hq : ∀ j, j ∈ w.queue ↔ 0 < c.nodes.size ∧ j = 0) : Waiting c s w c.delayStart where
  laterIn_fits := Family.fits_ofFn fun k _ => by split <;> rfl
  later_fits := Family.fits_ofFn fun _ _ => rfl
  entry e he := by
    by_cases h0 : 0 < c.nodes.size
    · rw [delayStart, Family.of_ofFn h0, if_pos rfl] at he
      exact BitSet.not_mem_empty he
    · rw [Family.of_eq_default (by simpa [delayStart] using h0)] at he
      exact BitSet.not_mem_empty he
  unseen_node k hk h0 _ e he := by
    rw [delayStart, Family.of_ofFn hk, if_neg h0]
    exact BitSet.mem_full.2 he
  unseen_edge x hx _ e he := by
    rw [delayStart, Family.of_replicate hx]
    exact BitSet.mem_full.2 he
  seen_edge x _ h := absurd h (hseen _)
  settled x _ _ h := absurd h (hseen _)
  covered k hk h0 e he _ := by
    rw [delayStart, Family.of_ofFn hk, if_neg h0]
    exact BitSet.mem_full.2 he
  ahead x _ h := absurd h (hseen _)
  seeded h0 := Or.inr ((hq 0).2 ⟨h0, rfl⟩)
  reached k hk := by
    obtain ⟨h0, rfl⟩ := (hq k).1 (hk.resolve_left (hseen k))
    exact ⟨[], .entry h0⟩
  lapsed k hk e he hn := by
    by_cases h0 : k = 0
    · exact ⟨[], h0 ▸ .entry (h0 ▸ hk)⟩
    · rw [delayStart, Family.of_ofFn hk, if_neg h0] at hn
      exact absurd (BitSet.mem_full.2 he) hn

def delaySeed (c : Context) : Worklist :=
  if c.nodes.isEmpty then .empty 0 else (Worklist.empty c.nodes.size).push 0

theorem delaySeed_spec (c : Context) :
    c.delaySeed.Valid c.nodes.size ∧ (∀ j, ¬ c.delaySeed.isSeen j) ∧
    c.delaySeed.due c.nodes.size ≤ c.nodes.size ∧ ∀ j, j ∈ c.delaySeed.queue ↔
      0 < c.nodes.size ∧ j = 0 := by
  unfold delaySeed
  by_cases h0 : 0 < c.nodes.size
  · have hne : c.nodes.isEmpty = false := by simpa using Array.size_pos_iff.1 h0
    have hv := Worklist.valid_empty c.nodes.size
    rw [hne, if_neg Bool.false_ne_true]
    refine ⟨hv.push h0, fun j => ?_, ?_, fun j => ?_⟩
    · rw [Worklist.isSeen_push]
      exact Worklist.isSeen_empty _ j
    · have := Worklist.due_push_le hv h0
      simpa [Worklist.isSeen_empty, Worklist.due_empty] using this
    · rw [Worklist.mem_push hv]
      simp [Worklist.empty, h0]
  · have hz : c.nodes.size = 0 := by omega
    have hemp : c.nodes.isEmpty = true := by simpa using hz
    rw [hemp, if_pos rfl, hz]
    refine ⟨Worklist.valid_empty 0, Worklist.isSeen_empty 0, by simp [Worklist.due_empty],
      fun j => ?_⟩
    simp [Worklist.empty]

structure Delayed (c : Context) (s : Sets) (d : Delay) : Prop where
  laterIn_fits : d.laterIn.Fits c.nodes.size c.catalog.size
  later_fits : d.later.Fits c.edges.size c.catalog.size
  entry : ∀ e, e ∉ d.laterIn.of 0
  laterIn_iff : ∀ k, (∃ π, c.Path π k) → k ≠ 0 → ∀ e, e ∈ d.laterIn.of k ↔
    e < c.catalog.size ∧ ∀ x < c.edges.size, (c.edge x).target = k → e ∈ d.later.of x
  later_iff : ∀ x < c.edges.size, (∃ π, c.Path π (c.edge x).source) → ∀ e, e ∈ d.later.of x ↔
    e ∈ s.earliest.of x ∨ (e ∈ d.laterIn.of (c.edge x).source ∧ e ∉ s.up.of (c.edge x).source)
  later_full : ∀ x < c.edges.size, (¬ ∃ π, c.Path π (c.edge x).source) →
    ∀ e < c.catalog.size, e ∈ d.later.of x
  lapsed : ∀ k < c.nodes.size, ∀ e < c.catalog.size, e ∉ d.laterIn.of k →
    ∃ π, c.Lapsed s.up s.earliest e π k

theorem delayVisit_lt (hc : c.Wired) :
    ∀ k d, k < c.nodes.size → ∀ u ∈ (c.delayVisit s k d).2, u.1 < c.nodes.size := by
  intro k d hk u hu
  rw [delayVisit_eq hc hk] at hu
  obtain ⟨x, hx, rfl⟩ := List.mem_map.1 hu
  exact hc.target_lt x ((hc.mem_succ k hk x).1 hx).1

theorem delay_waiting (hc : c.Wired) (hs : s.earliest.Fits c.edges.size c.catalog.size) :
    (c.delay s).1.queue = [] ∧ Waiting c s (c.delay s).1 (c.delay s).2 := by
  obtain ⟨hv, hseen, hdue, hq⟩ := delaySeed_spec c
  refine Worklist.settle_induct (c.delayVisit s) c.nodes.size (Waiting c s) (fun d =>
    c.delayCost d.later)
    (delayVisit_lt hc) ?_ ?_ _ c.delaySeed _ hv (waiting_start c s _ hseen hq)
      (Nat.add_le_add hdue (delayCost_start c))
  · intro k w w' d _ hv' hk hpop h
    exact h.visit hc hs hv' hk hpop
  · intro k w d hk h
    exact delayCost_visit hc hs h hk

/-- The delay loop visits the nodes that paths lead to. -/
theorem isSeen_delay (hc : c.Wired) (hs : s.earliest.Fits c.edges.size c.catalog.size)
    {π : List Nat} (hπ : c.Path π k) : (c.delay s).1.isSeen k := by
  obtain ⟨hempty, h⟩ := delay_waiting hc hs
  induction hπ with
  | entry h0 => exact (h.seeded h0).resolve_right (by simp [hempty])
  | step hp hx ih => exact (h.ahead _ hx ih).resolve_right (by simp [hempty])

theorem delay_spec (hc : c.Wired) (hs : s.earliest.Fits c.edges.size c.catalog.size) :
    Delayed c s (c.delay s).2 := by
  obtain ⟨hempty, h⟩ := delay_waiting hc hs
  have hvisited : ∀ k, (∃ π, c.Path π k) → (c.delay s).1.isSeen k :=
    fun k hk => hk.elim fun _ hπ => isSeen_delay hc hs hπ
  refine ⟨h.laterIn_fits, h.later_fits, h.entry, fun k hk h0 e => ⟨fun he => ?_, fun he => ?_⟩,
    fun x hx hr => h.seen_edge x hx (hvisited _ hr),
    fun x hx hr => h.unseen_edge x hx fun hs => hr (h.reached _ (Or.inl hs)), h.lapsed⟩
  · obtain ⟨π, hπ⟩ := hk
    refine ⟨h.laterIn_fits.2 k (hπ.lt hc) ▸ BitSet.lt_size he, fun x hx ht => ?_⟩
    subst ht
    exact h.settled x hx h0 (hvisited _ ⟨π, hπ⟩) (by simp [hempty]) e he
  · obtain ⟨π, hπ⟩ := hk
    refine h.covered k (hπ.lt hc) h0 e he.1 fun x hx => ?_
    obtain ⟨hlt, ht⟩ := (hc.mem_pred k (hπ.lt hc) x).1 hx
    exact he.2 x hlt ht

end CodeMotion.Context
