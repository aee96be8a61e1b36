import Mathlib
import CodeMotion.Proofs.Charts

/-! The solution of a problem is the meet over all ways: a fact holds at a node if it does on each
of them, taken alone. For the available expressions these are the walks of the function. -/

namespace CodeMotion

/-- A list with one more entry is split at that entry or before it. -/
theorem exists_split_snoc {α : Type} {l : List α} {b : α} {P : List α → α → List α → Prop} :
    (∃ l₁ a l₂, l ++ [b] = l₁ ++ a :: l₂ ∧ P l₁ a l₂) ↔ P l b [] ∨ ∃ l₁ a l₂, l = l₁ ++ a :: l₂ ∧
      P l₁ a (l₂ ++ [b]) := by
  constructor
  · rintro ⟨l₁, a, l₂, hl, hP⟩
    rcases List.eq_nil_or_concat l₂ with rfl | ⟨m, c, rfl⟩
    · obtain ⟨rfl, hb⟩ := List.append_inj' hl rfl
      rw [List.singleton_inj] at hb
      exact Or.inl (hb ▸ hP)
    · rw [List.concat_eq_append, ← List.cons_append, ← List.append_assoc] at hl
      obtain ⟨rfl, hb⟩ := List.append_inj' hl rfl
      rw [List.singleton_inj] at hb
      rw [List.concat_eq_append, ← hb] at hP
      exact Or.inr ⟨l₁, a, m, rfl, hP⟩
  · rintro (hP | ⟨l₁, a, l₂, rfl, hP⟩)
    · exact ⟨l, b, [], rfl, hP⟩
    · exact ⟨l₁, a, l₂ ++ [b], by rw [List.append_assoc, List.cons_append], hP⟩

/-- A split of the image of a list is the image of a split. -/
theorem exists_split_map {α β : Type} {f : α → β} {l : List α} {P : List β → β → List β → Prop} :
    (∃ l₁ b l₂, l.map f = l₁ ++ b :: l₂ ∧ P l₁ b l₂) ↔ ∃ l₁ a l₂, l = l₁ ++ a :: l₂ ∧
      P (l₁.map f) (f a) (l₂.map f) := by
  constructor
  · rintro ⟨l₁, b, l₂, hl, hP⟩
    obtain ⟨m₁, m, rfl, rfl, hcons⟩ := List.map_eq_append_iff.1 hl
    obtain ⟨a, m₂, rfl, rfl, rfl⟩ := List.map_eq_cons_iff.1 hcons
    exact ⟨m₁, a, m₂, rfl, hP⟩
  · rintro ⟨l₁, a, l₂, rfl, hP⟩
    exact ⟨l₁.map f, f a, l₂.map f, by rw [List.map_append, List.map_cons], hP⟩

namespace Flow

/-- A way from a pinned node, as the nodes it has left, and the node it has come to. -/
inductive Trail (p : Flow) : List Nat → Nat → Prop
  | seed {j : Nat} (hj : j < p.size) (h : p.pinned j = true) : Trail p [] j
  | step {l : List Nat} {i j : Nat} (h : Trail p l i) (hj : j ∈ p.sinks i) : Trail p (l ++ [i]) j

/-- One of the nodes generates the fact, and none behind it kills it. -/
def Carries (p : Flow) (f : Nat) (l : List Nat) : Prop :=
  ∃ l₁ i l₂, l = l₁ ++ i :: l₂ ∧ f ∈ p.gen i ∧ ∀ j ∈ l₂, f ∉ p.kill j

variable {p : Flow} {f i j : Nat} {l : List Nat}

theorem not_carries_nil : ¬ p.Carries f [] := by
  rintro ⟨l₁, i, l₂, hl, -⟩
  simp at hl

theorem carries_snoc : p.Carries f (l ++ [i]) ↔ f ∈ p.gen i ∨ p.Carries f l ∧ f ∉ p.kill i := by
  refine exists_split_snoc.trans (or_congr (by simp) ?_)
  simp only [Carries, List.forall_mem_append, List.forall_mem_singleton, ← and_assoc,
    exists_and_right]

theorem Trail.reached (h : p.Trail l j) : p.Reached j := by
  induction h with
  | seed hj hpin => exact .seed hj hpin
  | step _ hj ih => exact ih.next hj

theorem Trail.lt (hp : p.Regular) (h : p.Trail l j) : ∀ i ∈ l, i < p.size := by
  induction h with
  | seed _ _ => simp
  | step hl _ ih =>
    intro i hi
    rcases List.mem_append.1 hi with hi | hi
    · exact ih i hi
    · exact List.mem_singleton.1 hi ▸ hl.reached.lt hp

theorem Trail.lt_snoc (hp : p.Regular) (h : p.Trail l j) : ∀ i ∈ l ++ [j], i < p.size := by
  rw [List.forall_mem_append, List.forall_mem_singleton]
  exact ⟨h.lt hp, h.reached.lt hp⟩

theorem Reached.exists_trail (h : p.Reached j) : ∃ l, p.Trail l j := by
  induction h with
  | seed hi hpin => exact ⟨[], .seed hi hpin⟩
  | next _ hj ih =>
    obtain ⟨l, hl⟩ := ih
    exact ⟨_, hl.step hj⟩

theorem missed_iff (hp : p.Regular) (hj : j < p.size) :
    p.Missed f j ↔ ∃ l, p.Trail l j ∧ ¬ p.Carries f l := by
  constructor
  · intro hm
    induction hm with
    | pinned hpin => exact ⟨[], .seed hj hpin, not_carries_nil⟩
    | @killed i j hi hs hk hg =>
      obtain ⟨l, hl⟩ := hi.exists_trail
      refine ⟨l ++ [i], hl.step ((hp.mem_sinks i (hi.lt hp) j hj).2 hs), fun hc => ?_⟩
      rcases carries_snoc.1 hc with hgen | ⟨-, hnot⟩
      · exact hg hgen
      · exact hnot hk
    | @passed i j _ hs hg ih =>
      have hi := hp.sources_lt j hj i hs
      obtain ⟨l, hl, hno⟩ := ih hi
      refine ⟨l ++ [i], hl.step ((hp.mem_sinks i hi j hj).2 hs), fun hc => ?_⟩
      rcases carries_snoc.1 hc with hgen | ⟨hcl, -⟩
      · exact hg hgen
      · exact hno hcl
  · rintro ⟨l, hl, hno⟩
    induction hl with
    | seed _ hpin => exact .pinned hpin
    | @step l i j hl hs ih =>
      have hi := hl.reached.lt hp
      rw [carries_snoc] at hno
      push Not at hno
      have hsource := (hp.mem_sinks i hi j hj).1 hs
      by_cases hc : p.Carries f l
      · exact .killed hl.reached hsource (hno.2 hc) hno.1
      · exact .passed (ih hi hc) hsource hno.1

/-- A fact holds at the entry of a node just if every way to the node carries it. -/
theorem Solution.mem_entry_iff_trails (hp : p.Regular) {s : State} (h : p.Solution s)
    (hr : p.Reached j) : f ∈ s.entry.of j ↔ ∀ l, p.Trail l j → p.Carries f l := by
  have hj := hr.lt hp
  rw [h.mem_entry hp hj, missed_iff hp hj]
  push Not
  constructor
  · exact fun hf => hf.2
  · intro hall
    refine ⟨?_, hall⟩
    -- a fact that a node generates is one of the facts
    obtain ⟨l, hl⟩ := hr.exists_trail
    obtain ⟨l₁, i, l₂, rfl, hg, -⟩ := hall l hl
    have hi : i < p.size := hl.lt hp i (by simp)
    exact hp.gen_size i hi ▸ BitSet.lt_size hg

end Flow

def Func.setAt (fn : Func) (f : Family) (b : BlockId) : BitSet := f.of (fn.layout.idxOf b)

namespace Context

/-- One of the blocks exposes the expression downward, and none behind it kills it. -/
def Brings (fn : Func) (t : Sets) (e : Nat) (l : List BlockId) : Prop :=
  ∃ l₁ a l₂, l = l₁ ++ a :: l₂ ∧ e ∈ fn.setAt t.down a ∧ ∀ b ∈ l₂, e ∉ fn.setAt t.kill b

variable {fn : Func} {o : Options} {c c₀ c₁ c₂ : Context} {s t : Sets} {e k : Nat} {b : BlockId}

namespace Charts

variable (h : Charts fn c)
include h

theorem idxOf_block (hk : k < c.nodes.size) : fn.layout.idxOf (c.node k).block = k := by
  obtain ⟨hlt, hb⟩ := List.getElem?_eq_some_iff.1 (h.layout_node hk)
  rw [← hb]
  exact h.enclosed.nodup.idxOf_getElem k hlt

theorem setAt_block (f : Family) (hk : k < c.nodes.size) :
    fn.setAt f (c.node k).block = f.of k := by
  rw [Func.setAt, h.idxOf_block hk]

theorem brings_iff {l : List Nat} (hl : ∀ i ∈ l, i < c.nodes.size) :
    Brings fn t e (l.map fun i => (c.node i).block) ↔ (c.availability t).Carries e l := by
  refine exists_split_map.trans (exists_congr fun l₁ => exists_congr fun i => exists_congr fun l₂ =>
    and_congr_right ?_)
  rintro rfl
  refine and_congr ?_ ?_
  · rw [h.setAt_block _ (hl i (by simp))]
    rfl
  · rw [List.forall_mem_map]
    refine forall₂_congr fun j hj => ?_
    rw [h.setAt_block _ (hl j (by simp [hj]))]
    rfl

theorem walk_of_trail (hp : (c.availability t).Regular) {l : List Nat}
    (hl : (c.availability t).Trail l k) :
    fn.Walk (l.map fun i => (c.node i).block) (c.node k).block := by
  induction hl with
  | @seed j hj hpin =>
    have h0 : j = 0 := by simpa [availability] using hpin
    rw [h0]
    exact .entry (h.entry (h0 ▸ hj))
  | @step l i j hl hj ih =>
    obtain ⟨x, hx, rfl⟩ := List.mem_map.1 hj
    obtain ⟨hlt, rfl⟩ := (h.wired.mem_succ i (hl.reached.lt hp) x).1 hx
    rw [List.map_append]
    exact .step ih (h.leads hlt)

theorem trail_of_path {π : List Nat} (hπ : c.Path π k) :
    (c.availability t).Trail (π.map fun x => (c.edge x).source) k := by
  induction hπ with
  | entry h0 => exact .seed h0 rfl
  | @step π x hp hx ih =>
    rw [List.map_append]
    exact .step ih (List.mem_map.2 ⟨x, (h.wired.mem_succ _ (hp.lt h.wired) x).2 ⟨hx, rfl⟩, rfl⟩)

/-- The ways to a node are the walks to its block. -/
theorem forall_trails_iff (hp : (c.availability t).Regular) (hk : k < c.nodes.size) :
    (∀ l, (c.availability t).Trail l k → (c.availability t).Carries e l) ↔
      ∀ l, fn.Walk l (c.node k).block → Brings fn t e l := by
  constructor
  · intro hall l hl
    obtain ⟨π, j, hπ, hj, rfl⟩ := h.exists_path hl
    rw [h.block_inj (hπ.lt h.wired) hk hj] at hπ
    have htrail := h.trail_of_path (t := t) hπ
    have hbrings := (h.brings_iff (htrail.lt hp)).2 (hall _ htrail)
    rw [List.map_map] at hbrings
    exact hbrings
  · intro hall l hl
    rw [← h.brings_iff (hl.lt hp)]
    exact hall _ (h.walk_of_trail hp hl)

variable (hs : (c.availability t).Solution ⟨t.availIn, t.availOut⟩)
include hs

theorem avail_eq_full (hlt : k < c.nodes.size) (hr : ¬ c.Reach k) :
    t.availIn.of k = .full c.catalog.size ∧ t.availOut.of k = .full c.catalog.size := by
  have hno : ¬ (c.availability t).Reached k := fun hreached => hr (path_of_reached h.wired hreached)
  exact ⟨BitSet.eq_full (hs.entry_size k hlt) (hs.entry_full k hlt hno),
    BitSet.eq_full (hs.exit_size k hlt) (hs.exit_full k hlt hno)⟩

variable (hp : (c.availability t).Regular)
include hp

theorem mem_availIn_iff (hr : c.Reach k) :
    e ∈ t.availIn.of k ↔ ∀ l, fn.Walk l (c.node k).block → Brings fn t e l := by
  obtain ⟨π, hπ⟩ := hr
  rw [← h.forall_trails_iff hp (hπ.lt h.wired)]
  exact hs.mem_entry_iff_trails hp (reached_availability h.wired hπ)

theorem availOut_eq (hr : c.Reach k) :
    t.availOut.of k = t.down.of k ∪ (t.availIn.of k \ t.kill.of k) := by
  obtain ⟨π, hπ⟩ := hr
  have hlt := hπ.lt h.wired
  have hin : (t.availIn.of k).size = c.catalog.size := hs.entry_size k hlt
  have hout : (t.availOut.of k).size = c.catalog.size := hs.exit_size k hlt
  have hdown : (t.down.of k).size = c.catalog.size := hp.gen_size k hlt
  refine BitSet.ext_mem ?_ fun e => ?_
  · rw [BitSet.size_union, BitSet.size_diff, hin, hout, hdown, max_self]
  · rw [BitSet.mem_union, BitSet.mem_diff]
    exact hs.exit_iff k (reached_availability h.wired hπ) e

end Charts

/-- The available expressions of a function with distinct blocks and attached successors: at a
reachable block those that every walk to it brings, and everything elsewhere. -/
theorem availability_meet_over_paths (he : fn.Enclosed) (h₀ : ofFunc fn o = .ok c₀)
    (h₁ : Phase.numbering.apply fn c₀ = .ok ⟨⟩ c₁) (ho : c₁.overflow = false)
    (h₂ : Phase.scanning.apply fn c₁ = .ok ⟨⟩ c₂) :
    ∃ s d t, c₂.sets = some s ∧ Phase.availability.apply fn c₂ = .ok ⟨⟩ d ∧ d.sets = some t ∧
      t = { s with availIn := t.availIn, availOut := t.availOut } ∧
      (∀ b ∈ fn.layout, d.nodeOf fn b = .ok (fn.layout.idxOf b)) ∧
      (∀ b, (∃ l, fn.Walk l b) →
        (∀ e, e ∈ fn.setAt t.availIn b ↔ ∀ l, fn.Walk l b → Brings fn t e l) ∧
        fn.setAt t.availOut b = fn.setAt t.down b ∪ (fn.setAt t.availIn b \ fn.setAt t.kill b)) ∧
      (∀ b ∈ fn.entry?, fn.setAt t.availIn b = .empty d.catalog.size) ∧
      ∀ b ∈ fn.layout, (¬ ∃ l, fn.Walk l b) →
        fn.setAt t.availIn b = .full d.catalog.size ∧ fn.setAt t.availOut b =
          .full d.catalog.size := by
  have hf := (ofFunc_fresh h₀).1
  rcases hf.numberExpressions_inv h₁ with hover | ⟨s₁, hst₁, hkill, hsites⟩
  · rw [ho] at hover
    cases hover
  obtain ⟨s, hst, -⟩ := localPredicates_inv hst₁ hkill hsites h₂
  have hfit := hst.numbered.fits
  have hturn : Turns fn c₂ .availability s (c₂.withAvail s) := turns_availability hfit
  obtain ⟨d, hd, hw, hsets⟩ := hturn c₂ ⟨rfl, rfl, rfl, rfl, rfl⟩ hst.sets
  have hmap : Charts fn d := ⟨he, c₀, hf.toDrawn, hst.graph.trans hw.graph⟩
  have hflow : d.availability (c₂.withAvail s) = c₂.availability s := hw.availability rfl rfl
  have hp : (d.availability (c₂.withAvail s)).Regular := by
    rw [hflow]
    exact regular_availability (hst.graph.wired hf.wired) hfit.down
  have hs : (d.availability (c₂.withAvail s)).Solution ⟨(c₂.withAvail s).availIn,
      (c₂.withAvail s).availOut⟩ := by
    rw [hflow] at hp ⊢
    exact Flow.solution hp
  refine ⟨s, d, c₂.withAvail s, hst.sets, hd, hsets, rfl, fun b hb => ?_, fun b hr => ?_,
    fun b hb => ?_, fun b hb hr => ?_⟩
  · obtain ⟨k, hk, rfl⟩ := hmap.exists_node hb
    rw [hmap.idxOf_block hk]
    exact hmap.nodeOf_block hk
  · obtain ⟨l, hl⟩ := hr
    obtain ⟨π, k, hπ, rfl, -⟩ := hmap.exists_path hl
    have hk := hπ.lt hmap.wired
    simp only [hmap.setAt_block _ hk]
    exact ⟨fun e => hmap.mem_availIn_iff hs hp ⟨π, hπ⟩, hmap.availOut_eq hs hp ⟨π, hπ⟩⟩
  · obtain ⟨h0, rfl⟩ := hmap.entry_node hb
    rw [hmap.setAt_block _ h0]
    refine BitSet.ext_mem (hs.entry_size 0 h0) fun e => ?_
    have hnot : e ∉ (c₂.withAvail s).availIn.of 0 := hs.entry_pinned 0 h0 rfl e
    simp [hnot, BitSet.not_mem_empty]
  · obtain ⟨k, hk, rfl⟩ := hmap.exists_node hb
    rw [hmap.setAt_block _ hk, hmap.setAt_block _ hk]
    refine hmap.avail_eq_full hs hk fun hreach => hr ?_
    obtain ⟨π, hπ⟩ := hreach
    exact ⟨_, hmap.walk hπ⟩

def scanned? (fn : Func) (o : Options) : Option (Context × Context × Context) :=
  match ofFunc fn o with
  | .error _ => none
  | .ok c₀ =>
    match Phase.numbering.apply fn c₀ with
    | .error _ _ => none
    | .ok _ c₁ =>
      match Phase.scanning.apply fn c₁ with
      | .error _ _ => none
      | .ok _ c₂ => some (c₀, c₁, c₂)

theorem exists_of_scanned? (fn : Func) (o : Options)
    (h : (scanned? fn o).any (!·.2.1.overflow) = true) :
    ∃ c₀ c₁ c₂, ofFunc fn o = .ok c₀ ∧ Phase.numbering.apply fn c₀ = .ok ⟨⟩ c₁ ∧
      c₁.overflow = false ∧
      Phase.scanning.apply fn c₁ = .ok ⟨⟩ c₂ := by
  unfold scanned? at h
  split at h
  · cases h
  · next c₀ h₀ =>
    split at h
    · cases h
    · next c₁ h₁ =>
      split at h
      · cases h
      · next c₂ h₂ => exact ⟨c₀, c₁, c₂, h₀, h₁, by simpa using h, h₂⟩

/-- Two branches store the same number and meet again; a block that is never reached leads to where
they meet. -/
def rejoin : Func where
  name := "f"
  params := ["c"]
  layout := [1, 2, 3, 4, 5]
  blocks := ⟨#[{ body := [1], term := some 2 }, { body := [3], term := some 4, preds := [1] },
    { body := [5], term := some 6, preds := [1] }, { term := some 7, preds := [2, 3, 5] },
      { term := some 8 }]⟩
  instrs := ⟨#[
    { op := .store, args := [.const 1, .global 0 "g"], block := some 1 },
    { op := .branch, args := [.param 0 "c"], targets := [2, 3], block := some 1 },
    { op := .store, args := [.const 2, .global 1 "h"], block := some 2 },
    { op := .jump, targets := [4], block := some 2 },
    { op := .store, args := [.const 2, .global 1 "h"], block := some 3 },
    { op := .jump, targets := [4], block := some 3 },
    { op := .ret, block := some 4 },
    { op := .jump, targets := [4], block := some 5 }]⟩

theorem availability_meet_over_paths_rejoin :
    rejoin.Enclosed ∧ ∃ c₀ c₁ c₂ d t, ofFunc rejoin {} = .ok c₀ ∧
    Phase.numbering.apply rejoin c₀ = .ok ⟨⟩ c₁ ∧ c₁.overflow = false ∧
      Phase.scanning.apply rejoin c₁ = .ok ⟨⟩ c₂ ∧
    Phase.availability.apply rejoin c₂ = .ok ⟨⟩ d ∧ d.sets = some t ∧ rejoin.Walk [1, 2] 4 ∧
    (1 ∈ rejoin.setAt t.availIn 4 ↔ ∀ l, rejoin.Walk l 4 → Brings rejoin t 1 l) ∧
    rejoin.setAt t.availIn 5 = .full d.catalog.size := by
  have he : rejoin.Enclosed := by decide +kernel
  obtain ⟨c₀, c₁, c₂, h₀, h₁, ho, h₂⟩ := exists_of_scanned? rejoin {} (by decide +kernel)
  obtain ⟨s, d, t, -, hd, ht, -, -, hreach, -, hfar⟩ := availability_meet_over_paths he h₀ h₁ ho h₂
  have hwalk : rejoin.Walk [1, 2] 4 :=
    .step (.step (.entry (e := 1) (by decide)) (by decide)) (by decide)
  have hno : ¬ ∃ l, rejoin.Walk l 5 := by
    rintro ⟨l, hl⟩
    exact absurd hl.reachable (by decide +kernel)
  exact ⟨he, c₀, c₁, c₂, d, t, h₀, h₁, ho, h₂, hd, ht, hwalk, (hreach 4 ⟨_, hwalk⟩).1 1,
    (hfar 5 (by decide) hno).1⟩

end Context
end CodeMotion
