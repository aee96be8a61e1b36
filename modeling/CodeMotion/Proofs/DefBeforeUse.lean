import Mathlib
import CodeMotion.Proofs.Optimize

/-! Definition before use, said over the walks of a function alone: a walk executes the lists of the
blocks it leaves, and an operand has to be among what was executed. The verifier asks for dominators
and places in a list instead, and decides just this. -/

namespace CodeMotion.Func

def Placed (fn : Func) (d : InstrId) : Prop :=
  ∃ home ∈ (fn.instr d).block, ((fn.block home).phis ++ (fn.block home).body).count d = 1

/-- What a walk has executed that left the blocks `l` and stands in front of place `n` of `b`; the
terminator has the last place. -/
def passed (fn : Func) (l : List BlockId) (b : BlockId) (n : Nat) : List InstrId :=
  l.flatMap fn.listed ++
    ((fn.block b).phis ++ ((fn.block b).body ++ (fn.block b).term.toList).take n)

/-- A definition lies in an attached block, and every walk to place `n` of `b` has executed it. -/
def Defined (fn : Func) (b : BlockId) (n : Nat) (d : InstrId) : Prop :=
  (∃ home ∈ (fn.instr d).block, home ∈ fn.layout) ∧ ∀ l, fn.Walk l b → d ∈ fn.passed l b n

/-- The operands of the blocks with a walk to them are defined where they are read; those of a phi
at the end of the block they come from, if there is a walk to it. -/
structure DefinedBeforeUse (fn : Func) : Prop where
  phis : ∀ b, (∃ l, fn.Walk l b) → ∀ p ∈ (fn.block b).phis, ∀ d source,
    (Value.instr d, source) ∈ (fn.instr p).args.zip (fn.instr p).incoming →
      (∃ l, fn.Walk l source) →
      fn.Defined source ((fn.block source).body.length + 1) d
  uses : ∀ b, (∃ l, fn.Walk l b) →
    ∀ i n, ((fn.block b).body ++ (fn.block b).term.toList)[n]? = some i →
    ∀ d, .instr d ∈ (fn.instr i).args → fn.Defined b n d

variable {fn : Func} {a b home : BlockId} {d i : InstrId} {n : Nat} {l : List BlockId}

instance : Decidable (fn.Placed d) := inferInstanceAs (Decidable (∃ home ∈ (fn.instr d).block, _))

theorem exists_walk_iff : (∃ l, fn.Walk l b) ↔ b ∈ fn.preOrder :=
  ⟨fun ⟨_, hl⟩ => hl.reachable, exists_walk⟩

theorem Walk.mem_preOrder_of_mem (hl : fn.Walk l b) (ha : a ∈ l) : a ∈ fn.preOrder := by
  obtain ⟨l', r, rfl⟩ := List.append_of_mem ha
  exact hl.cut.1.reachable

namespace Structured

variable (h : fn.Structured)
include h

theorem mem_listed_iff (hd : (fn.instr d).block = some home)
    (hc : ((fn.block home).phis ++ (fn.block home).body).count d = 1) (ha : a ∈ fn.layout) :
    d ∈ fn.listed a ↔ a = home := by
  constructor
  · intro hm
    have := (h.fitting a ha).parent d hm
    rw [hd, Option.some.injEq] at this
    exact this.symm
  · rintro rfl
    exact List.mem_append_left _ (List.count_pos_iff.1 (by omega))

theorem term_ne (hl : home ∈ fn.layout) (hd : d ∈ (fn.block home).phis ++ (fn.block home).body) :
    (fn.block home).term ≠ some d := by
  intro ht
  have hf := h.fitting home hl
  obtain ⟨t, ht', hterm⟩ := hf.term
  rw [ht, Option.some.injEq] at ht'
  subst ht'
  rcases List.mem_append.1 hd with hd | hd
  · rw [(hf.phis d hd).1] at hterm
    cases hterm
  · rw [(hf.body d hd).2] at hterm
    cases hterm

/-- In its own block a definition is executed in front of a place or stands at it or behind it. -/
theorem mem_front_iff (hl : home ∈ fn.layout)
    (hc : ((fn.block home).phis ++ (fn.block home).body).count d = 1) :
    d ∈ (fn.block home).phis ++ ((fn.block home).body ++ (fn.block home).term.toList).take n ↔
      d ∉ (fn.block home).body.drop n := by
  have hd : d ∈ (fn.block home).phis ++ (fn.block home).body := List.count_pos_iff.1 (by omega)
  have hterm : d ∉ ((fn.block home).term.toList).take (n - (fn.block home).body.length) := by
    intro hm
    exact h.term_ne hl hd (Option.mem_toList.1 (List.mem_of_mem_take hm))
  have hbody : (fn.block home).body.count d = ((fn.block home).body.take n).count d +
      ((fn.block home).body.drop n).count d := by
    rw [← List.count_append, List.take_append_drop]
  rw [List.count_append, hbody] at hc
  rw [List.take_append, List.mem_append, List.mem_append]
  simp only [hterm, or_false]
  rw [← List.count_pos_iff, ← List.count_pos_iff, ← List.count_eq_zero]
  omega

theorem mem_passed (hw : fn.Walk l b) (hd : (fn.instr d).block = some home) (hl : home ∈ fn.layout)
    (hc : ((fn.block home).phis ++ (fn.block home).body).count d = 1) :
    d ∈ fn.passed l b n ↔ home ∈ l ∨ home = b ∧ d ∉ (fn.block home).body.drop n := by
  have hleft : d ∈ l.flatMap fn.listed ↔ home ∈ l := by
    rw [List.mem_flatMap]
    constructor
    · rintro ⟨a, ha, hm⟩
      rwa [← (h.mem_listed_iff hd hc (h.attached (hw.mem_preOrder_of_mem ha))).1 hm]
    · intro hm
      exact ⟨home, hm, (h.mem_listed_iff hd hc hl).2 rfl⟩
  unfold passed
  rw [List.mem_append, hleft]
  apply or_congr_right
  constructor
  · intro hm
    have hb : d ∈ fn.listed b := by
      unfold listed
      rw [List.append_assoc]
      exact (List.append_sublist_append_left _).2 (List.take_sublist _ _) |>.subset hm
    have heq := (h.mem_listed_iff hd hc (h.attached hw.reachable)).1 hb
    subst heq
    exact ⟨rfl, (h.mem_front_iff hl hc).1 hm⟩
  · rintro ⟨rfl, hm⟩
    exact (h.mem_front_iff hl hc).2 hm

/-- A place is dominated by a definition just if every walk has executed it. -/
theorem ready_iff_defined (hb : b ∈ fn.preOrder) (hp : fn.Placed d) :
    fn.Ready b n d ↔ fn.Defined b n d := by
  obtain ⟨home, hd, hc⟩ := hp
  rw [Option.mem_def] at hd
  rw [ready_iff, Defined]
  simp only [hd, Option.mem_def, Option.some.injEq, exists_eq_left']
  apply and_congr_right
  intro hl
  have hpass : (∀ l, fn.Walk l b → d ∈ fn.passed l b n) ↔ ∀ l, fn.Walk l b → home ∈ l ∨ home = b ∧
      d ∉ (fn.block home).body.drop n :=
    forall₂_congr fun l hw => h.mem_passed hw hd hl hc
  rw [hpass]
  by_cases hh : home = b
  · subst hh
    simp only [if_true, true_and]
    constructor
    · intro hm l _
      exact Or.inr hm
    · -- a walk that comes to the block for the first time
      intro hall
      obtain ⟨l, hw, hnot⟩ : ∃ l, fn.Walk l home ∧ home ∉ l := by
        have := not_precedes_self hb
        unfold Precedes at this
        push Not at this
        exact this
      exact (hall l hw).resolve_left hnot
  · simp only [hh, if_false, false_and, or_false]
    rfl

end Structured

def OperandsPlaced (fn : Func) : Prop :=
  ∀ b ∈ fn.layout, ∀ i ∈ fn.listed b, ∀ v ∈ (fn.instr i).args, ∀ d ∈ v.instr?, fn.Placed d

instance : Decidable fn.OperandsPlaced :=
  inferInstanceAs (Decidable (∀ b ∈ fn.layout, ∀ i ∈ fn.listed b, _))

theorem Structured.supplied_iff (h : fn.Structured) (hp : fn.OperandsPlaced) :
    (∀ b ∈ fn.preOrder, fn.Supplied b) ↔ fn.DefinedBeforeUse := by
  have hphi : ∀ b ∈ fn.preOrder, ∀ p ∈ (fn.block b).phis, ∀ d source, (Value.instr d, source) ∈
    (fn.instr p).args.zip (fn.instr p).incoming →
      fn.Placed d := by
    intro b hb p hm d source hz
    exact hp b (h.attached hb) p (by simp [listed, hm]) _ (List.of_mem_zip hz).1 d rfl
  have huse : ∀ b ∈ fn.preOrder,
    ∀ (i : InstrId) (n : Nat), ((fn.block b).body ++ (fn.block b).term.toList)[n]? = some i →
      ∀ d, .instr d ∈ (fn.instr i).args → fn.Placed d := by
    intro b hb i n hn d hd
    exact hp b (h.attached hb) i (mem_listed_of_place hn) _ hd d rfl
  constructor
  · intro hs
    refine ⟨fun b hb p hm d source hz hr => ?_, fun b hb i n hn d hd => ?_⟩
    · rw [exists_walk_iff] at hb hr
      exact (h.ready_iff_defined hr (hphi b hb p hm d source hz)).1
        ((hs b hb).phis p hm d source hz hr)
    · rw [exists_walk_iff] at hb
      exact (h.ready_iff_defined hb (huse b hb i n hn d hd)).1 ((hs b hb).uses i n hn d hd)
  · intro hs b hb
    refine ⟨fun p hm d source hz hr => ?_, fun i n hn d hd => ?_⟩
    · exact (h.ready_iff_defined hr (hphi b hb p hm d source hz)).2
        (hs.phis b (exists_walk hb) p hm d source hz (exists_walk hr))
    · exact (h.ready_iff_defined hb (huse b hb i n hn d hd)).2
        (hs.uses b (exists_walk hb) i n hn d hd)

theorem not_walk_of_isEmpty (hx : fn.isExternal = false) (he : fn.isEmpty = true) :
    ¬ fn.Walk l b := by
  intro hw
  have hnil : fn.layout = [] := by simpa [isEmpty, hx] using he
  obtain ⟨e, hentry, -⟩ := mem_preOrder.1 hw.reachable
  have := entry_mem hentry
  rw [hnil] at this
  cases this

/-- The verifier comes to an answer, and it accepts a function just if its operands are defined
before they are used. -/
theorem verify_iff_definedBeforeUse (hx : fn.isExternal = false) (hs : fn.structureDefect? = none)
    (hp : fn.OperandsPlaced) :
    (∃ r, fn.verify = .ok r) ∧ (fn.verify = .ok none ↔ fn.DefinedBeforeUse) := by
  have h := structureDefect?_eq_none.1 hs
  refine ⟨h.verify_ok, ?_⟩
  rw [verify_eq_none]
  cases he : fn.isEmpty with
  | true =>
    have hnone : fn.defect? = none := by simp [defect?, he]
    simp only [hnone, true_iff]
    exact ⟨fun b ⟨l, hw⟩ => absurd hw (not_walk_of_isEmpty hx he), fun b ⟨l, hw⟩ =>
      absurd hw (not_walk_of_isEmpty hx he)⟩
  | false =>
    rw [defect?_eq_none he, ← h.supplied_iff hp]
    exact ⟨fun hv => hv.supplied, fun hs => ⟨h, hs⟩⟩

/-- A loop with a phi, and behind it a block without a walk to it: that one reads a value before it
is defined, and hands the phi a value from behind the loop. -/
def looped : Func where
  name := "f"
  params := ["p", "c"]
  layout := [1, 2, 3, 4]
  blocks := ⟨#[{ term := some 1 }, { phis := [2], body := [3], term := some 4, preds := [1, 2, 4] },
    { body := [5], term := some 6, preds := [2] }, { body := [7, 8], term := some 9 }]⟩
  instrs := ⟨#[
    { op := .jump, targets := [2], block := some 1 },
    { op := .phi, args := [.param 0 "p", .instr 3, .instr 5], incoming := [1, 2, 4],
      block := some 2 },
    { op := .binary .add, args := [.instr 2, .const 1], block := some 2 },
    { op := .branch, args := [.param 1 "c"], targets := [2, 3], block := some 2 },
    { op := .binary .mul, args := [.instr 3, .instr 2], block := some 3 },
    { op := .ret, args := [.instr 5], block := some 3 },
    { op := .binary .add, args := [.instr 8, .instr 5], block := some 4 },
    { op := .unary .neg, args := [.instr 7], block := some 4 },
    { op := .jump, targets := [2], block := some 4 }]⟩

theorem verify_iff_definedBeforeUse_looped :
    looped.isExternal = false ∧ looped.structureDefect? = none ∧ looped.OperandsPlaced ∧
    looped.verify = .ok none ∧ looped.DefinedBeforeUse := by
  have hs : looped.structureDefect? = none := by decide +kernel
  have hp : looped.OperandsPlaced := by decide +kernel
  have hv : looped.verify = .ok none := verify_eq_none.2 (by decide +kernel)
  exact ⟨rfl, hs, hp, hv, (verify_iff_definedBeforeUse rfl hs hp).2.1 hv⟩

end CodeMotion.Func
