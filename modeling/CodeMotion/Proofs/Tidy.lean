import Mathlib
import CodeMotion.Proofs.Analysis
import CodeMotion.Proofs.Edits
import CodeMotion.Proofs.Verified

/-! Functions as a builder leaves them: every instruction is listed once, in its own block, with as
many operands as its operation takes. If the verifier accepts such a function, the paths of its
numbered graph are its walks. -/

namespace CodeMotion

def Op.operandCount? : Op → Option Nat
  | .alloca | .jump | .unreachable => some 0
  | .load | .unary _ | .branch => some 1
  | .store | .lea | .binary _ => some 2
  | .call | .phi | .switch | .ret | .unknown _ => none

namespace Func

structure Tidy (fn : Func) : Prop where
  once : (fn.layout.flatMap fn.listed).Nodup
  home : ∀ b ∈ fn.layout, ∀ i, (fn.instr i).block = some b → i ∈ fn.listed b
  arity : ∀ b ∈ fn.layout, ∀ i ∈ fn.listed b, ∀ n ∈ (fn.instr i).op.operandCount?,
    (fn.instr i).args.length = n
  results : ∀ b ∈ fn.layout, ∀ i ∈ fn.listed b, ∀ d, .instr d ∈ (fn.instr i).args →
    (fn.instr d).op.hasResult = true
  preds : ∀ b ∈ fn.layout, ∀ p ∈ (fn.block b).preds, p ∈ fn.layout

/-- The blocks and the lists of a function fit together, whatever its instructions do. -/
structure Assembled (fn : Func) : Prop where
  once : (fn.layout.flatMap fn.listed).Nodup
  real : ∀ b ∈ fn.layout, ∀ i ∈ fn.listed b, fn.hasInstr i = true
  nodup : fn.layout.Nodup
  succs : ∀ b ∈ fn.layout, ∀ s ∈ fn.succs b, s ∈ fn.layout
  preds : ∀ b ∈ fn.layout, ∀ a, a ∈ (fn.block b).preds ↔ a ∈ fn.layout ∧ b ∈ fn.succs a
  entry : ∀ b ∈ fn.layout.head?, (fn.block b).preds = []

structure Sound (fn : Func) : Prop extends fn.Verified, fn.Tidy

variable {fn : Func} {b : BlockId} {d i : InstrId} {n : Nat}

theorem tidy_iff : fn.Tidy ↔ (fn.layout.flatMap fn.listed).Nodup ∧
    (∀ i < fn.instrs.size + 1, ∀ b ∈ fn.layout, (fn.instr i).block = some b → i ∈ fn.listed b) ∧
    (∀ b ∈ fn.layout, ∀ i ∈ fn.listed b, (∀ n ∈ (fn.instr i).op.operandCount?,
      (fn.instr i).args.length = n) ∧
      ∀ v ∈ (fn.instr i).args, ∀ d ∈ v.instr?, (fn.instr d).op.hasResult = true) ∧
    ∀ b ∈ fn.layout, ∀ p ∈ (fn.block b).preds, p ∈ fn.layout := by
  constructor
  · intro h
    refine ⟨h.once, fun i _ b hb hi => h.home b hb i hi, fun b hb i hi => ⟨h.arity b hb i hi,
      fun v hv d hd => ?_⟩, h.preds⟩
    cases v with
    | instr _ =>
      cases hd
      exact h.results b hb i hi d hv
    | const _ => cases hd
    | param _ _ => cases hd
    | global _ _ => cases hd
  · rintro ⟨h1, h2, h3, h4⟩
    refine ⟨h1, fun b hb i hi => h2 i ?_ b hb hi, fun b hb i hi => (h3 b hb i hi).1,
      fun b hb i hi d hd => ?_, h4⟩
    · exact Nat.lt_succ_of_le (hasInstr_iff.1 (hasInstr_of_block hi)).2
    · exact (h3 b hb i hi).2 _ hd d rfl

instance : Decidable fn.Tidy := decidable_of_iff' _ tidy_iff

theorem assembled_iff : fn.Assembled ↔ (fn.layout.flatMap fn.listed).Nodup ∧
    (∀ b ∈ fn.layout, ∀ i ∈ fn.listed b, fn.hasInstr i = true) ∧
    fn.layout.Nodup ∧ (∀ b ∈ fn.layout, ∀ s ∈ fn.succs b, s ∈ fn.layout ∧ b ∈ (fn.block s).preds) ∧
    (∀ b ∈ fn.layout, ∀ a ∈ (fn.block b).preds, a ∈ fn.layout ∧ b ∈ fn.succs a) ∧
      ∀ b ∈ fn.layout.head?, (fn.block b).preds = [] := by
  constructor
  · intro h
    exact ⟨h.once, h.real, h.nodup, fun b hb s hs => ⟨h.succs b hb s hs,
      (h.preds s (h.succs b hb s hs) b).2 ⟨hb, hs⟩⟩, fun b hb a => (h.preds b hb a).1, h.entry⟩
  · rintro ⟨h1, h2, h3, h4, h5, h6⟩
    exact ⟨h1, h2, h3, fun b hb s hs => (h4 b hb s hs).1, fun b hb a =>
      ⟨h5 b hb a, fun ha => (h4 a ha.1 b ha.2).2⟩, h6⟩

instance : Decidable fn.Assembled := decidable_of_iff' _ assembled_iff

theorem Tidy.sound (h : fn.Tidy) (hv : fn.verify = .ok none) (he : fn.isEmpty = false) : fn.Sound :=
  ⟨(defect?_eq_none he).1 (verify_eq_none.1 hv), h⟩

/-- A store takes the value and the address that its expression has. -/
theorem args_of_store {x : Expression Value} (hx : fn.reader.expression i = .ok x)
    (hs : (fn.instr i).op = .store) (hn : (fn.instr i).args.length = 2) :
    ∃ v, x.operands = [v] ∧ (fn.instr i).args = [v, x.dest] := by
  obtain ⟨v, a, rest, hargs, rfl⟩ := Reader.expression_store hx hs
  replace hargs : (fn.instr i).args = v :: a :: rest := hargs
  rw [hargs, List.length_cons, List.length_cons, Nat.add_right_cancel_iff, Nat.add_right_cancel_iff,
    List.length_eq_zero_iff] at hn
  exact ⟨v, rfl, by rw [hargs, hn]⟩

theorem zipIdx_split {α : Type} {l : List α} {a : α} {k : Nat} {pre post : List (α × Nat)}
    (h : l.zipIdx = pre ++ (a, k) :: post) : k = pre.length ∧ l[pre.length]? = some a := by
  have hget : l.zipIdx[pre.length]? = some (a, k) := by
    rw [h, List.getElem?_append_right le_rfl, Nat.sub_self]; rfl
  rw [List.getElem?_zipIdx, Option.map_eq_some_iff] at hget
  obtain ⟨b, hb, he⟩ := hget
  cases he
  exact ⟨Nat.zero_add _, hb⟩

theorem place?_lt_iff : (∀ m ∈ fn.place? b d, m < n) ↔ d ∉ (fn.block b).body.drop n := by
  unfold place?
  cases hf : (fn.block b).body.zipIdx.reverse.find? (·.1 == d) with
  | none =>
    have hnot : d ∉ (fn.block b).body := by
      intro hd
      obtain ⟨m, hm⟩ := List.getElem?_of_mem hd
      have :=
        List.find?_eq_none.1 hf (d, m) (List.mem_reverse.2 (List.mem_zipIdx_iff_getElem?.2 hm))
      simp at this
    simp only [Option.map_none, Option.mem_def, reduceCtorEq, false_implies, implies_true, true_iff]
    exact fun hd => hnot (List.mem_of_mem_drop hd)
  | some q =>
    obtain ⟨hq, as, bs, hl, has⟩ := List.find?_eq_some_iff_append.1 hf
    rw [beq_iff_eq] at hq
    -- the places behind the one found are those in front of it in the reversed list
    have hzip : (fn.block b).body.zipIdx = bs.reverse ++ q :: as.reverse := by
      rw [← List.reverse_reverse (fn.block b).body.zipIdx, hl]
      simp
    have hlen : q.2 = bs.length := by simpa using (zipIdx_split hzip).1
    have hbody : (fn.block b).body = (bs.reverse.map (·.1)) ++ d :: as.reverse.map (·.1) := by
      have := congrArg (List.map Prod.fst) hzip
      rw [List.zipIdx_map_fst] at this
      simpa [hq] using this
    have hd : d ∉ as.reverse.map (·.1) := by
      intro hd
      obtain ⟨r, hr, hrd⟩ := List.mem_map.1 hd
      have := has r (List.mem_reverse.1 hr)
      simp [hrd] at this
    simp only [Option.map_some, Option.mem_def, Option.some.injEq, forall_eq', hlen]
    rw [hbody, List.drop_append, List.mem_append]
    simp only [List.length_map, List.length_reverse]
    constructor
    · intro hlt
      have : (bs.reverse.map (·.1)).drop n = [] := by
        rw [List.drop_eq_nil_iff]
        simp
        omega
      rw [this]
      obtain ⟨k, hk⟩ : ∃ k, n - bs.length = k + 1 := ⟨n - bs.length - 1, by omega⟩
      rw [hk, List.drop_succ_cons]
      rintro (h | h)
      · cases h
      · exact hd (List.mem_of_mem_drop h)
    · intro hn
      by_contra hle
      push Not at hle
      refine hn (Or.inr ?_)
      rw [Nat.sub_eq_zero_of_le hle]
      exact List.mem_cons_self

theorem ready_iff : fn.Ready b n d ↔ ∃ home, (fn.instr d).block = some home ∧ home ∈ fn.layout ∧
    if home = b then d ∉ (fn.block b).body.drop n else fn.Precedes home b := by
  unfold Ready
  simp only [place?_lt_iff]

theorem nodup_eraseDups {α : Type} [DecidableEq α] (l : List α) : l.eraseDups.Nodup := by
  induction hn : l.length using Nat.strong_induction_on generalizing l with
  | _ n ih =>
    cases l with
    | nil => simp
    | cons a t =>
      rw [List.eraseDups_cons, List.nodup_cons, List.mem_eraseDups]
      have hlen := List.length_filter_le (fun b => !b == a) t
      rw [List.length_cons] at hn
      exact ⟨by simp, ih _ (by omega) _ rfl⟩

theorem nodup_succs (fn : Func) (b : BlockId) : (fn.succs b).Nodup := nodup_eraseDups _

theorem mem_listed_of_body (hi : i ∈ (fn.block b).body) : i ∈ fn.listed b :=
  List.mem_append_left _ (List.mem_append_right _ hi)

namespace Assembled

variable (h : fn.Assembled)
include h

theorem nodup_listed (hb : b ∈ fn.layout) : (fn.listed b).Nodup :=
  (List.nodup_flatMap.1 h.once).1 b hb

theorem nodup_body (hb : b ∈ fn.layout) : (fn.block b).body.Nodup := by
  have hnd := h.nodup_listed hb
  unfold listed at hnd
  exact (List.nodup_append.1 (List.nodup_append.1 hnd).1).2.1

/-- The block of an instruction that an attached block lists. -/
theorem block_unique {a : BlockId} (ha : a ∈ fn.layout) (hb : b ∈ fn.layout) (hi : i ∈ fn.listed a)
    (hi' : i ∈ fn.listed b) : a = b := by
  by_contra hne
  have : Std.Symm (Function.onFun List.Disjoint fn.listed) := ⟨fun _ _ hd => List.Disjoint.symm hd⟩
  exact (List.nodup_flatMap.1 h.once).2.forall ha hb hne hi hi'

theorem listed_le {i : Nat} (hb : b ∈ fn.layout) (hi : i ∈ fn.listed b) : i ≤ fn.instrs.size :=
  (hasInstr_iff.1 (h.real b hb i hi)).2

end Assembled

namespace Sound

variable (h : fn.Sound)
include h

theorem nodup_layout : fn.layout.Nodup := by
  refine (List.nodup_flatMap.1 h.once).2.imp_of_mem ?_
  rintro a _ ha - hdis rfl
  obtain ⟨t, ht, -⟩ := (h.fitting a ha).term
  have hm : t ∈ fn.listed a := by simp [listed, ht]
  exact hdis hm hm

theorem drawable : fn.Drawable where
  nodup := h.nodup_layout
  hasBlock _ hb := h.hasBlock hb
  targets b hb s hs := ((h.fitting b hb).succs s (mem_succs.2 hs)).2.1

theorem assembled : fn.Assembled where
  once := h.once
  real b hb i hi := hasInstr_of_block ((h.fitting b hb).parent i hi)
  nodup := h.nodup_layout
  succs b hb s hs := ((h.fitting b hb).succs s hs).1
  preds b hb a := ⟨fun ha => ⟨h.preds b hb a ha, ((h.fitting b hb).preds a ha).2⟩,
    fun ha => ((h.fitting a ha.1).succs b ha.2).2.2⟩
  entry b hb := (h.entry b hb).2

theorem nodup_listed (hb : b ∈ fn.layout) : (fn.listed b).Nodup := h.assembled.nodup_listed hb

theorem block_unique {a : BlockId} (ha : a ∈ fn.layout) (hb : b ∈ fn.layout) (hi : i ∈ fn.listed a)
    (hi' : i ∈ fn.listed b) :
    a = b := h.assembled.block_unique ha hb hi hi'

theorem listed_le {i : Nat} (hb : b ∈ fn.layout) (hi : i ∈ fn.listed b) : i ≤ fn.instrs.size :=
  h.assembled.listed_le hb hi

/-- Where a definition is that was passed. -/
theorem exists_home (hr : fn.Ready b n d) (hres : (fn.instr d).op.hasResult = true) :
    ∃ home ∈ fn.layout, d ∈ fn.listed home ∧
    (home = b ∧ (d ∈ (fn.block b).phis ∨ d ∈ (fn.block b).body.take n) ∨ home ≠ b ∧
      fn.Precedes home b) := by
  obtain ⟨home, hblock, hl, hplace⟩ := ready_iff.1 hr
  have hd := h.home home hl d hblock
  refine ⟨home, hl, hd, ?_⟩
  by_cases hb : home = b
  · refine Or.inl ⟨hb, ?_⟩
    rw [if_pos hb] at hplace
    rw [hb] at hd hl
    rcases List.mem_append.1 hd with hd | hd
    · refine (List.mem_append.1 hd).imp id fun hd => ?_
      rw [← List.take_append_drop n (fn.block b).body, List.mem_append] at hd
      exact hd.resolve_right hplace
    · -- a terminator defines nothing
      obtain ⟨t, ht, hterm⟩ := (h.fitting b hl).term
      rw [ht, Option.toList_some, List.mem_singleton] at hd
      rw [← hd] at hterm
      cases hop : (fn.instr d).op <;> simp [hop, Op.hasResult, Op.isTerminator] at hres hterm
  · rw [if_neg hb] at hplace
    exact Or.inr ⟨hb, hplace⟩

end Sound
end Func

namespace Context

variable {fn : Func} {c c₀ : Context} {s : Sets} {k x y : Nat} {b : BlockId}

theorem Drawn.edge_inj (h : Drawn fn c) (hs : ∀ b ∈ fn.layout, ∀ t ∈ fn.succs b, t ∈ fn.layout)
    (hx : x < c.edges.size) (hy : y < c.edges.size)
    (hsource : (c.edge x).source = (c.edge y).source)
    (htarget : (c.edge x).target = (c.edge y).target) : x = y := by
  have hnd : (edgesOf fn).Nodup := by
    refine List.nodup_flatMap.2 ⟨?_, ?_⟩
    · rintro ⟨b, i⟩ hb
      have hb' : b ∈ fn.layout := List.mem_of_getElem? (List.mem_zipIdx_iff_getElem?.1 hb)
      refine List.Nodup.map_on (fun s hs1 t ht1 he => ?_) (fn.nodup_succs b)
      obtain ⟨j, hj⟩ := List.getElem?_of_mem (hs b hb' s hs1)
      obtain ⟨k, hk⟩ := List.getElem?_of_mem (hs b hb' t ht1)
      rw [h.idxOf?_layout hj, h.idxOf?_layout hk] at he
      simp only [Option.getD_some, Edge.mk.injEq, and_true, true_and] at he
      rw [he, hk, Option.some.injEq] at hj
      exact hj.symm
    · have hz : (fn.layout.zipIdx.map (·.2)).Nodup := List.nodup_zipIdx_map_snd _
      refine (List.pairwise_map.1 hz).imp ?_
      rintro ⟨a, i⟩ ⟨b, j⟩ hij e he he'
      obtain ⟨s, -, rfl⟩ := List.mem_map.1 he
      obtain ⟨t, -, heq⟩ := List.mem_map.1 he'
      exact hij (congrArg Edge.source heq).symm
  have hsplit : (c.edge x).split = (c.edge y).split := by rw [h.split_eq_none, h.split_eq_none]
  have he : c.edge x = c.edge y := by
    cases hex : c.edge x
    cases hey : c.edge y
    simp only [hex, hey] at hsource htarget hsplit
    rw [hsource, htarget, hsplit]
  have h1 := h.edge_mem hx
  have h2 := h.edge_mem hy
  rw [he] at h1
  obtain ⟨hlx, hx'⟩ := List.getElem?_eq_some_iff.1 h1
  obtain ⟨hly, hy'⟩ := List.getElem?_eq_some_iff.1 h2
  exact (List.Nodup.getElem_inj_iff hnd).1 (hx'.trans hy'.symm)

end Context
end CodeMotion
