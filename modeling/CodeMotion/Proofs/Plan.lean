import Mathlib
import CodeMotion.Motion
import CodeMotion.Proofs.Charts

/-! The plan of a motion: the copies that will be made, in their order, the edges that will be
split, and the numbers that the new instructions and blocks will have. An edge that gets a copy ends
in a block with several predecessors, so that every copy finds its place in front of the target. -/

namespace CodeMotion

open Motion.State (isCritical)

/-- A function with the placement that its motion carries out. -/
structure Plan where
  func : Func
  context : Context
  sets : Sets

namespace Func

variable {fn : Func} {b : BlockId}

def Forks (fn : Func) (b : BlockId) : Prop := ∃ a ∈ fn.succs b, ∃ a' ∈ fn.succs b, a ≠ a'

def Joins (fn : Func) (b : BlockId) : Prop :=
  ∃ a ∈ fn.layout, ∃ a' ∈ fn.layout, a ≠ a' ∧ b ∈ fn.succs a ∧ b ∈ fn.succs a'

instance : Decidable (fn.Forks b) :=
  inferInstanceAs (Decidable (∃ a ∈ fn.succs b, ∃ a' ∈ fn.succs b, a ≠ a'))

instance : Decidable (fn.Joins b) :=
  inferInstanceAs (Decidable (∃ a ∈ fn.layout, ∃ a' ∈ fn.layout, a ≠ a' ∧ b ∈ fn.succs a ∧
    b ∈ fn.succs a'))

theorem only?_eq_some {α : Type} {l : List α} {a : α} : only? l = some a ↔ l = [a] := by
  unfold only?
  split <;> simp_all

theorem filter_only? {fn : Func} {l : List BlockId} (h : ∀ a ∈ l, fn.hasBlock a = true) :
    (only? l).filter (fn.hasBlock ·) = only? l := by
  cases ho : only? l with
  | none => rfl
  | some a =>
    rw [Option.filter_some, h a (by rw [only?_eq_some.1 ho]; exact List.mem_singleton_self a),
      if_pos rfl]

theorem only?_eq_none {α : Type} {l : List α} {a a' : α} (ha : a ∈ l) (ha' : a' ∈ l)
    (hne : a ≠ a') : only? l = none := by
  cases ho : only? l with
  | none => rfl
  | some c =>
    rw [only?_eq_some.1 ho, List.mem_singleton] at ha ha'
    exact absurd (ha.trans ha'.symm) hne

theorem exists_ne_of_only? {α : Type} {l : List α} {a : α} (hl : l.Nodup) (ha : a ∈ l)
    (ho : only? l = none) : ∃ b ∈ l, ∃ b' ∈ l, b ≠ b' := by
  match l, hl, ha, ho with
  | [c], _, _, ho => cases ho
  | c :: c' :: t, hl, _, _ =>
    exact ⟨c, by simp, c', by simp, fun hc => (List.nodup_cons.1 hl).1 (by simp [hc])⟩

end Func

namespace Plan

variable (p : Plan)

def blockAt (k : Nat) : BlockId := (p.context.node k).block

def source (x : Nat) : BlockId := p.blockAt (p.context.edge x).source

def target (x : Nat) : BlockId := p.blockAt (p.context.edge x).target

def copiesOn (x : Nat) : List (Nat × Nat) := (p.sets.insert.of x).toList.map (x, ·)

/-- All copies in the order in which they are made. -/
def copies : List (Nat × Nat) := (List.range p.context.edges.size).flatMap p.copiesOn

def isCut (x : Nat) : Bool :=
  !(p.sets.insert.of x).isEmpty && isCritical p.func (p.source x) (p.target x)

def cuts : List Nat := (List.range p.context.edges.size).filter p.isCut

def splitId (x : Nat) : BlockId := p.func.blocks.size + 1 + p.cuts.idxOf x

def attached : List BlockId := p.func.layout ++ p.cuts.map p.splitId

def place (x : Nat) : BlockId := if p.isCut x then p.splitId x else p.source x

def copyId (q : Nat × Nat) : InstrId := p.func.instrs.size + 1 + p.copies.idxOf q

def jumpId (x : Nat) : InstrId := p.func.instrs.size + p.copies.length + 1 + p.cuts.idxOf x

/-- The instruction that a number of the catalog was given for. -/
def origin (e : Nat) : InstrId := (p.context.catalog.entries[e]?.map (·.instr)).getD 0

/-- A plan that the analysis made for a function with exact predecessors, where no edge leads to the
entry. -/
structure Drafted (p : Plan) : Prop where
  solved : ∃ c₀, Context.Solved p.func c₀ p.context p.sets
  decided : p.context.Decided p.sets
  given : p.context.sets = some p.sets
  preds : ∀ b ∈ p.func.layout, ∀ a, a ∈ (p.func.block b).preds ↔ a ∈ p.func.layout ∧
    b ∈ p.func.succs a
  target_ne_zero : ∀ {x}, x < p.context.edges.size → (p.context.edge x).target ≠ 0

/-- What holds of a plan for a function whose blocks and lists fit together. -/
structure Feasible (p : Plan) : Prop extends p.Drafted where
  assembled : p.func.Assembled

/-- A plan for a function that the verifier accepts, with one insertion of a value at most. -/
structure Valid (p : Plan) : Prop extends p.Feasible where
  sound : p.func.Sound
  single : p.context.options.singleInsertion = true

instance {p : Plan} : Coe p.Feasible p.Drafted := ⟨Feasible.toDrafted⟩

instance {p : Plan} : Coe p.Valid p.Feasible := ⟨Valid.toFeasible⟩

variable {p} {k x y e : Nat} {b : BlockId} {q : Nat × Nat}

theorem mem_copiesOn : q ∈ p.copiesOn x ↔ q.1 = x ∧ q.2 ∈ p.sets.insert.of x := by
  obtain ⟨y, e⟩ := q
  simp only [copiesOn, List.mem_map, BitSet.mem_toList, Prod.mk.injEq]
  constructor
  · rintro ⟨f, hf, rfl, rfl⟩
    exact ⟨rfl, hf⟩
  · rintro ⟨rfl, he⟩
    exact ⟨e, he, rfl, rfl⟩

theorem mem_copies : q ∈ p.copies ↔ q.1 < p.context.edges.size ∧ q.2 ∈ p.sets.insert.of q.1 := by
  simp only [copies, List.mem_flatMap, List.mem_range, mem_copiesOn]
  constructor
  · rintro ⟨x, hx, rfl, he⟩
    exact ⟨hx, he⟩
  · rintro ⟨hx, he⟩
    exact ⟨_, hx, rfl, he⟩

theorem mem_cuts : x ∈ p.cuts ↔ x < p.context.edges.size ∧ p.isCut x = true := by
  simp [cuts]

theorem nodup_cuts (p : Plan) : p.cuts.Nodup := List.nodup_range.filter _

theorem nodup_toList (s : BitSet) : s.toList.Nodup := List.nodup_range.filter _

theorem nodup_copies (p : Plan) : p.copies.Nodup := by
  refine List.nodup_flatMap.2 ⟨fun x _ => (nodup_toList _).map (Prod.mk_right_injective x), ?_⟩
  refine List.nodup_range.imp fun {x y} hxy q hq hq' => hxy ?_
  rw [← (mem_copiesOn.1 hq).1, ← (mem_copiesOn.1 hq').1]

theorem splitId_inj (hx : x ∈ p.cuts) (h : p.splitId x = p.splitId y) : x = y := by
  have : p.cuts.idxOf x = p.cuts.idxOf y := Nat.add_left_cancel h
  exact (List.idxOf_inj hx).1 this

theorem lt_splitId (p : Plan) (x : Nat) : p.func.blocks.size < p.splitId x := by
  unfold splitId
  exact Nat.lt_of_lt_of_le (Nat.lt_succ_self _) (Nat.le_add_right _ _)

theorem block_splitId (p : Plan) (x : Nat) : p.func.block (p.splitId x) = {} := by
  refine Func.block_eq_default (Bool.eq_false_iff.2 fun hb => ?_)
  exact absurd (Func.hasBlock_iff.1 hb).2 (Nat.not_le_of_lt (p.lt_splitId x))

theorem copyId_inj {r : Nat × Nat} (hq : q ∈ p.copies) (h : p.copyId q = p.copyId r) : q = r := by
  have : p.copies.idxOf q = p.copies.idxOf r := Nat.add_left_cancel h
  exact (List.idxOf_inj hq).1 this

theorem lt_copyId (p : Plan) (q : Nat × Nat) : p.func.instrs.size < p.copyId q := by
  unfold copyId
  exact Nat.lt_of_lt_of_le (Nat.lt_succ_self _) (Nat.le_add_right _ _)

theorem copyId_le (hq : q ∈ p.copies) : p.copyId q ≤ p.func.instrs.size + p.copies.length := by
  have := List.idxOf_lt_length_of_mem hq
  show p.func.instrs.size + 1 + p.copies.idxOf q ≤ p.func.instrs.size + p.copies.length
  omega

theorem lt_jumpId (p : Plan) (x : Nat) : p.func.instrs.size + p.copies.length < p.jumpId x := by
  unfold jumpId
  exact Nat.lt_of_lt_of_le (Nat.lt_succ_self _) (Nat.le_add_right _ _)

namespace Drafted

variable (h : p.Drafted)
include h

theorem charts : p.context.Charts p.func := by
  obtain ⟨c₀, hs⟩ := h.solved
  exact hs.charts (hs.enclosed fun _ => h.target_ne_zero)

theorem wired : p.context.Wired := h.charts.wired

theorem split_eq_none (x : Nat) : (p.context.edge x).split = none := by
  obtain ⟨c₀, hs⟩ := h.solved
  rw [hs.graph.split, hs.drawn.split_eq_none]

theorem layout_node (hk : k < p.context.nodes.size) : p.func.layout[k]? = some (p.blockAt k) :=
  h.charts.layout_node hk

theorem blockAt_mem (hk : k < p.context.nodes.size) : p.blockAt k ∈ p.func.layout :=
  h.charts.block_mem hk

theorem exists_node (hb : b ∈ p.func.layout) : ∃ k < p.context.nodes.size, p.blockAt k = b :=
  h.charts.exists_node hb

theorem blockAt_inj {j : Nat} (hj : j < p.context.nodes.size) (hk : k < p.context.nodes.size)
    (he : p.blockAt j = p.blockAt k) :
    j = k := h.charts.block_inj hj hk he

theorem source_mem (hx : x < p.context.edges.size) : p.source x ∈ p.func.layout :=
  h.blockAt_mem (h.wired.source_lt x hx)

theorem target_mem (hx : x < p.context.edges.size) : p.target x ∈ p.func.layout :=
  h.blockAt_mem (h.wired.target_lt x hx)

theorem leads (hx : x < p.context.edges.size) : p.func.Leads (p.source x) (p.target x) :=
  h.charts.leads hx

theorem exists_edge (hk : k < p.context.nodes.size) (hl : p.func.Leads (p.blockAt k) b) :
    ∃ x < p.context.edges.size, (p.context.edge x).source = k ∧ p.target x = b :=
  h.charts.exists_edge hk hl

theorem edge_inj (hx : x < p.context.edges.size) (hy : y < p.context.edges.size)
    (hsource : p.source x = p.source y) (htarget : p.target x = p.target y) : x = y :=
  h.charts.edge_inj hx hy (h.blockAt_inj (h.wired.source_lt x hx) (h.wired.source_lt y hy) hsource)
    (h.blockAt_inj (h.wired.target_lt x hx) (h.wired.target_lt y hy) htarget)

theorem hasBlock (hb : b ∈ p.func.layout) : p.func.hasBlock b = true :=
  h.charts.enclosed.hasBlock b hb

theorem entry (h0 : 0 < p.context.nodes.size) : p.func.entry? = some (p.blockAt 0) :=
  h.charts.entry h0

theorem walk {π : List Nat} (hπ : p.context.Path π k) :
    p.func.Walk (π.map p.source) (p.blockAt k) := h.charts.walk hπ

theorem exists_path {l : List BlockId} (hl : p.func.Walk l b) :
    ∃ π k, p.context.Path π k ∧ p.blockAt k = b ∧ π.map p.source = l :=
  h.charts.exists_path hl

theorem exists_entry (he : e ∈ p.sets.insert.of x) (hx : x < p.context.edges.size) :
    ∃ n, p.context.catalog.entries[e]? = some n ∧ p.origin e = n.instr := by
  obtain ⟨c₀, hs⟩ := h.solved
  have hlt := BitSet.lt_size he
  rw [hs.numbered.fits.insert.2 x hx] at hlt
  have hn : p.context.catalog.entries[e]? = some (p.context.catalog.entries[e]) :=
    List.getElem?_eq_getElem hlt
  exact ⟨_, hn, by rw [origin, hn]; rfl⟩

theorem mem_insertOn (hx : x < p.context.edges.size) (he : e ∈ p.sets.insert.of x) :
    e ∈ p.context.insertOn p.sets x :=
  ((h.decided.insert_iff x hx e).1 he).1

/-- An edge with a copy comes behind a node to which control can come. -/
theorem reach_source (hq : q ∈ p.copies) : p.context.Reach (p.context.edge q.1).source := by
  obtain ⟨hx, he⟩ := mem_copies.1 hq
  obtain ⟨c₀, hs⟩ := h.solved
  exact ((hs.mem_insertOn hx).1 (h.mem_insertOn hx he)).1

/-- An edge that gets a copy is not the only one to its target. -/
theorem joins (hx : x < p.context.edges.size) (he : e ∈ p.sets.insert.of x) :
    p.func.Joins (p.target x) := by
  obtain ⟨c₀, hs⟩ := h.solved
  obtain ⟨y, hy, htarget, hne, -⟩ := hs.exists_other hx (h.target_ne_zero hx) (h.mem_insertOn hx he)
  have hyx : p.target y = p.target x := by rw [target, htarget, target]
  exact ⟨p.source x, h.source_mem hx, p.source y, h.source_mem hy,
    fun hs => hne (h.edge_inj hy hx hs.symm hyx), h.leads hx,
    hyx ▸ h.leads hy⟩

theorem hasBlock_succ (hx : x < p.context.edges.size) :
    ∀ a ∈ p.func.succs (p.source x), p.func.hasBlock a = true :=
  fun a ha => h.hasBlock (h.charts.enclosed.succs _ (h.source_mem hx) a ha)

theorem hasBlock_pred (hx : x < p.context.edges.size) :
    ∀ a ∈ (p.func.block (p.target x)).preds, p.func.hasBlock a = true :=
  fun a ha => h.hasBlock ((h.preds _ (h.target_mem hx) a).1 ha).1

/-- The edges that are split are those with a copy that lead from a fork to a join. -/
theorem isCut_iff (hx : x < p.context.edges.size) : p.isCut x = true ↔
    (p.sets.insert.of x).isEmpty = false ∧ p.func.Forks (p.source x) ∧
      p.func.Joins (p.target x) := by
  unfold isCut isCritical Func.singleSucc? Func.singlePred?
  rw [Func.filter_only? (h.hasBlock_succ hx), Func.filter_only? (h.hasBlock_pred hx),
    Bool.and_eq_true, Bool.and_eq_true,
    Bool.not_eq_true', Option.isNone_iff_eq_none, Option.isNone_iff_eq_none]
  constructor
  · rintro ⟨hsome, hsucc, -⟩
    obtain ⟨e, he⟩ : ∃ e, e ∈ p.sets.insert.of x := by
      rw [Bool.eq_false_iff, ne_eq, BitSet.isEmpty_iff] at hsome
      push Not at hsome
      exact hsome
    exact ⟨hsome, Func.exists_ne_of_only? (p.func.nodup_succs _) (h.leads hx) hsucc, h.joins hx he⟩
  · rintro ⟨hsome, ⟨a, ha, a', ha', hne⟩, ⟨d, hd, d', hd', hne', hl, hl'⟩⟩
    refine ⟨hsome, Func.only?_eq_none ha ha' hne, Func.only?_eq_none ?_ ?_ hne'⟩
    · exact (h.preds _ (h.target_mem hx) d).2 ⟨hd, hl⟩
    · exact (h.preds _ (h.target_mem hx) d').2 ⟨hd', hl'⟩

/-- An edge that gets a copy and is not split leaves a block with no other successor. -/
theorem succs_source (hx : x < p.context.edges.size) (he : e ∈ p.sets.insert.of x)
    (hc : p.isCut x = false) : p.func.succs (p.source x) = [p.target x] := by
  have hsome : (p.sets.insert.of x).isEmpty = false := by
    rw [Bool.eq_false_iff, ne_eq, BitSet.isEmpty_iff]
    exact fun hall => hall e he
  have hl : p.target x ∈ p.func.succs (p.source x) := h.leads hx
  cases ho : Func.only? (p.func.succs (p.source x)) with
  | none =>
    have hforks := Func.exists_ne_of_only? (p.func.nodup_succs _) hl ho
    exact absurd ((h.isCut_iff hx).2 ⟨hsome, hforks, h.joins hx he⟩) (Bool.eq_false_iff.1 hc)
  | some a =>
    rw [Func.only?_eq_some] at ho
    rw [ho, List.mem_singleton] at hl
    rw [ho, hl]

theorem ne_splitId (hb : b ∈ p.func.layout) : b ≠ p.splitId x := by
  rintro rfl
  have := (Func.hasBlock_iff.1 (h.hasBlock hb)).2
  exact absurd this (Nat.not_le_of_lt (p.lt_splitId x))

theorem nodup_attached : p.attached.Nodup := by
  refine List.nodup_append.2 ⟨h.charts.enclosed.nodup, ?_, ?_⟩
  · exact List.Nodup.map_on (fun x hx y _ he => splitId_inj hx he) p.nodup_cuts
  · rintro b hb _ hs rfl
    obtain ⟨x, -, rfl⟩ := List.mem_map.1 hs
    exact h.ne_splitId hb rfl

theorem place_eq_splitId (hx : x ∈ p.cuts) (hy : y < p.context.edges.size)
    (he : p.place y = p.splitId x) : y = x := by
  unfold place at he
  split at he
  · exact (splitId_inj hx he.symm).symm
  · exact absurd he (h.ne_splitId (h.source_mem hy))

theorem place_mem (hx : x < p.context.edges.size) : p.place x ∈ p.attached := by
  unfold place
  split
  · next hc => exact List.mem_append_right _ (List.mem_map_of_mem (mem_cuts.2 ⟨hx, hc⟩))
  · exact List.mem_append_left _ (h.source_mem hx)

/-- The terminator of a block that leads on exists. -/
theorem term_le (hx : x < p.context.edges.size) :
    ∀ t ∈ (p.func.block (p.source x)).term, t ≤ p.func.instrs.size := by
  intro t ht
  have hleads : p.target x ∈ p.func.targets (p.source x) := Func.mem_succs.1 (h.leads hx)
  rw [Func.targets_of_term ht] at hleads
  by_contra hlt
  rw [Func.instr_eq_default (Bool.eq_false_iff.2 fun hi => hlt (Func.hasInstr_iff.1 hi).2)]
    at hleads
  cases hleads

/-- So does the instruction that is copied, since it can be moved. -/
theorem origin_le (hx : x < p.context.edges.size) (he : e ∈ p.sets.insert.of x) :
    p.origin e ≤ p.func.instrs.size := by
  obtain ⟨c₀, hs⟩ := h.solved
  obtain ⟨m, hm, horigin⟩ := h.exists_entry he hx
  have hmove := (hs.numbered.lawful.entry e m hm).2.1
  rw [horigin]
  by_contra hlt
  rw [Func.instr_eq_default (Bool.eq_false_iff.2 fun hi => hlt (Func.hasInstr_iff.1 hi).2)] at hmove
  cases hmove

end Drafted

theorem Feasible.of_assembled (ha : p.func.Assembled)
    (hs : ∃ c₀, Context.Solved p.func c₀ p.context p.sets) (hd : p.context.Decided p.sets)
    (hg : p.context.sets = some p.sets) : p.Feasible := by
  refine ⟨⟨hs, hd, hg, ha.preds, fun {x} hx h0 => ?_⟩, ha⟩
  obtain ⟨c₀, hs⟩ := hs
  have hc := hs.charts ⟨ha.nodup, hs.drawn.drawable.hasBlock, ha.succs⟩
  have hpos : 0 < p.context.nodes.size := h0 ▸ hc.wired.target_lt x hx
  have hhead : p.func.layout.head? = some (p.blockAt 0) := by
    rw [List.head?_eq_getElem?, hc.layout_node hpos, blockAt]
  have hpred :=
    (ha.preds _ (hc.block_mem (hc.wired.target_lt x hx)) _).2
      ⟨hc.block_mem (hc.wired.source_lt x hx), hc.leads hx⟩
  rw [h0, show (p.context.node 0).block = p.blockAt 0 from rfl, ha.entry _ hhead] at hpred
  cases hpred

end Plan
end CodeMotion
