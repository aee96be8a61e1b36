import Mathlib
import CodeMotion.Proofs.Generation

/-! Random functions are well-formed, whatever numbers their source answers: the numbers decide
how many blocks there are, how they end and what is in them, but never whether the parts fit
together. -/

namespace CodeMotion

theorem indexBelow_ok {n : Nat} {x : Int} (h0 : 0 ≤ x) (hn : x < n) :
    indexBelow n x = .ok x.toNat := by
  unfold indexBelow
  rw [if_pos ⟨h0, hn⟩]

theorem range_split {n k : Nat} {pre post : List Nat} (h : List.range n = pre ++ k :: post) :
    k = pre.length ∧ k < n := by
  have hget : (List.range n)[pre.length]? = some k := by simp [h]
  obtain ⟨hlt, hk⟩ := List.getElem?_eq_some_iff.1 hget
  rw [List.getElem_range] at hk
  rw [List.length_range] at hlt
  exact ⟨hk.symm, hk ▸ hlt⟩

theorem Builder.phiPairs_append {l : List (BlockId ⊕ Value)} {pairs : List (BlockId × Value)}
    (h : phiPairs l = .ok pairs) (b : BlockId) (v : Value) :
    phiPairs (l ++ [.inl b, .inr v]) = .ok (pairs ++ [(b, v)]) := by
  fun_induction phiPairs l generalizing pairs with
  | case1 =>
    cases h
    rfl
  | case2 c w rest ih =>
    cases hrest : phiPairs rest with
    | error err => simp [hrest] at h
    | ok ps =>
      simp only [hrest, Functor.map, Except.map, Except.ok.injEq] at h
      subst h
      simp [phiPairs, ih hrest, Functor.map, Except.map]
  | case3 => cases h

namespace Mixer

/-- The mixer keeps to the bounds: a remainder is below the number of choices. -/
theorem number_mem (a b : Int) (m : Mixer) :
    min a b ≤ (number a b m).1 ∧ (number a b m).1 ≤ max a b := by
  have hbound : ∀ v : Nat, v < (max a b - min a b).toNat + 1 → min a b ≤ min a b + v ∧
      min a b + v ≤ max a b := by
    intro v hv
    omega
  unfold number
  by_cases hab : a = b
  · rw [if_pos hab]
    exact ⟨min_le_left a b, le_max_left a b⟩
  · rw [if_neg hab]
    extract_lets low n
    generalize m.draw63 = drawn, drawBelow _ UInt64.size m = kept
    obtain ⟨v, -⟩ := drawn
    obtain ⟨w, -⟩ := kept
    by_cases hn : n &&& (n - 1) = 0
    · rw [if_pos hn]
      exact hbound _ (Nat.lt_succ_of_le Nat.and_le_right)
    · rw [if_neg hn]
      exact hbound _ (Nat.mod_lt _ (Nat.succ_pos _))

theorem source_bounded : source.Bounded := number_mem

end Mixer

namespace RandomConfig

variable {σ α β : Type} {g : NumberSource σ} {bd : Builder}

/-- A generator does not fail, whatever its source answers, and what it leaves has a property. -/
def Runs (m : Gen σ α) (bd : Builder) (Q : α → Builder → Prop) : Prop :=
  ∀ s, ∃ a s' bd', m (s, bd) = .ok (a, (s', bd')) ∧ Q a bd'

namespace Runs

variable {m : Gen σ α} {Q Q' : α → Builder → Prop} {R : β → Builder → Prop}

theorem ret {a : α} (h : Q a bd) : Runs (pure a : Gen σ α) bd Q := fun s => ⟨a, s, bd, rfl, h⟩

theorem mono (h : Runs m bd Q) (hq : ∀ a t, Q a t → Q' a t) : Runs m bd Q' := fun s => by
  obtain ⟨a, s', bd', hm, ha⟩ := h s
  exact ⟨a, s', bd', hm, hq a bd' ha⟩

theorem bind {f : α → Gen σ β} (h : Runs m bd Q) (hf : ∀ a t, Q a t → Runs (f a) t R) :
    Runs (m >>= f) bd R := fun s => by
  obtain ⟨a, s', bd', hm, hq⟩ := h s
  obtain ⟨b, s'', bd'', hb, hr⟩ := hf a bd' hq s'
  refine ⟨b, s'', bd'', ?_, hr⟩
  show StateT.bind m f (s, bd) = _
  simp [StateT.bind, hm, hb, Bind.bind, Except.bind]

theorem number (hg : g.Bounded) (a b : Int) :
    Runs (number g a b) bd fun n t => t = bd ∧ min a b ≤ n ∧ n ≤ max a b :=
  fun s => ⟨_, _, _, rfl, rfl, hg a b s⟩

theorem build {c : Change Builder α} {a : α} {t : Builder} (h : c bd = .ok a t) (hq : Q a t) :
    Runs (build c : Gen σ α) bd Q :=
  fun s => ⟨a, s, t, by simp [RandomConfig.build, h], hq⟩

theorem lift {x : Except Fault α} {a : α} (h : x = .ok a) :
    Runs (liftM x : Gen σ α) bd fun b t => b = a ∧ t = bd := fun s => by
  subst h
  exact ⟨a, s, bd, rfl, rfl, rfl⟩

theorem get : Runs (get : Gen σ (σ × Builder)) bd fun a t => a.2 = bd ∧ t = bd :=
  fun s => ⟨(s, bd), s, bd, rfl, rfl, rfl⟩

/-- A loop that collects results keeps what each step keeps; the invariant speaks of the
steps done. -/
theorem mapM (I : List α → List β → Builder → Prop) {f : α → Gen σ β} {l : List α}
    (hstep : ∀ pre a post rs t, l = pre ++ a :: post → I pre rs t → Runs (f a) t fun b t' =>
      I (pre ++ [a]) (rs ++ [b]) t') (h0 : I [] [] bd) : Runs (l.mapM f) bd (I l) := by
  suffices H : ∀ rest pre rs t, l = pre ++ rest → I pre rs t → Runs (rest.mapM f) t fun rs' t' =>
    I l (rs ++ rs') t' from
    H l [] [] bd rfl h0
  intro rest
  induction rest with
  | nil =>
    intro pre rs t hl hi
    rw [List.mapM_nil]
    exact ret (by simpa [hl] using hi)
  | cons a rest ih =>
    intro pre rs t hl hi
    rw [List.mapM_cons]
    refine (hstep pre a rest rs t hl hi).bind fun b t₁ h₁ => ?_
    refine (ih (pre ++ [a]) (rs ++ [b]) t₁ (by simp [hl]) h₁).bind fun rs' t₂ h₂ => ?_
    exact ret (by simpa using h₂)

theorem foldlM (I : List α → β → Builder → Prop) {f : β → α → Gen σ β} {l : List α} {b : β}
    (hstep : ∀ pre a post c t, l = pre ++ a :: post → I pre c t → Runs (f c a) t (I (pre ++ [a])))
    (h0 : I [] b bd) : Runs (l.foldlM f b) bd (I l) := by
  suffices H : ∀ rest pre c t, l = pre ++ rest → I pre c t → Runs (rest.foldlM f c) t (I l) from
    H l [] b bd rfl h0
  intro rest
  induction rest with
  | nil => exact fun pre c t hl hi => ret (by simpa [hl] using hi)
  | cons a rest ih =>
    intro pre c t hl hi
    rw [List.foldlM_cons]
    exact (hstep pre a rest c t hl hi).bind fun d t₁ h₁ => ih (pre ++ [a]) d t₁ (by simp [hl]) h₁

theorem forM (I : List α → Builder → Prop) {f : α → Gen σ PUnit} {l : List α}
    (hstep : ∀ pre a post t, l = pre ++ a :: post → I pre t → Runs (f a) t fun _ t' =>
      I (pre ++ [a]) t') (h0 : I [] bd) : Runs (l.forM f) bd fun _ => I l := by
  suffices H : ∀ rest pre t, l = pre ++ rest → I pre t → Runs (rest.forM f) t fun _ t' => I l t'
    from H l [] bd rfl h0
  intro rest
  induction rest with
  | nil => exact fun pre t hl hi => ret (by simpa [hl] using hi)
  | cons a rest ih =>
    intro pre t hl hi
    exact (hstep pre a rest t hl hi).bind fun _ t₁ h₁ => ih (pre ++ [a]) t₁ (by simp [hl]) h₁

theorem pick (hg : g.Bounded) {l : List Value} (hl : l ≠ []) :
    Runs (pick g l) bd fun v t => t = bd ∧ v ∈ l := by
  have hpos := List.length_pos_iff.2 hl
  refine (number hg 0 (l.length - 1)).bind fun n t ⟨ht, h0, hn⟩ => ?_
  have h1 : 0 ≤ n := by omega
  have h2 : n < l.length := by omega
  have hlt : n.toNat < l.length := by omega
  subst ht
  refine (lift (a := l[n.toNat]) ?_).mono fun v t ⟨hv, ht⟩ => ⟨ht, hv ▸ List.getElem_mem hlt⟩
  rw [indexBelow_ok h1 h2]
  exact entryAt_ok.2 (List.getElem?_eq_getElem hlt)

theorem target (hg : g.Bounded) {blocks : Nat} (hb : 1 < blocks) :
    Runs (target g blocks) bd fun a t => t = bd ∧ 0 < a ∧ a < blocks := by
  refine (number hg 1 (blocks - 1)).bind fun n t ⟨ht, h1, hn⟩ => ?_
  subst ht
  refine (lift (indexBelow_ok (x := n) (n := blocks) (by omega) (by omega))).mono fun a t ⟨ha,
    ht⟩ => ⟨ht, ?_⟩
  omega

theorem plan (hg : g.Bounded) {blocks i : Nat} (hi : i < blocks) :
    Runs (plan g blocks i) bd fun p t => t = bd ∧ ∀ a ∈ p.targets, 0 < a ∧ a < blocks := by
  refine (number hg 0 9).bind fun k t ⟨ht, _⟩ => ?_
  subst ht
  by_cases hlast : i + 1 = blocks ∨ k ≤ 1
  · rw [if_pos hlast]
    exact ret ⟨rfl, nofun⟩
  · rw [if_neg hlast]
    have hb : 1 < blocks := by omega
    split
    · refine (target hg hb).bind fun a t ⟨ht, ha⟩ => ret ⟨ht, ?_⟩
      simpa [Plan.targets] using ha
    · split
      · refine (target hg hb).bind fun a t ⟨ht, ha⟩ => ?_
        subst ht
        refine (target hg hb).bind fun b t ⟨ht, hb⟩ => ret ⟨ht, ?_⟩
        simpa [Plan.targets] using ⟨ha, hb⟩
      · refine (target hg hb).bind fun a t ⟨ht, ha⟩ => ?_
        subst ht
        refine (target hg hb).bind fun b t ⟨ht, hb'⟩ => ?_
        subst ht
        refine (target hg hb).bind fun c t ⟨ht, hc⟩ => ret ⟨ht, ?_⟩
        simpa [Plan.targets] using ⟨ha, hb', hc⟩

end Runs

structure Sketched (blocks : Nat) (plans : List (BlockId × Plan)) (fn : Func) : Prop where
  layout : fn.layout = plans.map (·.1)
  nodup : fn.layout.Nodup
  isExternal : fn.isExternal = false
  hasBlock : ∀ b ∈ fn.layout, fn.hasBlock b = true
  empty : ∀ b, fn.block b = {}
  none : ∀ i, fn.instr i = default
  targets : ∀ q ∈ plans, ∀ a ∈ q.2.targets, 0 < a ∧ a < blocks

namespace Sketched

variable {blocks : Nat} {plans : List (BlockId × Plan)} {fn : Func}

theorem start (name : String) (blocks : Nat) :
    Sketched blocks [] { name, params := ["x", "y", "c"] } :=
  ⟨rfl, List.nodup_nil, rfl, nofun, fun b => by rw [Func.block, Table.get?_empty]; rfl,
    fun i => by rw [Func.instr, Table.get?_empty]; rfl, nofun⟩

/-- One more block is created and gets an end. -/
theorem createBlock (h : Sketched blocks plans fn) {p : Plan}
    (hp : ∀ a ∈ p.targets, 0 < a ∧ a < blocks) :
    Sketched blocks (plans ++ [(fn.blocks.size + 1, p)]) (fn.createBlock "").2 := by
  have hlayout : (fn.createBlock "").2.layout = fn.layout ++ [fn.blocks.size + 1] := rfl
  have hnew : fn.blocks.size + 1 ∉ fn.layout := fun hm =>
    absurd (Func.hasBlock_iff.1 (h.hasBlock _ hm)).2 (Nat.not_succ_le_self _)
  have hsize : (fn.createBlock "").2.blocks.size = fn.blocks.size + 1 := Table.size_push _ _
  refine ⟨?_, ?_, h.isExternal, fun b hb => ?_, fun b => ?_, h.none, ?_⟩
  · rw [hlayout, h.layout, List.map_append]
    rfl
  · rw [hlayout, List.nodup_append]
    refine ⟨h.nodup, List.nodup_singleton _, fun b hb c hc he => hnew ?_⟩
    rw [← List.mem_singleton.1 hc, ← he]
    exact hb
  · rw [Func.hasBlock_iff, hsize]
    rw [hlayout, List.mem_append, List.mem_singleton] at hb
    rcases hb with hb | rfl
    · obtain ⟨h0, hle⟩ := Func.hasBlock_iff.1 (h.hasBlock b hb)
      exact ⟨h0, Nat.le_succ_of_le hle⟩
    · exact ⟨Nat.succ_pos _, le_rfl⟩
  · have : (fn.createBlock "").2.block b = (fn.newBlock "").2.block b := rfl
    rw [this, Func.block_newBlock]
    split
    · rfl
    · exact h.empty b
  · intro q hq
    rcases List.mem_append.1 hq with hq | hq
    · exact h.targets q hq
    · rw [List.mem_singleton.1 hq]
      exact hp

theorem laid (h : Sketched plans.length plans fn) : Laid plans := ⟨h.layout ▸ h.nodup, h.targets⟩

theorem underway (h : Sketched blocks plans fn) : Underway plans 0 fn := by
  have horder : fn.Orderly := by
    refine ⟨⟨fun b i hi => ?_, fun b i hi => ?_⟩, fun b => ?_, fun i d hd => ?_, fun i hop => ?_,
      fun i hop => ?_⟩
    · simp [Func.listed, h.empty] at hi
    · simp [h.empty] at hi
    · simp [h.empty]
    · simp [h.none] at hd
      cases hd
    · simp [h.none] at hop
      cases hop
    · simp [h.none] at hop
      cases hop
  refine ⟨horder, h.layout, h.isExternal,
    fun q hq => h.hasBlock _ (h.layout ▸ List.mem_map_of_mem hq), fun i q hi p hp => ?_,
    fun i q hi hlt => absurd hlt (Nat.not_lt_zero i), fun i q hi _ => by
      rw [h.empty], fun i q hi => by rw [h.empty]; rfl⟩
  simp [h.empty] at hp

end Sketched

theorem Runs.planAll (hg : g.Bounded) {blocks : Nat} (h0 : Sketched blocks [] bd.func) :
    Runs (planAll g blocks) bd fun o t => o.plans.length = blocks ∧ Sketched blocks o.plans t.func ∧
      Recorded o := by
  have hloop : Runs (RandomConfig.planAll g blocks) bd fun o t =>
    o.plans.length = (List.range blocks).length ∧
      o.preds.size = blocks ∧ Sketched blocks o.plans t.func ∧ Recorded o := by
    unfold RandomConfig.planAll
    refine Runs.foldlM (α := Nat) (fun pre o t => o.plans.length = pre.length ∧
      o.preds.size = blocks ∧
      Sketched blocks o.plans t.func ∧ Recorded o) ?_ ⟨rfl, Array.size_replicate, h0, .empty blocks⟩
    rintro pre i post o t hl ⟨hlen, hsize, h, hr⟩
    obtain ⟨rfl, hi⟩ : i = pre.length ∧ i < blocks := range_split hl
    refine Runs.bind (Runs.build (Q := fun b u => b = t.func.blocks.size + 1 ∧
      u.func = (t.func.createBlock "").2)
      rfl ⟨rfl, rfl⟩) ?_
    rintro b u ⟨rfl, hu⟩
    refine (Runs.plan hg hi).bind fun p v ⟨hv, hp⟩ => Runs.ret ⟨by simp [hlen], ?_, ?_, ?_⟩
    · exact (size_foldl_record _ _).trans hsize
    · rw [hv, hu]
      exact h.createBlock hp
    · rw [← hlen]
      exact hr.plan (q := (_, p)) fun a ha => hsize ▸ (hp a ha).2
  exact hloop.mono fun o t ⟨hlen, _, h, hr⟩ => ⟨by simpa using hlen, h, hr⟩

/-- A block is at hand: it has the values of the pool, and there are slots. -/
structure Filling (plans : List (BlockId × Plan)) (slots pool : List Value) (k : Nat)
    (q : BlockId × Plan) (bd : Builder) : Prop where
  underway : Underway plans k bd.func
  cursor : bd.cursor = some q.1
  slots : ∀ v ∈ slots, ∃ d, v = .instr d ∧ bd.func.Slot d
  pool : ∀ d, .instr d ∈ pool → (bd.func.instr d).block = some q.1

variable {plans : List (BlockId × Plan)} {slots pool : List Value} {k : Nat} {q : BlockId × Plan}
  {ins : Instr}

namespace Filling

variable (h : Filling plans slots pool k q bd)
include h

theorem eq_mk : bd = ⟨bd.func, some q.1⟩ := by rw [← h.cursor]

theorem slots_onward {fn : Func} (hon : bd.func.Onward fn) :
    ∀ v ∈ slots, ∃ d, v = .instr d ∧ fn.Slot d := fun v hv =>
  (h.slots v hv).imp fun _ hd => ⟨hd.1, h.underway.slot_onward hon hd.2⟩

/-- The block at hand goes on, perhaps with a new value. -/
theorem onward {fn : Func} {vs : List Value} (hu : Underway plans k fn) (hon : bd.func.Onward fn)
    (hvs : ∀ d, .instr d ∈ vs → (fn.instr d).block = some q.1) :
    Filling plans slots (pool ++ vs) k q ⟨fn, some q.1⟩ := by
  refine ⟨hu, rfl, h.slots_onward hon, fun d hd => ?_⟩
  rcases List.mem_append.1 hd with hd | hd
  · exact hon.block (h.pool d hd)
  · exact hvs d hd

theorem suits_pool (hargs : ∀ v ∈ ins.args, v ∈ pool) (hload : ins.op ≠ .load)
    (hstore : ins.op ≠ .store) : bd.func.Suits q.1 ins :=
  ⟨fun d hd => Or.inl (h.pool d (hargs _ hd)), fun hop => absurd hop hload,
    fun hop => absurd hop hstore⟩

theorem suits_load {a : Value} (ha : a ∈ slots) :
    bd.func.Suits q.1 { op := .load, args := [a] } := by
  obtain ⟨d, rfl, hd⟩ := h.slots a ha
  refine ⟨fun d' hd' => Or.inr ?_, fun _ => ⟨d, rfl, hd⟩, nofun⟩
  rw [List.mem_singleton, Value.instr.injEq] at hd'
  exact hd' ▸ hd

theorem suits_store {v a : Value} (hv : v ∈ pool) (ha : a ∈ slots) :
    bd.func.Suits q.1 { op := .store, args := [v, a] } := by
  obtain ⟨d, rfl, hd⟩ := h.slots a ha
  refine ⟨fun d' hd' => ?_, nofun, fun _ => ⟨v, d, rfl, hd⟩⟩
  rw [List.mem_cons, List.mem_singleton, Value.instr.injEq] at hd'
  rcases hd' with hd' | hd'
  · exact Or.inl (h.pool d' (hd' ▸ hv))
  · exact Or.inr (hd' ▸ hd)

theorem emit (ins : Instr) (hl : Laid plans) (hk : plans[k]? = some q) (hs : bd.func.Suits q.1 ins)
    (hop : ins.op ≠ .phi) (hop' : ins.op.isTerminator = false) :
    Runs (build (Builder.emit ins) : Gen σ InstrId) bd fun i t =>
      Filling plans slots (pool ++ [.instr i]) k q t := by
  obtain ⟨fn, hrun, hu, hon, -, hins, -⟩ := h.underway.emit hl hk hs hop hop'
  rw [← h.eq_mk] at hrun
  refine Runs.build hrun (h.onward hu hon fun d hd => ?_)
  rw [List.mem_singleton, Value.instr.injEq] at hd
  rw [hd, hins]

/-- A phi takes a constant from every block that leads to the one at hand. -/
theorem phi (hl : Laid plans) (hk : plans[k]? = some q) (hg : g.Bounded) :
    Runs (phi g (predsOf plans k)) bd fun vs t => Filling plans slots (pool ++ vs) k q t := by
  have hsame : Filling plans slots (pool ++ []) k q bd := by simpa using h
  unfold RandomConfig.phi
  split
  · exact Runs.ret hsame
  · refine (Runs.number hg 0 1).bind fun n t ⟨ht, _⟩ => ?_
    subst ht
    split
    · exact Runs.ret hsame
    · have hargs : Runs ((predsOf plans k).mapM fun p => do
          return [Sum.inl p, Sum.inr (Value.const (← number g 0 2))] :
            Gen σ (List (List (BlockId ⊕ Value)))) t
          fun rs u => u = t ∧ rs.flatten.length % 2 = 0 ∧
            ∃ pairs, Builder.phiPairs rs.flatten = .ok pairs ∧
            pairs.map (·.1) = predsOf plans k ∧ ∀ d, .instr d ∉ pairs.map (·.2) := by
        refine Runs.mapM (fun pre rs u => u = t ∧ rs.flatten.length % 2 = 0 ∧
          ∃ pairs, Builder.phiPairs rs.flatten = .ok pairs ∧
          pairs.map (·.1) = pre ∧ ∀ d, .instr d ∉ pairs.map (·.2)) ?_ ⟨rfl, rfl, [],
            rfl, rfl, nofun⟩
        rintro pre p post rs u - ⟨rfl, hlen, pairs, hpairs, hin, hconst⟩
        refine (Runs.number hg 0 2).bind fun n v ⟨hv, _⟩ =>
          Runs.ret ⟨hv, ?_, pairs ++ [(p, .const n)], ?_, ?_, ?_⟩
        · rw [List.flatten_append, List.length_append]
          simpa using hlen
        · rw [List.flatten_append]
          exact Builder.phiPairs_append hpairs p (.const n)
        · simp [hin]
        · simpa using hconst
      refine hargs.bind ?_
      rintro rs u ⟨rfl, hlen, pairs, hpairs, hin, hconst⟩
      obtain ⟨fn, hrun, hu, hon, -, hblock⟩ := h.underway.phi hl hk hlen hpairs hin hconst
      rw [← h.eq_mk] at hrun
      refine (Runs.build (Q := fun i v => Filling plans slots (pool ++ [.instr i]) k q v)
        hrun ?_).bind fun i v hv => Runs.ret hv
      refine h.onward hu hon fun d hd => ?_
      rw [List.mem_singleton, Value.instr.injEq] at hd
      rw [hd, hblock]

/-- One more instruction. -/
theorem instr (hl : Laid plans) (hk : plans[k]? = some q) (hg : g.Bounded) (hslots : slots ≠ [])
    (hpool : pool ≠ []) :
    Runs (instr g slots pool) bd fun vs t => Filling plans slots (pool ++ vs) k q t := by
  unfold RandomConfig.instr
  refine (Runs.number hg 0 9).bind fun n t ⟨ht, _⟩ => ?_
  subst ht
  split
  · refine (Runs.pick hg hslots).bind ?_
    rintro a t ⟨rfl, ha⟩
    exact (h.emit _ hl hk (h.suits_load ha) nofun rfl).bind fun i u hu => Runs.ret hu
  · split
    · refine (Runs.pick hg hpool).bind ?_
      rintro v t ⟨rfl, hv⟩
      refine (Runs.pick hg hslots).bind ?_
      rintro a t ⟨rfl, ha⟩
      refine (h.emit _ hl hk (h.suits_store hv ha) nofun rfl).bind fun i u hu => Runs.ret ?_
      exact ⟨hu.underway, hu.cursor, hu.slots, fun d hd => hu.pool d (by simpa using Or.inl hd)⟩
    · split
      · refine (Runs.number hg 0 2).bind fun m t ⟨ht, _⟩ => ?_
        subst ht
        refine (Runs.pick hg hpool).bind ?_
        rintro x t ⟨rfl, hx⟩
        refine (Runs.pick hg hpool).bind ?_
        rintro y t ⟨rfl, hy⟩
        refine Runs.bind (h.emit { op := .binary _, args := [x, y] } hl hk
          (h.suits_pool ?_ nofun nofun) nofun rfl)
          fun i u hu => Runs.ret hu
        simpa using ⟨hx, hy⟩
      · split
        · refine (Runs.pick hg hpool).bind ?_
          rintro v t ⟨rfl, hv⟩
          refine Runs.bind (h.emit { op := .unary .neg, args := [v] } hl hk
            (h.suits_pool ?_ nofun nofun) nofun rfl)
            fun i u hu => Runs.ret hu
          simpa using hv
        · refine (Runs.number hg 0 2).bind fun m t ⟨ht, _⟩ => ?_
          subst ht
          refine (Runs.pick hg hpool).bind ?_
          rintro v t ⟨rfl, hv⟩
          refine Runs.bind (h.emit { op := .call, args := [v], callee := _ } hl hk
            (h.suits_pool ?_ nofun nofun) nofun rfl)
            fun i u hu => Runs.ret hu
          simpa using hv

theorem instrs (hl : Laid plans) (hk : plans[k]? = some q) (hg : g.Bounded) (hslots : slots ≠ [])
    (hpool : pool ≠ []) (n : Nat) :
    Runs (instrs g slots n pool) bd fun vs t => Filling plans slots vs k q t ∧ vs ≠ [] := by
  induction n generalizing pool bd with
  | zero => exact Runs.ret ⟨h, hpool⟩
  | succ n ih =>
    refine (h.instr hl hk hg hslots hpool).bind fun vs t ht => ?_
    exact ih ht (by simp [hpool])

/-- The block at hand is ended as its plan says. -/
theorem terminate (ins : Instr) (hl : Laid plans) (hk : plans[k]? = some q)
    (hargs : ∀ d, .instr d ∈ ins.args → .instr d ∈ pool) (hop : ins.op.isTerminator = true)
    (ht : ins.targets = q.2.targets.map (blockAt plans)) :
    Runs (build (Builder.terminate ins) : Gen σ InstrId) bd fun _ t =>
      Underway plans (k + 1) t.func ∧
      ∀ v ∈ slots, ∃ d, v = .instr d ∧ t.func.Slot d := by
  have hload : ins.op ≠ .load := fun he => by rw [he] at hop; cases hop
  have hstore : ins.op ≠ .store := fun he => by rw [he] at hop; cases hop
  have hs : bd.func.Suits q.1 ins :=
    ⟨fun d hd => Or.inl (h.pool d (hargs d hd)), fun he => absurd he hload,
      fun he => absurd he hstore⟩
  obtain ⟨fn, hrun, hu, hon⟩ := h.underway.terminate hl hk hs hop ht
  rw [← h.eq_mk] at hrun
  exact Runs.build hrun ⟨hu, h.slots_onward hon⟩

theorem finish (hl : Laid plans) (hk : plans[k]? = some q) (hg : g.Bounded) (hpool : pool ≠ [])
    {cond : Value} (hcond : ∀ d, cond ≠ .instr d) :
    Runs (finish g plans cond pool q.2) bd fun _ t => Underway plans (k + 1) t.func ∧
      ∀ v ∈ slots, ∃ d, v = .instr d ∧ t.func.Slot d := by
  unfold RandomConfig.finish
  obtain ⟨b, p⟩ := q
  cases p with
  | ret =>
    refine (Runs.pick hg hpool).bind ?_
    rintro v t ⟨rfl, hv⟩
    refine Runs.bind (h.terminate { op := .ret, args := [v] } hl hk (fun d hd => ?_) rfl rfl)
      fun _ u hu => Runs.ret hu
    rw [List.mem_singleton.1 hd]
    exact hv
  | jump a =>
    exact Runs.bind (h.terminate { op := .jump, targets := [_] } hl hk nofun rfl rfl) fun _ u hu =>
      Runs.ret hu
  | branch a c =>
    refine Runs.bind (h.terminate { op := .branch, args := [cond], targets := [_, _] } hl hk
      (fun d hd => ?_) rfl rfl)
      fun _ u hu => Runs.ret hu
    exact absurd (List.mem_singleton.1 hd).symm (hcond d)
  | switch a c e =>
    refine (Runs.pick hg hpool).bind ?_
    rintro v t ⟨rfl, hv⟩
    refine Runs.bind (h.terminate
      { op := .switch, args := [v, .const 0, .const 1], targets := [_, _, _] }
      hl hk (fun d hd => ?_) rfl rfl)
      fun _ u hu => Runs.ret hu
    rw [List.mem_cons] at hd
    rcases hd with hd | hd
    · exact hd ▸ hv
    · simp at hd

end Filling

/-- A block is filled and ended. -/
theorem Runs.fill {o : Outline} (hg : g.Bounded) (hl : Laid o.plans) (hr : Recorded o)
    (hk : o.plans[k]? = some q) (hslots : slots ≠ []) (cfg : RandomConfig)
    (hu : Underway o.plans k bd.func) (hs : ∀ v ∈ slots, ∃ d, v = .instr d ∧ bd.func.Slot d) :
    Runs (fill g cfg o slots k q.1 q.2) bd fun _ t => Underway o.plans (k + 1) t.func ∧
      ∀ v ∈ slots, ∃ d, v = .instr d ∧ t.func.Slot d := by
  unfold RandomConfig.fill
  refine Runs.bind (Runs.build (Q := fun _ t => t = ⟨bd.func, some q.1⟩) rfl rfl) ?_
  rintro ⟨⟩ t rfl
  refine Runs.get.bind ?_
  rintro ⟨s, c⟩ t ⟨rfl, rfl⟩
  have hstart : Filling o.plans slots [bd.func.param 0, bd.func.param 1, .const 0, .const 1] k q
      ⟨bd.func, some q.1⟩ :=
    ⟨hu, rfl, hs, fun d hd => by simp [Func.param] at hd⟩
  rw [hr.preds]
  refine (hstart.phi hl hk hg).bind fun vs t ht => ?_
  refine (Runs.number hg 0 cfg.maxInstrs).bind fun n u ⟨hu, _⟩ => ?_
  subst hu
  refine (ht.instrs hl hk hg hslots (by simp) n.toNat).bind fun pool u ⟨hu, hpool⟩ => ?_
  exact hu.finish hl hk hg hpool nofun

/-- The slots are made in the entry. -/
theorem Runs.allocas {fn : Func} (hl : Laid plans) (hk : plans[0]? = some q)
    (hu : Underway plans 0 fn) (n : Nat) :
    Runs ((List.range n).mapM fun _ => (RandomConfig.build Builder.alloca : Gen σ InstrId)) ⟨fn,
      some q.1⟩ fun ds t =>
      Underway plans 0 t.func ∧ ds.length = n ∧ ∀ d ∈ ds, t.func.Slot d := by
  have hloop : Runs ((List.range n).mapM fun _ => (RandomConfig.build Builder.alloca :
    Gen σ InstrId)) ⟨fn, some q.1⟩ fun ds t =>
      t.cursor = some q.1 ∧ Underway plans 0 t.func ∧ ds.length = (List.range n).length ∧ ∀ d ∈ ds,
        t.func.Slot d := by
    refine Runs.mapM (fun pre ds t => t.cursor = some q.1 ∧ Underway plans 0 t.func ∧
      ds.length = pre.length ∧
      ∀ d ∈ ds, t.func.Slot d) ?_ ⟨rfl, hu, rfl, nofun⟩
    rintro pre i post ds ⟨fn, c⟩ - ⟨rfl, hu, hlen, hds⟩
    have hsuits : fn.Suits q.1 { op := .alloca } := ⟨nofun, nofun, nofun⟩
    obtain ⟨f, hrun, hf, hon, -, hins, hbody⟩ := hu.emit hl hk hsuits nofun rfl
    refine Runs.build hrun ⟨rfl, hf, by simp [hlen], ?_⟩
    rw [List.forall_mem_append, List.forall_mem_singleton]
    refine ⟨fun d hd => hu.slot_onward hon (hds d hd), by rw [hins], q.1, ?_, hbody⟩
    rw [Option.mem_def, hf.layout, List.head?_map, List.head?_eq_getElem?, hk]
    rfl
  exact hloop.mono fun ds t ht => ⟨ht.2.1, by simpa using ht.2.2.1, ht.2.2.2⟩

theorem Runs.generate (hg : g.Bounded) (cfg : RandomConfig) (hmin : 1 ≤ cfg.minBlocks)
    (hmax : 1 ≤ cfg.maxBlocks) (hslots : 1 ≤ cfg.slots) {fn : Func} (h0 : ∀ n, Sketched n [] fn) :
    Runs (RandomConfig.generate g cfg) { func := fn } fun _ t =>
      ∃ plans, Laid plans ∧ Underway plans plans.length t.func ∧
        min cfg.minBlocks cfg.maxBlocks ≤ plans.length ∧ (plans.length : Int) ≤
          max cfg.minBlocks cfg.maxBlocks := by
  unfold RandomConfig.generate
  refine (Runs.number hg cfg.minBlocks cfg.maxBlocks).bind fun n t ⟨ht, hlow, hhigh⟩ => ?_
  subst ht
  rw [if_neg (by omega)]
  refine (Runs.planAll hg (h0 n.toNat)).bind fun o t ⟨hlen, hsk, hrec⟩ => ?_
  have hpos : 0 < o.plans.length := by omega
  have hl : Laid o.plans := (hlen ▸ hsk).laid
  have hk : o.plans[0]? = some o.plans[0] := List.getElem?_eq_getElem hpos
  refine (Runs.lift (entryAt_ok.2 hk)).bind ?_
  rintro first t' ⟨rfl, rfl⟩
  refine Runs.bind (Runs.build (Q := fun _ u => u = ⟨t'.func, some o.plans[0].1⟩) rfl rfl) ?_
  rintro ⟨⟩ u rfl
  refine (Runs.allocas hl hk hsk.underway cfg.slots.toNat).bind fun ds u ⟨hu, hds, hslot⟩ => ?_
  have hne : ds.map Value.instr ≠ [] := by
    rw [ne_eq, List.map_eq_nil_iff, ← List.length_eq_zero_iff]
    omega
  refine (Runs.forM (fun pre v => Underway o.plans pre.length v.func ∧ ∀ w ∈ ds.map Value.instr,
    ∃ d, w = .instr d ∧ v.func.Slot d) ?_
    ⟨hu, ?_⟩).mono fun _ v ⟨hv, _⟩ => ⟨o.plans, hl, ?_, ?_, ?_⟩
  · rintro pre ⟨q, k⟩ post v hsplit ⟨hv, hslots⟩
    obtain ⟨rfl, hq⟩ := Func.zipIdx_split hsplit
    exact (Runs.fill hg hl hrec hq hne cfg hv hslots).mono fun _ w hw => by simpa using hw
  · intro w hw
    obtain ⟨d, hd, rfl⟩ := List.mem_map.1 hw
    exact ⟨d, rfl, hslot d hd⟩
  · simpa using hv
  · omega
  · omega

structure Admits (cfg : RandomConfig) (fn : Func) : Prop where
  verify : fn.verify = .ok none
  nodup : fn.layout.Nodup
  blocks : min cfg.minBlocks cfg.maxBlocks ≤ fn.layout.length ∧ (fn.layout.length : Int) ≤
    max cfg.minBlocks cfg.maxBlocks
  entry : ∃ e, fn.entry? = some e ∧ (fn.block e).preds = [] ∧ ∀ b ∈ fn.layout, e ∉ fn.succs b
  phis : ∀ b ∈ fn.layout, ∀ p ∈ (fn.block b).phis,
    (fn.instr p).args.length = (fn.instr p).incoming.length ∧
    (fn.instr p).incoming.Nodup ∧ ∀ a, a ∈ (fn.instr p).incoming ↔ a ∈ fn.layout ∧ b ∈ fn.succs a
  address : ∀ i, (fn.instr i).op = .load ∨ (fn.instr i).op = .store →
    ∃ d, fn.address i = .ok (.instr d) ∧ fn.Slot d

theorem Laid.nodup_predsOf (h : Laid plans) (i : Nat) : (predsOf plans i).Nodup :=
  h.nodup.sublist (List.filter_sublist.map _)

namespace Underway

variable {fn : Func} (h : Underway plans plans.length fn) (hl : Laid plans)
include h hl

theorem mem_predsOf_iff {i : Nat} (hi : plans[i]? = some q) {a : BlockId} :
    a ∈ predsOf plans i ↔ a ∈ fn.layout ∧ q.1 ∈ fn.succs a := by
  have hs := h.structured hl
  have hq : q.1 ∈ fn.layout := h.layout ▸ List.mem_map_of_mem (List.mem_of_getElem? hi)
  have hpreds : (fn.block q.1).preds = predsOf plans i := by rw [h.preds i q hi, List.take_length]
  rw [← hpreds]
  constructor
  · intro ha
    refine ⟨?_, ((hs.fitting q.1 hq).preds a ha).2⟩
    rw [hpreds] at ha
    obtain ⟨r, hr, -, rfl⟩ := mem_predsOf.1 ha
    exact h.layout ▸ List.mem_map_of_mem hr
  · exact fun ⟨ha, hsucc⟩ => ((hs.fitting a ha).succs q.1 hsucc).2.2

theorem verify (hpos : 0 < plans.length) : fn.verify = .ok none := by
  have hs := h.structured hl
  have hempty : fn.isEmpty = false := by
    rw [Func.isEmpty, h.isExternal, Bool.false_or, List.isEmpty_eq_false_iff, h.layout, ne_eq,
      List.map_eq_nil_iff]
    exact List.ne_nil_of_length_pos hpos
  rw [Func.verify_eq_none, Func.defect?_eq_none hempty]
  refine ⟨hs, fun b hb => h.supplied hs (fun p hp => ?_) (hs.attached hb)⟩
  obtain ⟨q, hq, rfl⟩ := List.mem_map.1 (h.layout ▸ hs.attached hb)
  obtain ⟨i, hi⟩ := List.getElem?_of_mem hq
  exact (h.phis i q hi p hp).2.2.2

end Underway

theorem Underway.address {fn : Func} {k : Nat} (h : Underway plans k fn) (i : InstrId)
    (hop : (fn.instr i).op = .load ∨ (fn.instr i).op = .store) :
    ∃ d, fn.address i = .ok (.instr d) ∧ fn.Slot d := by
  unfold Func.address
  rcases hop with hop | hop
  · obtain ⟨d, hargs, hd⟩ := h.load i hop
    exact ⟨d, by rw [hop, hargs]; rfl, hd⟩
  · obtain ⟨v, d, hargs, hd⟩ := h.store i hop
    exact ⟨d, by rw [hop, hargs]; rfl, hd⟩

/-- Whatever a bounded source answers, a random function comes out, and it is as its
configuration asks. -/
theorem randomFunc_admitted (g : NumberSource σ) (hg : g.Bounded) (cfg : RandomConfig)
    (hmin : 1 ≤ cfg.minBlocks) (hmax : 1 ≤ cfg.maxBlocks) (hslots : 1 ≤ cfg.slots) (name : String)
    (s : σ) : ∃ fn, randomFunc g cfg name s = .ok fn ∧ cfg.Admits fn := by
  obtain ⟨_, s', bd, hrun, plans, hl, hu, hlow, hhigh⟩ :=
    Runs.generate hg cfg hmin hmax hslots (Sketched.start name) s
  have hs := hu.structured hl
  have hpos : 0 < plans.length := by omega
  refine ⟨bd.func, by rw [randomFunc, hrun], hu.verify hl hpos, hu.layout ▸ hl.nodup, ?_, ?_,
    fun b hb p hp => ?_, hu.address⟩
  · rw [hu.layout, List.length_map]
    exact ⟨hlow, hhigh⟩
  · have hhead : plans[0].1 ∈ bd.func.layout.head? := by
      rw [hu.layout, List.head?_map, List.head?_eq_getElem?, List.getElem?_eq_getElem hpos]
      rfl
    obtain ⟨hhas, hpreds⟩ := hs.entry _ hhead
    refine ⟨plans[0].1, Option.filter_eq_some_iff.2 ⟨hhead, hhas⟩, hpreds, fun b hb hsucc => ?_⟩
    have hmem := ((hs.fitting b hb).succs _ hsucc).2.2
    rw [hpreds] at hmem
    cases hmem
  · obtain ⟨q, hq, rfl⟩ := List.mem_map.1 (hu.layout ▸ hb)
    obtain ⟨i, hi⟩ := List.getElem?_of_mem hq
    obtain ⟨-, hin, hlen, -⟩ := hu.phis i q hi p hp
    exact ⟨hlen, hin ▸ hl.nodup_predsOf i, fun a => by rw [hin]; exact hu.mem_predsOf_iff hl hi⟩

/-- The bounds may stand in either order. -/
def mixed : RandomConfig := { minBlocks := 5, maxBlocks := 2, maxInstrs := 3, slots := 1 }

/-- The switch of the second block leads back to it twice, and its phi takes one value for that. -/
theorem randomFunc_admitted_mixed : 1 ≤ mixed.minBlocks ∧ 1 ≤ mixed.maxBlocks ∧ 1 ≤ mixed.slots ∧
    Mixer.source.Bounded ∧ ∃ fn, randomFunc Mixer.source mixed "f" (Mixer.ofSeed 2668) = .ok fn ∧
      mixed.Admits fn ∧
      fn.instrs.rows.toList.map (·.op) = [.alloca, .load, .jump, .phi, .store, .unary .neg,
        .switch, .ret] ∧
      fn.targets 2 = [3, 2, 2] ∧ (fn.block 2).phis = [4] ∧ (fn.instr 4).incoming = [1, 2] := by
  have hbounds : 1 ≤ mixed.minBlocks ∧ 1 ≤ mixed.maxBlocks ∧ 1 ≤ mixed.slots := by decide
  obtain ⟨hmin, hmax, hslots⟩ := hbounds
  obtain ⟨fn, hrun, hfn⟩ :=
    randomFunc_admitted Mixer.source Mixer.source_bounded mixed hmin hmax hslots "f"
    (Mixer.ofSeed 2668)
  have hdrawn : (randomFunc Mixer.source mixed "f" (Mixer.ofSeed 2668)).map (fun fn =>
      (fn.instrs.rows.toList.map (·.op), fn.targets 2, (fn.block 2).phis, (fn.instr 4).incoming)) =
      .ok ([.alloca, .load, .jump, .phi, .store, .unary .neg, .switch, .ret], [3, 2, 2],
        [4], [1, 2]) := by
    decide +kernel
  rw [hrun] at hdrawn
  simp only [Except.map, Except.ok.injEq, Prod.mk.injEq] at hdrawn
  exact ⟨hmin, hmax, hslots, Mixer.source_bounded, fn, hrun, hfn, hdrawn⟩

end RandomConfig
end CodeMotion
