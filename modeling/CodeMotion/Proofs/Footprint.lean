import Mathlib
import CodeMotion.Proofs.Optimize

/-! What a motion does to any function, well-formed or not, as far as its counters tell. Copying,
rewiring and removal keep the graph; a new instruction stays in a body once it is there; and what
has not been counted has not been done. -/

namespace CodeMotion

namespace Func

variable {fn f g : Func} {b d : BlockId} {i j : InstrId} {n : Nat}

/-- A function with the graph of another: the lists of its blocks other than the bodies are the
same, and so are the blocks that old instructions name. -/
structure Keeps (fn g : Func) : Prop where
  layout : g.layout = fn.layout
  phis : ∀ b, (g.block b).phis = (fn.block b).phis
  term : ∀ b, (g.block b).term = (fn.block b).term
  preds : ∀ b, (g.block b).preds = (fn.block b).preds
  instrs_size : fn.instrs.size ≤ g.instrs.size
  targets : ∀ i ≤ fn.instrs.size, (g.instr i).targets = (fn.instr i).targets
  incoming : ∀ i ≤ fn.instrs.size, (g.instr i).incoming = (fn.instr i).incoming

theorem Keeps.refl (fn : Func) : fn.Keeps fn :=
  ⟨rfl, fun _ => rfl, fun _ => rfl, fun _ => rfl, le_rfl, fun _ _ => rfl, fun _ _ => rfl⟩

theorem Keeps.trans (h : fn.Keeps f) (h' : f.Keeps g) : fn.Keeps g where
  layout := h'.layout.trans h.layout
  phis b := (h'.phis b).trans (h.phis b)
  term b := (h'.term b).trans (h.term b)
  preds b := (h'.preds b).trans (h.preds b)
  instrs_size := h.instrs_size.trans h'.instrs_size
  targets i hi := (h'.targets i (hi.trans h.instrs_size)).trans (h.targets i hi)
  incoming i hi := (h'.incoming i (hi.trans h.instrs_size)).trans (h.incoming i hi)

theorem Keeps.succs (h : fn.Keeps g) (hb : ∀ t ∈ (fn.block b).term, t ≤ fn.instrs.size) :
    g.succs b = fn.succs b := by
  unfold Func.succs
  rw [targets_congr (h.term b) fun t ht => h.targets t (hb t ht)]

theorem Keeps.singleSucc? (h : fn.Keeps g) (hsize : g.blocks.size = fn.blocks.size)
    (hb : ∀ t ∈ (fn.block b).term, t ≤ fn.instrs.size) : g.singleSucc? b = fn.singleSucc? b := by
  have hhas : g.hasBlock = fn.hasBlock :=
    funext fun b => by rw [Bool.eq_iff_iff, hasBlock_iff, hasBlock_iff, hsize]
  unfold Func.singleSucc?
  rw [h.succs hb, hhas]

theorem keeps_newBlock (fn : Func) (name : String) : fn.Keeps (fn.newBlock name).2 := by
  have hnew : fn.block (fn.blocks.size + 1) = {} :=
    block_eq_default (Bool.eq_false_iff.2 fun h =>
      absurd (hasBlock_iff.1 h).2 (Nat.not_succ_le_self _))
  have hblock : ∀ b, ((fn.newBlock name).2.block b).phis = (fn.block b).phis ∧
    ((fn.newBlock name).2.block b).term = (fn.block b).term ∧
      ((fn.newBlock name).2.block b).preds = (fn.block b).preds := by
    intro b
    rw [block_newBlock]
    split
    · next hb =>
      subst hb
      rw [hnew]
      exact ⟨rfl, rfl, rfl⟩
    · exact ⟨rfl, rfl, rfl⟩
  exact ⟨rfl, fun b => (hblock b).1, fun b => (hblock b).2.1, fun b => (hblock b).2.2, le_rfl,
    fun _ _ => rfl, fun _ _ => rfl⟩

theorem keeps_clone (fn : Func) (i : InstrId) : fn.Keeps (fn.clone i).2 := by
  have hold : ∀ j ≤ fn.instrs.size, (fn.clone i).2.instr j = fn.instr j := fun j hj => by
    rw [instr_clone, if_neg (Nat.ne_of_lt (Nat.lt_succ_of_le hj))]
  refine ⟨rfl, fun _ => rfl, fun _ => rfl, fun _ => rfl, ?_, fun j hj => by rw [hold j hj],
    fun j hj => by rw [hold j hj]⟩
  exact (Nat.le_succ _).trans_eq (Table.size_push _ _).symm

/-- A change of the body of one block and of the parent of one instruction. -/
theorem keeps_rebody (fn : Func) (i : InstrId) (p : Option BlockId) (b : BlockId)
    (k : List InstrId → List InstrId) :
    fn.Keeps ((fn.setParent i p).modifyBlock b fun blk => { blk with body := k blk.body }) := by
  have hblock : ∀ d, ((fn.setParent i p).modifyBlock b fun blk =>
    { blk with body := k blk.body }).block d = fn.block d ∨
      ((fn.setParent i p).modifyBlock b fun blk => { blk with body := k blk.body }).block d =
        { fn.block d with body := k (fn.block d).body } := by
    intro d
    rw [block_modifyBlock]
    split
    · exact Or.inr rfl
    · exact Or.inl rfl
  have hinstr : ∀ j, ((fn.setParent i p).modifyBlock b fun blk =>
    { blk with body := k blk.body }).instr j = fn.instr j ∨
      ((fn.setParent i p).modifyBlock b fun blk => { blk with body := k blk.body }).instr j =
        { fn.instr j with block := p } := by
    intro j
    rw [instr_modifyBlock, instr_setParent]
    split
    · exact Or.inr rfl
    · exact Or.inl rfl
  refine ⟨rfl, fun d => ?_, fun d => ?_, fun d => ?_, ?_, fun j _ => ?_, fun j _ => ?_⟩
  · rcases hblock d with h | h <;> rw [h]
  · rcases hblock d with h | h <;> rw [h]
  · rcases hblock d with h | h <;> rw [h]
  · exact Nat.le_of_eq (Table.size_modify _ _ _).symm
  · rcases hinstr j with h | h <;> rw [h]
  · rcases hinstr j with h | h <;> rw [h]

structure Put (fn g : Func) (b : BlockId) (i : InstrId) : Prop where
  keeps : fn.Keeps g
  blocks_size : g.blocks.size = fn.blocks.size
  mem : i ∈ (g.block b).body
  length : (g.block b).body.length = (fn.block b).body.length + 1

theorem put_rebody {k : List InstrId → List InstrId} (h : fn.hasBlock b = true)
    (hmem : i ∈ k (fn.block b).body)
    (hlen : (k (fn.block b).body).length = (fn.block b).body.length + 1) :
    fn.Put ((fn.setParent i (some b)).modifyBlock b fun blk => { blk with body := k blk.body }) b
      i := by
  have hbody : (((fn.setParent i (some b)).modifyBlock b fun blk =>
      { blk with body := k blk.body }).block b).body = k (fn.block b).body := by
    rw [block_modifyBlock, if_pos ⟨rfl, h⟩]
    rfl
  exact ⟨keeps_rebody fn i _ b k, Table.size_modify _ _ _, hbody ▸ hmem, hbody ▸ hlen⟩

theorem put_append (h : fn.hasBlock b = true) (i : InstrId) : fn.Put (fn.append b i) b i :=
  put_rebody (k := (· ++ [i])) h (by simp) (by simp)

theorem put_insertBody (h : fn.hasBlock b = true) (i : InstrId)
    (hn : n ≤ (fn.block b).body.length) : fn.Put (fn.insertBody b n i) b i :=
  put_rebody (k := (·.insertIdx n i)) h ((List.mem_insertIdx hn).2 (Or.inl rfl))
    (List.length_insertIdx_of_le_length hn i)

theorem Recast.keeps {L : List InstrId} {ρ : Value → Value} (h : fn.Recast g L ρ) : fn.Keeps g := by
  refine ⟨h.layout, fun b => by rw [h.block], fun b => by rw [h.block], fun b => by rw [h.block],
    Nat.le_of_eq h.instrs_size.symm, ?_, ?_⟩
  · intro i _
    rw [h.instr]
    split <;> rfl
  · intro i _
    rw [h.instr]
    split <;> rfl

end Func

namespace Motion.State

variable {fn : Func} {c : Context} {sets : Sets} {s st t : State} {x e k : Nat} {b d : BlockId}

/-- What a motion can rely on in any function: its blocks and instructions exist, the numbered graph
is made of attached blocks, and what is to be deleted is in the body of its block. -/
structure Surveyed (fn : Func) (c : Context) (sets : Sets) : Prop where
  hasBlock : ∀ b ∈ fn.layout, fn.hasBlock b = true
  listed_le : ∀ b ∈ fn.layout, ∀ i ∈ fn.listed b, i ≤ fn.instrs.size
  block_mem : ∀ k < c.nodes.size, (c.node k).block ∈ fn.layout
  source_lt : ∀ x < c.edges.size, (c.edge x).source < c.nodes.size
  target_lt : ∀ x < c.edges.size, (c.edge x).target < c.nodes.size
  split : ∀ x, (c.edge x).split = none
  insert : ∀ x < c.edges.size, ∀ e ∈ sets.insert.of x, e < c.catalog.entries.length
  sites : ∀ k < c.nodes.size, ∀ e, ∀ i ∈ (c.node k).sites.lookup e,
    i ∈ (fn.block (c.node k).block).body

theorem Surveyed.clean (h : Surveyed fn c sets) :
    Surveyed fn { c with log := [], trace := "" } sets :=
  ⟨h.hasBlock, h.listed_le, h.block_mem, h.source_lt, h.target_lt, h.split, h.insert, h.sites⟩

/-! Copying. -/

def destination (fn : Func) (split : Option BlockId) (source target : BlockId) : BlockId :=
  match split, fn.singleSucc? source with
  | some b, _ => b
  | none, some _ => source
  | none, none => target

/-- A copy is put there, if there is room in front of it. -/
theorem put_placeCopy {split : Option BlockId} {source target : BlockId} {n : Nat} (i : InstrId)
    (hb : fn.hasBlock (destination fn split source target) = true)
    (hn : n ≤ (fn.block (destination fn split source target)).body.length) :
    fn.Put (placeCopy fn split source target n i) (destination fn split source target) i := by
  unfold placeCopy destination at *
  cases split with
  | some b => exact Func.put_append hb i
  | none =>
    cases hs : fn.singleSucc? source with
    | some _ =>
      simp only [hs] at hb
      exact Func.put_append hb i
    | none =>
      simp only [hs] at hb hn
      exact Func.put_insertBody hb i hn

structure Filled (s : State) (d : BlockId) (k : Nat) (st : State) : Prop where
  keeps : s.func.Keeps st.func
  blocks_size : st.func.blocks.size = s.func.blocks.size
  context : st.context = s.context
  splits : st.splits = s.splits
  clones : st.clones.length = s.clones.length + k
  done : st.done = { s.done with inserted := s.done.inserted + k }
  room : k ≤ (st.func.block d).body.length
  latest : 0 < k → ∃ i ∈ (st.func.block d).body, s.func.instrs.size < i

theorem Filled.refl (s : State) (d : BlockId) : Filled s d 0 s :=
  ⟨.refl _, rfl, rfl, rfl, rfl, rfl, Nat.zero_le _, fun h => absurd h (Nat.lt_irrefl 0)⟩

section Edge

variable {source target : BlockId}
  (hsource : (s.context.node (s.context.edge x).source).block = source)
  (htarget : (s.context.node (s.context.edge x).target).block = target)
  (hd : destination s.func (s.context.edge x).split source target = d) (hb :
    s.func.hasBlock d = true)
  (hterm : ∀ t ∈ (s.func.block source).term, t ≤ s.func.instrs.size)
include hsource htarget hd hb hterm

/-- One more copy goes into the same block. -/
theorem Filled.insertCopy (h : Filled s d k st) (he : e < s.context.catalog.entries.length) :
    Filled s d (k + 1) (st.insertCopy x (e, k)) := by
  obtain ⟨entry, hentry⟩ : ∃ entry, s.context.catalog.entries[e]? = some entry :=
    ⟨_, List.getElem?_eq_getElem he⟩
  have hkeeps := h.keeps.trans (Func.keeps_clone st.func entry.instr)
  have hsize : (st.func.clone entry.instr).2.blocks.size = s.func.blocks.size := h.blocks_size
  have hdest : destination (st.func.clone entry.instr).2 (s.context.edge x).split source
      target = d := by
    rw [← hd]
    unfold destination
    rw [hkeeps.singleSucc? hsize hterm]
  have hhas : (st.func.clone entry.instr).2.hasBlock d = true := by
    rw [Func.hasBlock_iff, hsize, ← Func.hasBlock_iff]
    exact hb
  have hput : (st.func.clone entry.instr).2.Put
      (placeCopy (st.func.clone entry.instr).2 (s.context.edge x).split source target k
        (st.func.instrs.size + 1)) d (st.func.instrs.size + 1) := by
    have := put_placeCopy (st.func.instrs.size + 1) (hdest.symm ▸ hhas) (hdest.symm ▸ h.room)
    rwa [hdest] at this
  have hstep : st.insertCopy x (e, k) = { st with
      func := placeCopy (st.func.clone entry.instr).2 (s.context.edge x).split source target k
        (st.func.instrs.size + 1)
      clones := st.clones ++ [(e, st.func.instrs.size + 1)]
      done := { st.done with inserted := st.done.inserted + 1 } } := by
    unfold State.insertCopy
    simp only [h.context, hentry, hsource, htarget]
    rfl
  rw [hstep]
  refine ⟨hkeeps.trans hput.keeps, hput.blocks_size.trans hsize, h.context, h.splits, ?_, ?_, ?_,
    fun _ => ⟨_, hput.mem, ?_⟩⟩
  · rw [List.length_append, h.clones]
    rfl
  · rw [h.done]
    rfl
  · rw [hput.length]
    exact Nat.succ_le_succ h.room
  · exact Nat.lt_succ_of_le h.keeps.instrs_size

theorem Filled.foldl (l : List Nat) (hl : ∀ e ∈ l, e < s.context.catalog.entries.length) :
    ∀ k st, Filled s d k st →
      Filled s d (k + l.length) ((l.zipIdx k).foldl (State.insertCopy x) st) := by
  induction l with
  | nil => exact fun k st h => h
  | cons e l ih =>
    intro k st h
    have hlen : k + (e :: l).length = k + 1 + l.length := by
      rw [List.length_cons]
      omega
    rw [List.zipIdx_cons, List.foldl_cons, hlen]
    exact ih (fun e he => hl e (List.mem_cons_of_mem _ he)) (k + 1) _
      (h.insertCopy hsource htarget hd hb hterm (hl e List.mem_cons_self))

end Edge

/-- A state with the graph that a motion started from, in which blocks that split edges may have
been made and copies put into bodies. -/
structure Grown (fn : Func) (c : Context) (st : State) : Prop where
  keeps : fn.Keeps st.func
  blocks_size : fn.blocks.size ≤ st.func.blocks.size
  nodes : st.context.nodes = c.nodes
  catalog : st.context.catalog = c.catalog
  edges_size : st.context.edges.size = c.edges.size
  source : ∀ x, (st.context.edge x).source = (c.edge x).source
  target : ∀ x, (st.context.edge x).target = (c.edge x).target
  split : ∀ x, ∀ b ∈ (st.context.edge x).split, st.func.hasBlock b = true
  splits : ∀ b ∈ st.splits, st.func.hasBlock b = true
  done : st.done = { inserted := st.clones.length }

theorem hasBlock_of_le {f g : Func} (h : f.blocks.size ≤ g.blocks.size) (hb : f.hasBlock b = true) :
    g.hasBlock b = true :=
  Func.hasBlock_iff.2 ⟨(Func.hasBlock_iff.1 hb).1, (Func.hasBlock_iff.1 hb).2.trans h⟩

theorem Grown.splitEdge (h : Grown fn c st) (x : Nat) : Grown fn c (st.splitEdge x) := by
  have hsize : (st.splitEdge x).func.blocks.size = st.func.blocks.size + 1 := Table.size_push _ _
  have hnew : (st.splitEdge x).func.hasBlock (st.func.blocks.size + 1) = true :=
    Func.hasBlock_iff.2 ⟨Nat.succ_pos _, Nat.le_of_eq hsize.symm⟩
  have hold : ∀ {b}, st.func.hasBlock b = true → (st.splitEdge x).func.hasBlock b = true :=
    hasBlock_of_le (hsize ▸ Nat.le_succ _)
  have hedge : ∀ y, (st.splitEdge x).context.edge y = if x = y ∧ y < st.context.edges.size then
      { st.context.edge y with split := some (st.func.blocks.size + 1) } else st.context.edge y :=
        fun y => Plan.edge_modify _ _ y
  refine ⟨h.keeps.trans (Func.keeps_newBlock _ _), h.blocks_size.trans (hsize ▸ Nat.le_succ _),
    h.nodes, h.catalog, ?_, ?_, ?_, ?_, ?_, h.done⟩
  · exact (Array.size_modify ..).trans h.edges_size
  · intro y
    rw [hedge, ← h.source]
    split <;> rfl
  · intro y
    rw [hedge, ← h.target]
    split <;> rfl
  · intro y b hb
    rw [hedge] at hb
    split at hb
    · cases hb
      exact hnew
    · exact hold (h.split y b hb)
  · intro b hb
    rcases List.mem_append.1 hb with hb | hb
    · exact hold (h.splits b hb)
    · rw [List.mem_singleton.1 hb]
      exact hnew

theorem Grown.filled (h : Grown fn c s) (hf : Filled s d k st) : Grown fn c st := by
  have hhas : ∀ {b}, s.func.hasBlock b = true → st.func.hasBlock b = true :=
    hasBlock_of_le hf.blocks_size.ge
  refine ⟨h.keeps.trans hf.keeps, h.blocks_size.trans hf.blocks_size.ge, ?_, ?_, ?_, ?_,
    ?_, ?_, ?_, ?_⟩
  · rw [hf.context, h.nodes]
  · rw [hf.context, h.catalog]
  · rw [hf.context, h.edges_size]
  · rw [hf.context]
    exact h.source
  · rw [hf.context]
    exact h.target
  · rw [hf.context]
    exact fun x b hb => hhas (h.split x b hb)
  · rw [hf.splits]
    exact fun b hb => hhas (h.splits b hb)
  · rw [hf.done, h.done, hf.clones]

/-- A state in which some copies have been made. If there are any, then one is in an attached block,
or an edge has been split. -/
structure Copied (fn : Func) (c : Context) (st : State) : Prop extends Grown fn c st where
  idle : st.clones = [] → st = { func := fn, context := c }
  fresh : st.clones ≠ [] → (∃ x < c.edges.size, (st.context.edge x).split ≠ none) ∨
    ∃ b ∈ fn.layout, ∃ i ∈ (st.func.block b).body, fn.instrs.size < i

theorem Surveyed.copied (hv : Surveyed fn c sets) : Copied fn c { func := fn, context := c } := by
  refine ⟨⟨.refl fn, le_rfl, rfl, rfl, rfl, fun _ => rfl, fun _ => rfl, fun x b hb => ?_, by simp,
    rfl⟩, fun _ => rfl, fun h => absurd rfl h⟩
  rw [hv.split x] at hb
  cases hb

/-- All copies of an edge go into one block, which splits the edge or is attached. -/
theorem Grown.foldl_insertCopy (h : Grown fn c s) (hv : Surveyed fn c sets) (hx : x < c.edges.size)
    {copies : BitSet} (hcopies : ∀ e ∈ copies, e < c.catalog.entries.length) :
    ∃ d, Filled s d copies.toList.length (copies.toList.zipIdx.foldl (State.insertCopy x) s) ∧
      ((s.context.edge x).split ≠ none ∨ d ∈ fn.layout) := by
  have hnode : ∀ k, (s.context.node k).block = (c.node k).block := fun k => by
    rw [Context.node, h.nodes, ← Context.node]
  obtain ⟨source, hsource⟩ : ∃ b, (c.node (c.edge x).source).block = b := ⟨_, rfl⟩
  obtain ⟨target, htarget⟩ : ∃ b, (c.node (c.edge x).target).block = b := ⟨_, rfl⟩
  have hsource_mem : source ∈ fn.layout := hsource ▸ hv.block_mem _ (hv.source_lt x hx)
  have htarget_mem : target ∈ fn.layout := htarget ▸ hv.block_mem _ (hv.target_lt x hx)
  obtain ⟨d, hd⟩ : ∃ d, destination s.func (s.context.edge x).split source target = d := ⟨_, rfl⟩
  have hcases : (∃ b ∈ (s.context.edge x).split, d = b) ∨ d ∈ fn.layout := by
    rw [← hd]
    unfold destination
    cases (s.context.edge x).split with
    | some b => exact Or.inl ⟨b, rfl, rfl⟩
    | none =>
      right
      cases s.func.singleSucc? source with
      | some _ => exact hsource_mem
      | none => exact htarget_mem
  have hhas : s.func.hasBlock d = true := by
    rcases hcases with ⟨b, hb, rfl⟩ | hmem
    · exact h.split x _ hb
    · exact hasBlock_of_le h.blocks_size (hv.hasBlock d hmem)
  have hterm : ∀ t ∈ (s.func.block source).term, t ≤ s.func.instrs.size := fun t ht => by
    rw [h.keeps.term] at ht
    exact (hv.listed_le source hsource_mem t
      (List.mem_append_right _ (Option.mem_toList.2 ht))).trans h.keeps.instrs_size
  have hfold :=
    Filled.foldl (x := x) (by rw [hnode, h.source, hsource]) (by rw [hnode, h.target, htarget]) hd
      hhas hterm copies.toList
    (fun e he => h.catalog ▸ hcopies e (BitSet.mem_toList.1 he)) 0 s (.refl s d)
  refine ⟨d, by simpa using hfold, hcases.imp_left ?_⟩
  rintro ⟨b, hb, -⟩
  rw [hb]
  exact Option.some_ne_none b

theorem Copied.insertEdge (h : Copied fn c st) (hv : Surveyed fn c sets) (hx : x < c.edges.size) :
    Copied fn c (st.insertEdge x (sets.insert.of x)) := by
  unfold State.insertEdge
  split
  · exact h
  · next hne =>
    dsimp only
    obtain ⟨s, hs⟩ : ∃ s, s = if isCritical st.func
      (st.context.node (st.context.edge x).source).block
      (st.context.node (st.context.edge x).target).block then st.splitEdge x else st := ⟨_, rfl⟩
    rw [← hs]
    have hgrown : Grown fn c s := by
      rw [hs]
      split
      · exact h.toGrown.splitEdge x
      · exact h.toGrown
    obtain ⟨d, hf, hcases⟩ := hgrown.foldl_insertCopy hv hx (hv.insert x hx)
    have hpos : 0 < (sets.insert.of x).toList.length := by
      rw [BitSet.isEmpty_iff] at hne
      push Not at hne
      obtain ⟨e, he⟩ := hne
      exact List.length_pos_of_mem (BitSet.mem_toList.2 he)
    refine ⟨hgrown.filled hf, fun hnil => ?_, fun _ => ?_⟩
    · have hclones := hf.clones
      rw [hnil, List.length_nil] at hclones
      omega
    · rw [hf.context]
      rcases hcases with hsplit | hmem
      · exact Or.inl ⟨x, hx, hsplit⟩
      · obtain ⟨i, hi, hlt⟩ := hf.latest hpos
        exact Or.inr ⟨d, hmem, i, hi, Nat.lt_of_le_of_lt hgrown.keeps.instrs_size hlt⟩

theorem Surveyed.insertAll (hv : Surveyed fn c sets) :
    Copied fn c (State.insertAll sets { func := fn, context := c }) := by
  have hloop : ∀ (l : List Nat) (st : State), (∀ x ∈ l, x < c.edges.size) → Copied fn c st →
      Copied fn c (l.foldl (fun s e => s.insertEdge e (sets.insert.of e)) st) := by
    intro l
    induction l with
    | nil => exact fun _ _ h => h
    | cons x l ih =>
      intro st hl h
      exact ih _ (fun y hy => hl y (List.mem_cons_of_mem _ hy))
        (h.insertEdge hv (hl x List.mem_cons_self))
  exact hloop _ _ (fun x hx => List.mem_range.1 hx) hv.copied

/-! Rewiring. -/

structure Rewired (s t : State) : Prop where
  frame : t = { s with func := t.func }
  keeps : s.func.Keeps t.func
  blocks : t.func.blocks = s.func.blocks
  idle : s.clones = [] → t = s

theorem Rewired.refl (s : State) : Rewired s s := ⟨rfl, .refl _, rfl, fun _ => rfl⟩

theorem Copied.rewire (h : Copied fn c s) (hv : Surveyed fn c sets) (hr : Rewired s st)
    {v : Catalog.Entry Value InstrId × Nat} (hrun : State.rewire v st = .ok ⟨⟩ t) :
    Rewired s t := by
  unfold State.rewire at hrun
  rw [Change.get_bind] at hrun
  split at hrun
  · cases hrun
    exact hr
  cases hl : st.lastClone? v.2 with
  | none =>
    rw [hl] at hrun
    cases hrun
    exact hr
  | some i =>
    rw [hl] at hrun
    obtain ⟨n, st₁, hreplace, hpure⟩ := Change.bind_ok.1 hrun
    cases hpure
    obtain ⟨g, hg, rfl⟩ := Change.zoom_inv hreplace
    have hsplits : st.splits = s.splits := by rw [hr.frame]
    have hhas : ∀ b ∈ st.func.layout ++ st.splits, st.func.hasBlock b = true := by
      intro b hb
      rw [hr.keeps.layout, hsplits, h.keeps.layout] at hb
      rw [Func.hasBlock, hr.blocks, ← Func.hasBlock]
      rcases List.mem_append.1 hb with hb | hb
      · exact hasBlock_of_le h.blocks_size (hv.hasBlock b hb)
      · exact h.splits b hb
    obtain ⟨m, g', hg', hrecast⟩ := Func.replaceUses_ok (.instr v.1.instr) (.instr i) st.splits hhas
    rw [hg'] at hg
    cases hg
    refine ⟨by rw [hr.frame], hr.keeps.trans hrecast.keeps, hrecast.blocks.trans hr.blocks,
      fun hnil => ?_⟩
    -- without copies there is no last one
    have hclones : st.clones = [] := by rw [hr.frame, hnil]
    rw [State.lastClone?, hclones] at hl
    cases hl

theorem Copied.rewireAll (h : Copied fn c s) (hv : Surveyed fn c sets)
    (hrun : State.rewireAll s = .ok ⟨⟩ t) : Rewired s t := by
  unfold State.rewireAll at hrun
  rw [Change.get_bind] at hrun
  exact Change.forM_inv (fun _ t => Rewired s t) (fun _ _ _ _ _ _ hr hstep => h.rewire hv hr hstep)
    (.refl s) hrun

/-! Removal. -/

structure Pared (fn : Func) (s t : State) : Prop where
  nodes : t.context.nodes = s.context.nodes
  edges : t.context.edges = s.context.edges
  done : t.done = { s.done with deleted := t.done.deleted }
  keeps : s.func.Keeps t.func
  fresh : ∀ b, ∀ i ∈ (s.func.block b).body, fn.instrs.size < i → i ∈ (t.func.block b).body
  length_le : ∀ b, (t.func.block b).body.length ≤ (s.func.block b).body.length
  idle : t.done.deleted = 0 → t.func = s.func
  shorter : t.done.deleted ≠ 0 → ∃ b ∈ fn.layout, (t.func.block b).body.length <
    (s.func.block b).body.length

theorem Pared.refl (fn : Func) (h : s.done.deleted = 0) : Pared fn s s :=
  ⟨rfl, rfl, rfl, .refl _, fun _ _ h _ => h, fun _ => le_rfl, fun _ => rfl, fun hne => absurd h hne⟩

theorem remove_inv {f g : Func} {i : InstrId} (h : f.remove b i = (true, g)) :
    i ∈ (f.block b).body ∧ f.Keeps g ∧
    ∀ d, (g.block d).body = if b = d then (f.block d).body.erase i else (f.block d).body := by
  unfold Func.remove at h
  split at h
  · next hi =>
    cases h
    have hmem : i ∈ (f.block b).body := by simpa using hi
    have hhas : f.hasBlock b = true := by
      by_contra hno
      rw [Func.block_eq_default (Bool.eq_false_iff.2 hno)] at hmem
      cases hmem
    refine ⟨hmem, Func.keeps_rebody f i none b (·.erase i), fun d => ?_⟩
    rw [Func.block_modifyBlock]
    by_cases hbd : b = d
    · subst hbd
      rw [if_pos ⟨rfl, hhas⟩, if_pos rfl]
      rfl
    · rw [if_neg fun hh => hbd hh.1, if_neg hbd]
      rfl
  · cases h

/-- One more instruction is taken out of an attached block. -/
theorem Pared.remove (h : Pared fn s t) (hb : b ∈ fn.layout) {i : InstrId} (hi : i ≤ fn.instrs.size)
    {g : Func} (hg : t.func.remove b i = (true, g)) :
    Pared fn s { t with func := g, done := { t.done with deleted := t.done.deleted + 1 } } := by
  obtain ⟨hmem, hkeeps, hbody⟩ := remove_inv hg
  have hle : ∀ d, (g.block d).body.length ≤ (t.func.block d).body.length := fun d => by
    rw [hbody]
    split
    · exact List.length_erase_le
    · exact le_rfl
  refine ⟨h.nodes, h.edges, by rw [h.done], h.keeps.trans hkeeps, fun d j hj hlt => ?_,
    fun d => (hle d).trans (h.length_le d), ?_, fun _ => ⟨b, hb, ?_⟩⟩
  · show j ∈ (g.block d).body
    rw [hbody]
    have hj' := h.fresh d j hj hlt
    split
    · exact (List.mem_erase_of_ne (Nat.ne_of_gt (Nat.lt_of_le_of_lt hi hlt))).2 hj'
    · exact hj'
  · exact fun h0 => absurd h0 (Nat.succ_ne_zero _)
  · refine Nat.lt_of_lt_of_le ?_ (h.length_le b)
    show (g.block b).body.length < _
    rw [hbody, if_pos rfl, List.length_erase_of_mem hmem]
    have := List.length_pos_of_mem hmem
    omega

theorem Pared.deleteSite (h : Pared fn s t) (hv : Surveyed fn c sets)
    (hnodes : s.context.nodes = c.nodes) (hk : k < c.nodes.size) {t' : State}
    (hrun : State.deleteSite k e t = .ok ⟨⟩ t') : Pared fn s t' := by
  have hnode : t.context.node k = c.node k := by rw [Context.node, h.nodes, hnodes, ← Context.node]
  unfold State.deleteSite at hrun
  rw [Change.get_bind] at hrun
  cases hentry : t.context.catalog.entries[e]? with
  | none =>
    rw [hentry] at hrun
    cases hrun
  | some entry =>
    rw [hentry] at hrun
    dsimp only at hrun
    rw [hnode] at hrun
    split at hrun
    · cases hrun
      exact ⟨h.nodes, h.edges, h.done, h.keeps, h.fresh, h.length_le, h.idle, h.shorter⟩
    cases hsite : (c.node k).sites.lookup e with
    | none =>
      rw [hsite] at hrun
      cases hrun
    | some i =>
      rw [hsite] at hrun
      obtain ⟨⟨found, g⟩, hg⟩ : ∃ r, t.func.remove (c.node k).block i = r := ⟨_, rfl⟩
      cases found with
      | true =>
        simp only [hg] at hrun
        cases hrun
        have hb := hv.block_mem k hk
        exact h.remove hb (hv.listed_le _ hb i (Func.mem_listed_of_body (hv.sites k hk e i hsite)))
          hg
      | false =>
        simp only [hg] at hrun
        obtain ⟨_, _, -, hthrow⟩ := Change.bind_ok.1 hrun
        cases hthrow

theorem Surveyed.deleteAll (hv : Surveyed fn c sets) (hnodes : s.context.nodes = c.nodes)
    (h0 : s.done.deleted = 0) (hrun : State.deleteAll sets s = .ok ⟨⟩ t) : Pared fn s t := by
  unfold State.deleteAll at hrun
  rw [Change.get_bind, hnodes] at hrun
  refine Change.forM_inv (fun _ t => Pared fn s t) ?_ (.refl fn h0) hrun
  rintro pre k post t₁ t₂ hl ht hloop
  have hk : k < c.nodes.size := List.mem_range.1 (by simp [hl])
  exact Change.forM_inv (fun _ t => Pared fn s t) (fun _ _ _ _ _ _ ht hstep =>
    ht.deleteSite hv hnodes hk hstep) ht hloop

/-! Splicing. -/

theorem forM_layout {α : Type} {step : α → Change Func PUnit}
    (hstep : ∀ a f g, step a f = .ok ⟨⟩ g → g.layout = f.layout) {l : List α} {f g : Func}
    (h : l.forM step f = .ok ⟨⟩ g) : g.layout = f.layout :=
  Change.forM_inv (fun _ g => g.layout = f.layout) (fun _ a _ s s' _ hs hrun =>
    (hstep a s s' hrun).trans hs) rfl h

/-- A change behind the check that a block exists. -/
theorem require_layout {k : Func → Func} (hk : ∀ f, (k f).layout = f.layout) {f g : Func}
    (h : (Func.require b >>= fun _ => modify k : Change Func PUnit) f = .ok ⟨⟩ g) :
    g.layout = f.layout := by
  obtain ⟨_, f', hreq, hset⟩ := Change.bind_ok.1 h
  unfold Func.require at hreq
  rw [Change.get_bind] at hreq
  obtain ⟨-, rfl⟩ := Change.check_apply.1 hreq
  cases hset
  exact hk f

theorem rebuild_layout {f g : Func} (h : Func.rebuild f = .ok ⟨⟩ g) : g.layout = f.layout := by
  unfold Func.rebuild at h
  rw [Change.get_bind] at h
  obtain ⟨_, f₁, hclear, hlink⟩ := Change.bind_ok.1 h
  have hedit : ∀ b k f g, Func.editBlock b k f = .ok ⟨⟩ g → g.layout = f.layout := fun b k _ _ =>
    require_layout (k := (·.modifyBlock b k)) fun _ => rfl
  have henter : ∀ b s f g, Func.link b s f = .ok ⟨⟩ g → g.layout = f.layout := fun b s _ _ =>
    require_layout (k := (·.addPred s b)) fun _ => rfl
  exact (forM_layout (fun b _ _ => forM_layout (henter b)) hlink).trans
    (forM_layout (fun b => hedit b _) hclear)

theorem jump_layout {f g : Func} {target : BlockId} {i : InstrId}
    (h : Change.zoom (fun fn => Builder.mk fn (some b)) (fun bd _ => bd.func)
      (Builder.jump target) f = .ok i g) : g.layout = f.layout := by
  obtain ⟨bd, hjump, rfl⟩ := Change.zoom_inv h
  unfold Builder.jump Builder.terminate at hjump
  obtain ⟨j, bd₁, hnew, hjump⟩ := Change.bind_ok.1 hjump
  cases hnew
  rw [Change.get_bind] at hjump
  dsimp only at hjump
  split at hjump
  · cases hjump
  rw [Change.modify_bind] at hjump
  obtain ⟨_, bd₂, hlink, hpure⟩ := Change.bind_ok.1 hjump
  cases hpure
  obtain ⟨g', hg, rfl⟩ := Change.zoom_inv hlink
  have henter : ∀ s f g, Builder.link b s f = .ok ⟨⟩ g → g.layout = f.layout := fun s _ _ =>
    require_layout (k := fun fn => if (fn.block s).preds.contains b then fn else fn.addPred s b)
      fun _ => by split <;> rfl
  have hkept := forM_layout henter hg
  exact hkept

theorem attach_layout {f g : Func} {source target : BlockId}
    (h : Func.attach source target b f = .ok ⟨⟩ g) : g.layout.length = f.layout.length + 1 := by
  unfold Func.attach at h
  rw [Change.get_bind] at h
  obtain ⟨f₁, f₂, hins, h⟩ := Change.bind_ok.1 h
  obtain ⟨hins, rfl⟩ := Change.check_apply.1 hins
  have hlen : f₁.layout.length = f.layout.length + 1 := by
    unfold Func.insertBlockAfter at hins
    split at hins
    · cases hname : f.blockName source <;> rw [hname] at hins <;> cases hins
    · next n hn =>
      cases hins
      obtain ⟨hlt, -⟩ := List.findIdx?_eq_some_iff_getElem.1 hn
      exact List.length_insertIdx_of_le_length hlt b
  rw [Change.set_bind, Change.get_bind] at h
  cases hterm : (f₁.block source).term with
  | none =>
    rw [hterm] at h
    cases h
  | some t =>
    rw [hterm] at h
    obtain ⟨_, f₂, hset, h⟩ := Change.bind_ok.1 h
    cases hset
    obtain ⟨i, f₃, hjump, h⟩ := Change.bind_ok.1 h
    cases h
    obtain ⟨tab, -, hlast⟩ := Func.blocks_foldl_incoming source b (f₃.block target).phis f₃
    have hlayout : (f₃.replaceIncoming target source b).layout = f₃.layout := by
      rw [Func.replaceIncoming, hlast]
    rw [hlayout, jump_layout hjump]
    exact hlen

structure Stretched (s : State) (seen : List Nat) (t : State) : Prop where
  context : t.context = s.context
  done : t.done = { s.done with splits := t.done.splits }
  length : t.func.layout.length = s.func.layout.length + t.done.splits
  idle : t.done.splits = 0 → t.func = s.func ∧ ∀ x ∈ seen, (s.context.edge x).split = none

theorem Stretched.splice {seen : List Nat} (h : Stretched s seen st)
    (hrun : State.splice x st = .ok ⟨⟩ t) : Stretched s (seen ++ [x]) t := by
  unfold State.splice at hrun
  rw [Change.get_bind, h.context] at hrun
  dsimp only at hrun
  cases hsplit : (s.context.edge x).split with
  | none =>
    rw [hsplit] at hrun
    cases hrun
    refine ⟨h.context, h.done, h.length, fun h0 => ⟨(h.idle h0).1, fun y hy => ?_⟩⟩
    rcases List.mem_append.1 hy with hy | hy
    · exact (h.idle h0).2 y hy
    · rw [List.mem_singleton.1 hy, hsplit]
  | some b =>
    rw [hsplit] at hrun
    obtain ⟨_, st₁, hattach, hcount⟩ := Change.bind_ok.1 hrun
    cases hcount
    obtain ⟨g, hg, rfl⟩ := Change.zoom_inv hattach
    have hlen := attach_layout hg
    refine ⟨h.context, by rw [h.done], ?_, fun h0 => absurd h0 (Nat.succ_ne_zero _)⟩
    show g.layout.length = _ + (st.done.splits + 1)
    rw [hlen, h.length, Nat.add_assoc]

theorem spliceAll_inv (h0 : s.done.splits = 0) (hrun : State.spliceAll s = .ok ⟨⟩ t) :
    Stretched s (List.range s.context.edges.size) t := by
  unfold State.spliceAll at hrun
  rw [Change.get_bind] at hrun
  obtain ⟨_, st, hloop, hrun⟩ := Change.bind_ok.1 hrun
  have hst : Stretched s (List.range s.context.edges.size) st :=
    Change.forM_inv (fun seen t => Stretched s seen t) (fun _ _ _ _ _ _ h hstep => h.splice hstep)
      ⟨rfl, rfl, by rw [h0]; rfl, fun _ => ⟨rfl, by simp⟩⟩ hloop
  rw [Change.get_bind] at hrun
  split at hrun
  · next hne =>
    obtain ⟨g, hg, rfl⟩ := Change.zoom_inv hrun
    refine ⟨hst.context, hst.done, ?_, fun h => absurd h hne⟩
    show g.layout.length = _
    rw [rebuild_layout hg, hst.length]
  · cases hrun
    exact hst

structure Footprint (fn : Func) (st : State) : Prop where
  length : st.func.layout.length = fn.layout.length + st.done.splits
  idle : st.done.changed = false → st.func = fn
  keeps : st.done.splits = 0 → fn.Keeps st.func
  moved : st.done.splits = 0 → st.done.changed = true → ∃ b ∈ fn.layout,
    (st.func.block b).body ≠ (fn.block b).body

theorem changed_eq_false {m : Motion} :
    m.changed = false ↔ m.inserted = 0 ∧ m.deleted = 0 ∧ m.splits = 0 := by
  simp [Motion.changed, and_assoc]

/-- A copy is seen in a body, if no edge has been split: it is newer than all that was there. -/
theorem Copied.exists_body_ne (h : Copied fn c s) (hv : Surveyed fn c sets) (hr : Rewired s st)
    (hp : Pared fn st t) (hne : s.clones ≠ [])
    (hunsplit : ∀ x ∈ List.range t.context.edges.size, (t.context.edge x).split = none) :
    ∃ b ∈ fn.layout, (t.func.block b).body ≠ (fn.block b).body := by
  have hedges : t.context.edges = s.context.edges := by rw [hp.edges, hr.frame]
  rcases h.fresh hne with ⟨x, hx, hsplit⟩ | ⟨b, hb, i, hi, hlt⟩
  · have hedge : t.context.edge x = s.context.edge x := by rw [Context.edge, hedges, ← Context.edge]
    have hmem : x ∈ List.range t.context.edges.size := by
      rw [hedges, h.edges_size]
      exact List.mem_range.2 hx
    exact absurd (hedge ▸ hunsplit x hmem) hsplit
  · have hmem : i ∈ (t.func.block b).body :=
      hp.fresh b i (by rw [Func.block, hr.blocks, ← Func.block]; exact hi) hlt
    refine ⟨b, hb, fun he => ?_⟩
    exact absurd (hv.listed_le b hb i (Func.mem_listed_of_body (he ▸ hmem))) (Nat.not_le_of_lt hlt)

theorem Surveyed.run (hv : Surveyed fn c sets) (hsets : c.sets = some sets)
    (hrun : State.run { func := fn, context := c } = .ok ⟨⟩ st) : Footprint fn st := by
  have hsized : c.sized = .ok sets := by
    unfold Context.sized
    rw [hsets]
  unfold State.run at hrun
  rw [Change.get_bind, hsized, Change.check_bind, Change.modify_bind] at hrun
  have hc := hv.insertAll
  obtain ⟨s₁, hs₁⟩ : ∃ s, s = State.insertAll sets { func := fn, context := c } := ⟨_, rfl⟩
  rw [← hs₁] at hc hrun
  obtain ⟨_, s₂, hrewire, hrun⟩ := Change.bind_ok.1 hrun
  obtain ⟨_, s₃, hdelete, hsplice⟩ := Change.bind_ok.1 hrun
  have hr := hc.rewireAll hv hrewire
  have hdone : s₂.done = { inserted := s₁.clones.length } := by rw [hr.frame, hc.done]
  have hpared := hv.deleteAll (by rw [hr.frame, hc.nodes]) (by rw [hdone]) hdelete
  have hstretched := spliceAll_inv (by rw [hpared.done, hdone]) hsplice
  have hinserted : st.done.inserted = s₁.clones.length := by
    rw [hstretched.done, hpared.done, hdone]
  have hdeleted : st.done.deleted = s₃.done.deleted := by rw [hstretched.done]
  have hkept : fn.Keeps s₃.func := (hc.keeps.trans hr.keeps).trans hpared.keeps
  have hstart : s₁.clones = [] → s₂.func = fn := fun hnil => by rw [hr.idle hnil, hc.idle hnil]
  refine ⟨by rw [hstretched.length, hkept.layout], fun hno => ?_, fun h0 => ?_, fun h0 hyes => ?_⟩
  · obtain ⟨hi, hd, h0⟩ := changed_eq_false.1 hno
    rw [hinserted, List.length_eq_zero_iff] at hi
    rw [(hstretched.idle h0).1, hpared.idle (hdeleted ▸ hd), hstart hi]
  · rw [(hstretched.idle h0).1]
    exact hkept
  · obtain ⟨hfunc, hunsplit⟩ := hstretched.idle h0
    rw [hfunc]
    by_cases hnil : s₁.clones = []
    · -- nothing was copied, so that something is missing
      have hd : s₃.done.deleted ≠ 0 := fun hd => by
        rw [changed_eq_false.2 ⟨by rw [hinserted, hnil]; rfl, hdeleted.trans hd, h0⟩] at hyes
        cases hyes
      obtain ⟨b, hb, hlt⟩ := hpared.shorter hd
      rw [hstart hnil] at hlt
      exact ⟨b, hb, fun he => Nat.lt_irrefl _ (he ▸ hlt)⟩
    · exact hc.exists_body_ne hv hr hpared hnil hunsplit

end Motion.State

theorem Context.Answers.surveyed {fn : Func} {o : Options} {c : Context} {s : Sets}
    (h : Answers fn o c s) (hreal : ∀ b ∈ fn.layout, ∀ i ∈ fn.listed b, fn.hasInstr i = true) :
    Motion.State.Surveyed fn c s := by
  obtain ⟨c₀, -, hs, -⟩ := h.solved
  have hblock : ∀ k < c.nodes.size, (c.node k).block ∈ fn.layout := fun k hk => by
    rw [hs.graph.block]
    rw [hs.graph.nodes_size] at hk
    exact List.mem_of_getElem? (hs.drawn.block_node hk)
  refine ⟨hs.drawn.drawable.hasBlock, fun b hb i hi => (Func.hasInstr_iff.1 (hreal b hb i hi)).2,
    hblock, hs.wired.source_lt,
    hs.wired.target_lt, fun x => ?_, fun x hx e he => ?_, fun k hk e i hi => ?_⟩
  · rw [hs.graph.split, hs.drawn.split_eq_none]
  · have hlt := BitSet.lt_size he
    rw [hs.numbered.fits.insert.2 x hx] at hlt
    exact hlt
  · rw [(hs.exposed k hk).sites] at hi
    exact List.mem_of_find?_eq_some hi

end CodeMotion
