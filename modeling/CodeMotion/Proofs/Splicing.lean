import Mathlib
import CodeMotion.Proofs.Building
import CodeMotion.Proofs.Removal

/-! Splicing attaches the block that splits an edge: the terminator of the source leads to it, it
jumps to the target, and the phis of the target take from it what they took from the source. -/

namespace CodeMotion

namespace Func

variable {f g : Func} {source target b c : BlockId} {t i : InstrId}

structure Spliced (f g : Func) (source target b : BlockId) (t : InstrId) : Prop where
  name : g.name = f.name
  isExternal : g.isExternal = f.isExternal
  layout : ∃ l r, f.layout = l ++ source :: r ∧ g.layout = l ++ source :: b :: r
  instrs_size : g.instrs.size = f.instrs.size + 1
  blocks_size : g.blocks.size = f.blocks.size
  phis : ∀ c, (g.block c).phis = (f.block c).phis
  body : ∀ c, (g.block c).body = (f.block c).body
  term : ∀ c, (g.block c).term = if c = b then some (f.instrs.size + 1) else (f.block c).term
  jump : g.instr (f.instrs.size + 1) = { op := .jump, targets := [target], block := some b }
  instr : ∀ i ≤ f.instrs.size, g.instr i = { f.instr i with
    targets := if i = t then substitute target b (f.instr i).targets else (f.instr i).targets
    incoming := if i ∈ (f.block target).phis then substitute source b (f.instr i).incoming
      else (f.instr i).incoming }

namespace Spliced

variable (hs : f.Spliced g source target b t)
include hs

theorem mem_layout : c ∈ g.layout ↔ c ∈ f.layout ∨ c = b := by
  obtain ⟨l, r, hl, hl'⟩ := hs.layout
  rw [hl, hl']
  simp only [List.mem_append, List.mem_cons]
  tauto

theorem head_layout : g.layout.head? = f.layout.head? := by
  obtain ⟨l, r, hl, hl'⟩ := hs.layout
  rw [hl, hl']
  cases l <;> rfl

theorem nodup_layout (hn : f.layout.Nodup) (hb : b ∉ f.layout) : g.layout.Nodup := by
  obtain ⟨l, r, hl, hl'⟩ := hs.layout
  rw [hl, List.append_cons] at hn hb
  rw [hl', List.append_cons]
  exact List.nodup_middle.2 (List.nodup_cons.2 ⟨hb, hn⟩)

theorem targets_eq (hc : c ≠ b) (hi : (f.block c).term = some i) (hle : i ≤ f.instrs.size) :
    g.targets c = if i = t then substitute target b (f.targets c) else f.targets c := by
  have hi' : (g.block c).term = some i := by rw [hs.term, if_neg hc, hi]
  rw [targets_of_term hi', targets_of_term hi, hs.instr i hle]

theorem incoming_eq (hle : i ≤ f.instrs.size) :
    (g.instr i).incoming = if i ∈ (f.block target).phis
      then substitute source b (f.instr i).incoming else (f.instr i).incoming := by
  rw [hs.instr i hle]

end Spliced

theorem insertIdx_behind {α : Type} (l r : List α) (a b : α) :
    (l ++ a :: r).insertIdx (l.length + 1) b = l ++ a :: b :: r := by
  induction l with
  | nil => rfl
  | cons _ _ ih => simpa using ih

theorem insertBlockAfter_ok (b : BlockId) (h : source ∈ f.layout) :
    ∃ l r, f.layout = l ++ source :: r ∧ f.insertBlockAfter source b =
      .ok { f with layout := l ++ source :: b :: r } := by
  unfold insertBlockAfter
  cases hi : f.layout.findIdx? (· == source) with
  | none =>
    have := List.findIdx?_eq_none_iff.1 hi source h
    simp at this
  | some n =>
    obtain ⟨hn, hs, -⟩ := List.findIdx?_eq_some_iff_getElem.1 hi
    rw [beq_iff_eq] at hs
    have hsplit : f.layout = f.layout.take n ++ source :: f.layout.drop (n + 1) := by
      rw [← hs, List.getElem_cons_drop, List.take_append_drop]
    refine ⟨f.layout.take n, f.layout.drop (n + 1), hsplit, ?_⟩
    have := insertIdx_behind (f.layout.take n) (f.layout.drop (n + 1)) source b
    rw [← hsplit, List.length_take_of_le (Nat.le_of_lt hn)] at this
    rw [← this]

theorem substitute_substitute {α : Type} [BEq α] [LawfulBEq α] (old new : α) (l : List α) :
    substitute old new (substitute old new l) = substitute old new l := by
  unfold substitute
  rw [List.map_map]
  refine List.map_congr_left fun a _ => ?_
  by_cases h : a = old <;> by_cases h' : new = old <;> simp [h, h']

theorem instr_foldl_incoming (old new : BlockId) (l : List InstrId) : ∀ (f : Func) (i : InstrId),
    (l.foldl (fun fn p => fn.modifyInstr p fun ins =>
      { ins with incoming := substitute old new ins.incoming }) f).instr i =
      if i ∈ l then { f.instr i with incoming := substitute old new (f.instr i).incoming }
        else f.instr i := by
  induction l with
  | nil => simp
  | cons p t ih =>
    intro f i
    have hfirst : (f.modifyInstr p fun ins =>
      { ins with incoming := substitute old new ins.incoming }).instr i =
        if p = i then { f.instr i with incoming := substitute old new (f.instr i).incoming }
          else f.instr i := by
      rw [instr_modifyInstr]
      by_cases hpi : p = i
      · cases hi : f.hasInstr i with
        | true => rw [if_pos ⟨hpi, rfl⟩, if_pos hpi]
        | false =>
          rw [if_neg (by simp), if_pos hpi, instr_eq_default hi]
          rfl
      · rw [if_neg fun h => hpi h.1, if_neg hpi]
    rw [List.foldl_cons, ih, hfirst]
    by_cases hpi : p = i <;> by_cases ht : i ∈ t <;> simp [hpi, ht, substitute_substitute, eq_comm]

theorem blocks_foldl_incoming (old new : BlockId) (l : List InstrId) :
    ∀ f : Func, ∃ t : Table Instr, t.size = f.instrs.size ∧
    l.foldl (fun fn p => fn.modifyInstr p fun ins =>
      { ins with incoming := substitute old new ins.incoming }) f = { f with instrs := t } := by
  induction l with
  | nil => exact fun f => ⟨f.instrs, rfl, rfl⟩
  | cons p l ih =>
    intro f
    obtain ⟨t, hsize, ht⟩ :=
      ih (f.modifyInstr p fun ins => { ins with incoming := substitute old new ins.incoming })
    exact ⟨t, hsize.trans (Table.size_modify _ _ _), by rw [List.foldl_cons, ht]; rfl⟩

/-- A function in which a block ends with a new jump, before the predecessors of the target
are told. -/
def jumped (f : Func) (b target : BlockId) : Func :=
  ((f.newInstr { op := .jump, targets := [target] }).2.setParent (f.instrs.size + 1)
    (some b)).modifyBlock b
    ({ · with term := some (f.instrs.size + 1) })

theorem jumped_eq : f.jumped b target = f.gain b { op := .jump, targets := [target] }
    ({ · with term := some (f.instrs.size + 1) }) := by
  unfold jumped
  rw [setParent_newInstr]
  rfl

theorem instr_jumped (i : Nat) : (f.jumped b target).instr i =
    if i = f.instrs.size + 1 then { op := .jump, targets := [target], block := some b }
      else f.instr i := by
  rw [jumped_eq, instr_gain]

theorem block_jumped (hb : f.hasBlock b = true) : (f.jumped b target).block c =
    if c = b then { f.block c with term := some (f.instrs.size + 1) } else f.block c := by
  rw [jumped_eq, block_gain hb]

/-- What a builder's jump leaves: the jump, and perhaps a new predecessor of the target. -/
theorem jump_ok (hb : f.hasBlock b = true) (hopen : (f.block b).term = none)
    (htarget : f.hasBlock target = true) :
    ∃ g, Change.zoom (fun fn => Builder.mk fn (some b)) (fun bd _ => bd.func) (Builder.jump target)
      f = .ok (f.instrs.size + 1) g ∧
      (g = f.jumped b target ∨ g = (f.jumped b target).addPred target b) := by
  have hlink : ∃ g, Builder.link b target (f.jumped b target) = .ok ⟨⟩ g ∧
      (g = f.jumped b target ∨ g = (f.jumped b target).addPred target b) := by
    have hhas : (f.jumped b target).hasBlock target = true := by
      rw [jumped_eq, hasBlock_gain]
      exact htarget
    unfold Builder.link
    rw [Change.bind_eq (require_ok hhas), Change.modify_apply]
    split
    · exact ⟨_, rfl, Or.inl rfl⟩
    · exact ⟨_, rfl, Or.inr rfl⟩
  obtain ⟨g, hg, hcases⟩ := hlink
  refine ⟨g, ?_, hcases⟩
  have hforM : ([target] : List BlockId).eraseDups.forM (Builder.link b) (f.jumped b target) =
      .ok ⟨⟩ g := by
    rw [List.eraseDups_cons, List.filter_nil, List.eraseDups_nil, Change.forM_cons,
      Change.bind_eq hg]
    rfl
  have hrun : Builder.jump target ⟨f, some b⟩ = .ok (f.instrs.size + 1) ⟨g, some b⟩ := by
    rw [jumped_eq] at hforM
    exact Builder.terminate_eq hb hopen hforM
  unfold Change.zoom
  rw [hrun]

theorem instr_replaceTarget (t : InstrId) (old new : BlockId) (i : InstrId) :
    (f.replaceTarget t old new).2.instr i =
    if i = t then { f.instr i with targets := substitute old new (f.instr i).targets }
      else f.instr i := by
  show (f.modifyInstr t _).instr i = _
  rw [instr_modifyInstr]
  by_cases hi : t = i
  · cases hh : f.hasInstr i with
    | true => rw [if_pos ⟨hi, rfl⟩, if_pos hi.symm]
    | false =>
      rw [if_neg (by simp), if_pos hi.symm, instr_eq_default hh]
      rfl
  · rw [if_neg fun h => hi h.1, if_neg fun h => hi h.symm]

def attach (source target b : BlockId) : Change Func Unit := do
  set (← Change.check ((← get).insertBlockAfter source b))
  let some t := ((← get).block source).term | throw .dangling
  modify fun fn => (fn.replaceTarget t target b).2
  let _ ← Change.zoom (fun fn => Builder.mk fn (some b)) (fun bd _ => bd.func) (Builder.jump target)
  modify (·.replaceIncoming target source b)

/-- What a jump leaves of a function, whether the target gets a new predecessor or not. -/
theorem shape_of_jumped (hb : f.hasBlock b = true)
    (hg : g = f.jumped b target ∨ g = (f.jumped b target).addPred target b) :
    (g.name = f.name ∧ g.isExternal = f.isExternal ∧ g.layout = f.layout ∧
      g.blocks.size = f.blocks.size ∧
      g.instrs.size = f.instrs.size + 1) ∧
        (∀ i : InstrId, g.instr i = (f.jumped b target).instr i) ∧
    ∀ c, (g.block c).phis = (f.block c).phis ∧ (g.block c).body = (f.block c).body ∧
      (g.block c).term = if c = b then some (f.instrs.size + 1) else (f.block c).term := by
  have hblocks : (f.jumped b target).blocks.size = f.blocks.size := Table.size_modify _ _ _
  have hinstrs : (f.jumped b target).instrs.size = f.instrs.size + 1 :=
    (Table.size_modify _ _ _).trans (Table.size_push _ _)
  have hjumped : ∀ c, ((f.jumped b target).block c).phis = (f.block c).phis ∧
    ((f.jumped b target).block c).body = (f.block c).body ∧
      ((f.jumped b target).block c).term = if c = b then some (f.instrs.size + 1)
        else (f.block c).term := by
    intro c
    rw [block_jumped hb]
    split <;> simp
  rcases hg with rfl | rfl
  · exact ⟨⟨rfl, rfl, rfl, hblocks, hinstrs⟩, fun _ => rfl, hjumped⟩
  · refine ⟨⟨rfl, rfl, rfl, (Table.size_modify _ _ _).trans hblocks, hinstrs⟩,
      fun _ => rfl, fun c => ?_⟩
    unfold addPred
    rw [block_modifyBlock]
    split
    · exact hjumped c
    · exact hjumped c

theorem attach_ok (hsource : source ∈ f.layout) (hterm : (f.block source).term = some t)
    (hb : f.hasBlock b = true) (hopen : (f.block b).term = none)
    (htarget : f.hasBlock target = true) :
    ∃ g, attach source target b f = .ok ⟨⟩ g ∧ f.Spliced g source target b t := by
  obtain ⟨l, r, hlayout, hins⟩ := insertBlockAfter_ok b hsource
  -- the function before the jump is added
  obtain ⟨f2, hf2⟩ :
      ∃ f2, f2 = (replaceTarget { f with layout := l ++ source :: b :: r } t target b).2 :=
    ⟨_, rfl⟩
  have hframe2 : f2.name = f.name ∧ f2.isExternal = f.isExternal ∧ f2.layout = l ++ source :: b ::
      r ∧ f2.blocks = f.blocks := by
    rw [hf2]
    exact ⟨rfl, rfl, rfl, rfl⟩
  have hsize2 : f2.instrs.size = f.instrs.size := by
    rw [hf2]
    exact Table.size_modify _ _ _
  have hblock2 : ∀ c, f2.block c = f.block c := fun c => by rw [block, hframe2.2.2.2, ← block]
  have hhas2 : ∀ c, f2.hasBlock c = f.hasBlock c := fun c => by
    rw [hasBlock, hframe2.2.2.2, ← hasBlock]
  have hinstr2 : ∀ i, f2.instr i = if i = t
      then { f.instr i with targets := substitute target b (f.instr i).targets } else f.instr i :=
    fun i => by rw [hf2]; exact instr_replaceTarget t target b i
  obtain ⟨g, hg, hcases⟩ := jump_ok (hhas2 b ▸ hb) (hblock2 b ▸ hopen) (hhas2 target ▸ htarget)
  obtain ⟨⟨hname, hexternal, hlay, hblocks, hinstrs⟩, hinstr, hshape⟩ :=
    shape_of_jumped (hhas2 b ▸ hb) hcases
  simp only [hsize2, hblock2] at hg hinstrs hshape
  -- the phis of the target are told last, and only instructions change
  obtain ⟨tab, htab, hlast⟩ := blocks_foldl_incoming source b (g.block target).phis g
  have hlast' : g.replaceIncoming target source b = { g with instrs := tab } := hlast
  have hfinal : ∀ i, (g.replaceIncoming target source b).instr i = if i ∈ (f.block target).phis then
      { g.instr i with incoming := substitute source b (g.instr i).incoming } else g.instr i := by
    intro i
    rw [← (hshape target).1]
    exact instr_foldl_incoming source b _ g i
  have hblock : ∀ c, (g.replaceIncoming target source b).block c = g.block c := fun c => by
    rw [hlast']; rfl
  refine ⟨g.replaceIncoming target source b, ?_, ?_, ?_, ⟨l, r, hlayout, ?_⟩, ?_, ?_, fun c => ?_,
    fun c => ?_, fun c => ?_, ?_, fun i hi => ?_⟩
  · unfold attach
    rw [Change.get_bind, hins, Change.check_bind, Change.set_bind, Change.get_bind]
    have hterm' : (block { f with layout := l ++ source :: b :: r } source).term = some t := hterm
    simp only [hterm']
    rw [Change.modify_bind, ← hf2, Change.bind_eq hg]
    rfl
  · rw [hlast', ← hframe2.1, ← hname]
  · rw [hlast', ← hframe2.2.1, ← hexternal]
  · rw [hlast', ← hframe2.2.2.1, ← hlay]
  · rw [hlast', ← hinstrs, ← htab]
  · rw [hlast', ← hframe2.2.2.2, ← hblocks]
  · rw [hblock, (hshape c).1]
  · rw [hblock, (hshape c).2.1]
  · rw [hblock, (hshape c).2.2]
  · rw [hfinal, hinstr, instr_jumped, hsize2, if_pos rfl]
    split <;> rfl
  · have hne : i ≠ f2.instrs.size + 1 := by
      rw [hsize2]
      exact Nat.ne_of_lt (Nat.lt_succ_of_le hi)
    rw [hfinal, hinstr, instr_jumped, if_neg hne, hinstr2]
    by_cases hit : i = t
    · subst hit
      by_cases hip : i ∈ (f.block target).phis <;> simp [hip]
    · by_cases hip : i ∈ (f.block target).phis <;> simp [hit, hip]

end Func

namespace Plan

open Motion (State)

variable (p : Plan)

/-- The block that stands for the far end of an edge of `b`, once some edges are split. -/
def divert (near far : Nat → BlockId) (done : List Nat) (b c : BlockId) : BlockId :=
  done.foldl (fun c x => if near x = b ∧ c = far x then p.splitId x else c) c

def retarget : List Nat → BlockId → BlockId → BlockId := p.divert p.source p.target

def reroute : List Nat → BlockId → BlockId → BlockId := p.divert p.target p.source

/-- The blocks on some split edges that come behind a block, the one attached last in front. -/
def behind (done : List Nat) (b : BlockId) : List BlockId :=
  (done.filter (p.source · == b)).reverse.map p.splitId

def spread (done : List Nat) : List BlockId := p.func.layout.flatMap fun b => b :: p.behind done b

structure Joined (f : Func) (done : List Nat) (g : Func) : Prop where
  name : g.name = f.name
  isExternal : g.isExternal = f.isExternal
  layout : g.layout = p.spread done
  mem_layout : ∀ b, b ∈ g.layout ↔ b ∈ f.layout ∨ ∃ x ∈ done, b = p.splitId x
  head : g.layout.head? = f.layout.head?
  nodup : g.layout.Nodup
  instrs_size : g.instrs.size = f.instrs.size + done.length
  blocks_size : g.blocks.size = f.blocks.size
  phis : ∀ b, (g.block b).phis = (f.block b).phis
  body : ∀ b, (g.block b).body = (f.block b).body
  term : ∀ b, (∀ x ∈ done, b ≠ p.splitId x) → (g.block b).term = (f.block b).term
  term_split : ∀ x ∈ done, (g.block (p.splitId x)).term = some (p.jumpId x)
  jump : ∀ x ∈ done, g.instr (p.jumpId x) =
    { op := .jump, targets := [p.target x], block := some (p.splitId x) }
  instr : ∀ i ≤ f.instrs.size, (g.instr i).op = (f.instr i).op ∧
    (g.instr i).args = (f.instr i).args ∧
    (g.instr i).callee = (f.instr i).callee ∧ (g.instr i).block = (f.instr i).block
  targets : ∀ b ∈ p.func.layout, g.targets b = (f.targets b).map (p.retarget done b)
  incoming : ∀ b ∈ p.func.layout, ∀ i ∈ (p.func.block b).phis,
    (g.instr i).incoming = (f.instr i).incoming.map (p.reroute done b)
  preds : done = [] → ∀ b, (g.block b).preds = (f.block b).preds

variable {p} {f g : Func} {done : List Nat} {x : Nat} {b : BlockId}

theorem divert_append (near far : Nat → BlockId) (done : List Nat) (x : Nat) (b c : BlockId) :
    p.divert near far (done ++ [x]) b c =
    if near x = b ∧ p.divert near far done b c = far x then p.splitId x
      else p.divert near far done b c := by
  unfold divert
  rw [List.foldl_append]
  rfl

theorem map_divert_append (near far : Nat → BlockId) (l : List BlockId) :
    l.map (p.divert near far (done ++ [x]) b) =
    if near x = b then Func.substitute (far x) (p.splitId x) (l.map (p.divert near far done b))
      else l.map (p.divert near far done b) := by
  by_cases hb : near x = b
  · rw [if_pos hb, Func.substitute, List.map_map]
    refine List.map_congr_left fun a _ => ?_
    rw [divert_append]
    simp [hb]
  · rw [if_neg hb]
    refine List.map_congr_left fun a _ => ?_
    rw [divert_append, if_neg fun hh => hb hh.1]

/-- An edge that is not split keeps its far end. -/
theorem divert_eq_self {near far : Nat → BlockId} {c : BlockId}
    (hno : ∀ x ∈ done, near x = b → far x ≠ c) : p.divert near far done b c = c := by
  induction done using List.reverseRecOn with
  | nil => rfl
  | append_singleton done x ih =>
    rw [divert_append, ih fun y hy => hno y (List.mem_append_left _ hy), if_neg]
    exact fun hh => hno x (by simp) hh.1 hh.2.symm

/-- The far end of a split edge becomes the block that splits it. -/
theorem divert_eq_splitId {near far : Nat → BlockId} (hd : done.Nodup)
    (hinj : ∀ x ∈ done, ∀ y ∈ done, near x = near y → far x = far y → x = y)
    (hfar : ∀ x ∈ done, ∀ y, far x ≠ p.splitId y) (hx : x ∈ done) :
    p.divert near far done (near x) (far x) = p.splitId x := by
  induction done using List.reverseRecOn with
  | nil => cases hx
  | append_singleton done y ih =>
    have hsub : ∀ z ∈ done, z ∈ done ++ [y] := fun z hz => List.mem_append_left _ hz
    rw [List.nodup_append] at hd
    rw [divert_append]
    rcases List.mem_append.1 hx with hxd | hxy
    · rw [ih hd.1 (fun a ha b hb => hinj a (hsub a ha) b (hsub b hb)) (fun a ha =>
        hfar a (hsub a ha)) hxd, if_neg fun hh => hfar y (by simp) x hh.2.symm]
    · rw [List.mem_singleton] at hxy
      subst hxy
      rw [divert_eq_self fun z hz hn hf => ?_, if_pos ⟨rfl, rfl⟩]
      have hzx := hinj z (hsub z hz) x hx hn hf
      exact hd.2.2 z hz x (by simp) hzx

theorem behind_append (done : List Nat) (x : Nat) (b : BlockId) :
    p.behind (done ++ [x]) b = if p.source x = b then p.splitId x :: p.behind done b
      else p.behind done b := by
  unfold behind
  rw [List.filter_append, List.reverse_append, List.map_append]
  by_cases hb : p.source x = b <;> simp [hb]

/-- One more block comes right behind the source of its edge. -/
theorem spread_append (hx : p.source x ∈ p.func.layout) (hn : (p.spread done).Nodup)
    {l r : List BlockId} (hl : p.spread done = l ++ p.source x :: r) :
    p.spread (done ++ [x]) = l ++ p.source x :: p.splitId x :: r := by
  have hfront : ∀ m : List BlockId, ∀ b ∈ m, b ∈ m.flatMap fun b => b :: p.behind done b :=
    fun m b hb =>
    List.mem_flatMap.2 ⟨b, hb, List.mem_cons_self⟩
  have hother : ∀ m : List BlockId, (p.source x ∉ m.flatMap fun b => b :: p.behind done b) →
      (m.flatMap fun b => b :: p.behind (done ++ [x]) b) = m.flatMap fun b =>
        b :: p.behind done b := by
    intro m hm
    refine List.flatMap_congr fun b hb => ?_
    have hne : p.source x ≠ b := fun he => hm (hfront m _ (he.symm ▸ hb))
    rw [behind_append, if_neg hne]
  obtain ⟨L, R, hLR⟩ := List.append_of_mem hx
  have hold : p.spread done = (L.flatMap fun b => b :: p.behind done b) ++
      p.source x :: (p.behind done (p.source x) ++ R.flatMap fun b => b :: p.behind done b) := by
    simp [spread, hLR]
  -- the source is in the list once, so that the two ways to cut it there are the same
  rw [hold] at hl hn
  rw [List.nodup_middle, List.nodup_cons, List.mem_append, not_or] at hn
  obtain ⟨hL, hR⟩ := hn.1
  obtain ⟨rfl, -, rfl⟩ := (List.append_cons_inj_of_notMem hL hR).1 hl
  rw [spread, hLR, List.flatMap_append, List.flatMap_cons, behind_append, if_pos rfl, hother L hL,
    hother R fun hm => hR (List.mem_append_right _ hm)]
  rfl

theorem Joined.refl (h : p.Feasible) (hf : p.Settled f) : p.Joined f [] f := by
  refine ⟨rfl, rfl, by simp [spread, behind, hf.layout], by simp, rfl, ?_, rfl, rfl, fun _ => rfl,
    fun _ => rfl, fun _ _ => rfl, by simp, by simp,
    fun _ _ => ⟨rfl, rfl, rfl, rfl⟩, ?_, ?_, fun _ _ => rfl⟩
  · rw [hf.layout]
    exact h.assembled.nodup
  · intro b _
    exact (List.map_id' _).symm
  · intro b _ i _
    exact (List.map_id' _).symm

/-! The block on one more edge is attached. -/

namespace Joined

variable (hf : p.Settled f) (hj : p.Joined f done g) (hnext : done ++ [x] <+: p.cuts)

include hnext in
theorem edge_lt : x < p.context.edges.size :=
  (mem_cuts.1 (hnext.subset (by simp : x ∈ done ++ [x]))).1

include hnext in
theorem splitId_ne {y : Nat} (hy : y ∈ done) : p.splitId x ≠ p.splitId y := by
  intro he
  have hnd := hnext.sublist.nodup p.nodup_cuts
  rw [List.nodup_append] at hnd
  exact hnd.2.2 x (splitId_inj (hnext.subset (by simp)) he ▸ hy) x (by simp) rfl

include hf hj in
theorem blocks_size_eq : g.blocks.size = p.func.blocks.size + p.cuts.length :=
  hj.blocks_size.trans hf.blocks_size

include hf hj hnext in
theorem jumpId_eq : p.jumpId x = g.instrs.size + 1 := by
  rw [jumpId, idxOf_next p.nodup_cuts hnext, hj.instrs_size, hf.instrs_size]
  ring

include hf hj hnext in
theorem jumpId_le {y : Nat} (hy : y ∈ done) : p.jumpId y ≤ g.instrs.size := by
  have hlt := List.idxOf_lt_length_of_mem hy
  have hidx : p.cuts.idxOf y = done.idxOf y := by
    obtain ⟨tail, htail⟩ := hnext
    rw [← htail, List.append_assoc, List.idxOf_append_of_mem hy]
  rw [hj.instrs_size, hf.instrs_size, jumpId, hidx]
  show p.func.instrs.size + p.copies.length + 1 + done.idxOf y ≤ _
  omega

section Old

variable (h : p.Feasible) (hb : b ∈ p.func.layout)
include hf hj h hb

theorem term_old : (g.block b).term = (p.func.block b).term := by
  rw [hj.term b fun y _ => h.ne_splitId hb, hf.term]

theorem hasBlock_old : g.hasBlock b = true := by
  obtain ⟨hpos, hle⟩ := Func.hasBlock_iff.1 (h.hasBlock hb)
  exact Func.hasBlock_iff.2 ⟨hpos, hj.blocks_size_eq hf ▸ hle.trans (Nat.le_add_right _ _)⟩

theorem listed_le {i : InstrId} (hi : i ∈ p.func.listed b) : i ≤ g.instrs.size :=
  calc i ≤ p.func.instrs.size := h.assembled.listed_le hb hi
    _ ≤ f.instrs.size := hf.instrs_size ▸ Nat.le_add_right _ _
    _ ≤ g.instrs.size := hj.instrs_size ▸ Nat.le_add_right _ _

end Old

include hf hj in
theorem hasBlock_split (hx : x ∈ p.cuts) : g.hasBlock (p.splitId x) = true := by
  have hlt := List.idxOf_lt_length_of_mem hx
  refine Func.hasBlock_iff.2 ⟨Nat.pos_of_ne_zero fun h0 => ?_, ?_⟩
  · exact absurd (p.lt_splitId x) (h0 ▸ Nat.not_lt_zero _)
  · rw [hj.blocks_size_eq hf]
    show p.func.blocks.size + 1 + p.cuts.idxOf x ≤ _
    omega

section Attached

variable (h : p.Feasible) {g' : Func} {t : InstrId} (ht : (p.func.block (p.source x)).term = some t)
  (hs : g.Spliced g' (p.source x) (p.target x) (p.splitId x) t)
include hf hj hnext h ht hs

/-- The jumps of the blocks attached before are neither the terminator nor a phi that is changed. -/
theorem jump_attach {y : Nat} (hy : y ∈ done ++ [x]) :
    g'.instr (p.jumpId y) =
      { op := .jump, targets := [p.target y], block := some (p.splitId y) } := by
  have hlt := edge_lt hnext
  rcases List.mem_append.1 hy with hy | hy
  · have hnew : ∀ b ∈ p.func.layout, p.jumpId y ∉ p.func.listed b := fun b hb hm => by
      have hle := h.assembled.listed_le hb hm
      exact absurd (hle.trans (Nat.le_add_right _ _)) (Nat.not_le_of_lt (p.lt_jumpId y))
    have hterm : p.jumpId y ≠ t :=
      fun he => hnew _ (h.source_mem hlt) (by simp [Func.listed, ht, he])
    have hphi : p.jumpId y ∉ (g.block (p.target x)).phis := fun hm => by
      rw [hj.phis, hf.phis] at hm
      exact hnew _ (h.target_mem hlt) (List.mem_append_left _ (List.mem_append_left _ hm))
    rw [hs.instr _ (hj.jumpId_le hf hnext hy), if_neg hterm, if_neg hphi, hj.jump y hy]
  · rw [List.mem_singleton.1 hy, hj.jumpId_eq hf hnext, hs.jump]

theorem targets_attach (hb : b ∈ p.func.layout) :
    g'.targets b = (f.targets b).map (p.retarget (done ++ [x]) b) := by
  have hlt := edge_lt hnext
  have hterm := hj.term_old hf h hb
  rw [retarget, map_divert_append, ← retarget, ← hj.targets b hb]
  cases ht' : (p.func.block b).term with
  | none =>
    have hne : p.source x ≠ b := by
      rintro rfl
      rw [ht] at ht'
      cases ht'
    have hnone : (g'.block b).term = none := by rw [hs.term, if_neg (h.ne_splitId hb), hterm, ht']
    rw [if_neg hne, Func.targets_of_none hnone, Func.targets_of_none (hterm.trans ht')]
  | some t' =>
    have hlisted : t' ∈ p.func.listed b := by simp [Func.listed, ht']
    rw [hs.targets_eq (h.ne_splitId hb) (hterm.trans ht') (hj.listed_le hf h hb hlisted)]
    refine if_congr ⟨fun he => ?_, ?_⟩ rfl rfl
    · exact (h.assembled.block_unique hb (h.source_mem hlt) hlisted
        (by simp [Func.listed, ht, he])).symm
    · rintro rfl
      rw [ht, Option.some.injEq] at ht'
      exact ht'.symm

omit ht in
theorem incoming_attach (hb : b ∈ p.func.layout) {i : InstrId} (hi : i ∈ (p.func.block b).phis) :
    (g'.instr i).incoming = (f.instr i).incoming.map (p.reroute (done ++ [x]) b) := by
  have hlt := edge_lt hnext
  have hphis : ∀ {c}, i ∈ (p.func.block c).phis → i ∈ p.func.listed c := fun hi =>
    List.mem_append_left _ (List.mem_append_left _ hi)
  rw [reroute, map_divert_append, ← reroute, ← hj.incoming b hb i hi,
    hs.incoming_eq (hj.listed_le hf h hb (hphis hi)), hj.phis, hf.phis]
  refine if_congr ⟨fun hm => ?_, ?_⟩ rfl rfl
  · exact h.assembled.block_unique (h.target_mem hlt) hb (hphis hm) (hphis hi)
  · rintro rfl
    exact hi

end Attached

theorem attach (h : p.Feasible) (hf : p.Settled f) (hj : p.Joined f done g)
    (hnext : done ++ [x] <+: p.cuts) :
    ∃ g', Func.attach (p.source x) (p.target x) (p.splitId x) g = .ok ⟨⟩ g' ∧
      p.Joined f (done ++ [x]) g' := by
  have hx : x ∈ p.cuts := hnext.subset (by simp)
  have hlt := edge_lt hnext
  have hsource := h.source_mem hlt
  have hne : ∀ y ∈ done, p.splitId x ≠ p.splitId y := fun y hy => splitId_ne hnext hy
  obtain ⟨t, ht⟩ := Func.exists_term (Func.mem_succs.1 (h.leads hlt))
  obtain ⟨g', hrun, hs⟩ :=
    Func.attach_ok ((hj.mem_layout _).2 (Or.inl (hf.layout ▸ hsource)))
      ((hj.term_old hf h hsource).trans ht)
    (hj.hasBlock_split hf hx) (by rw [hj.term _ hne, hf.term, p.block_splitId])
      (hj.hasBlock_old hf h (h.target_mem hlt))
  refine ⟨g', hrun, hs.name.trans hj.name, hs.isExternal.trans hj.isExternal, ?_, fun b => ?_,
    hs.head_layout.trans hj.head,
    hs.nodup_layout hj.nodup fun hm => ?_, ?_, hs.blocks_size.trans hj.blocks_size, fun b =>
      (hs.phis b).trans (hj.phis b),
    fun b => (hs.body b).trans (hj.body b), fun b hb => ?_, fun y hy => ?_, fun y hy =>
      hj.jump_attach hf hnext h ht hs hy, fun i hi => ?_,
    fun b hb => hj.targets_attach hf hnext h ht hs hb, fun b hb i hi =>
      hj.incoming_attach hf hnext h hs hb hi, by simp⟩
  · obtain ⟨l, r, hl, hl'⟩ := hs.layout
    rw [hl']
    exact (spread_append hsource (hj.layout ▸ hj.nodup) (hj.layout.symm.trans hl)).symm
  · rw [hs.mem_layout, hj.mem_layout]
    simp only [List.mem_append, List.mem_singleton, or_and_right, exists_or,
      exists_eq_left, or_assoc]
  · rcases (hj.mem_layout _).1 hm with hm | ⟨y, hy, he⟩
    · exact h.ne_splitId (hf.layout ▸ hm) rfl
    · exact hne y hy he
  · rw [hs.instrs_size, hj.instrs_size, List.length_append]
    rfl
  · rw [hs.term, if_neg (hb x (by simp)), hj.term b fun y hy => hb y (List.mem_append_left _ hy)]
  · rw [hs.term, ← hj.jumpId_eq hf hnext]
    rcases List.mem_append.1 hy with hy | hy
    · rw [if_neg fun he => hne y hy he.symm, hj.term_split y hy]
    · rw [List.mem_singleton.1 hy, if_pos rfl]
  · rw [hs.instr i (hj.instrs_size ▸ hi.trans (Nat.le_add_right _ _))]
    exact hj.instr i hi

end Joined

namespace Feasible

variable (h : p.Feasible)
include h

theorem retarget_cut (hx : x ∈ p.cuts) :
    p.retarget p.cuts (p.source x) (p.target x) = p.splitId x :=
  divert_eq_splitId p.nodup_cuts (fun _ hy _ hz => h.edge_inj (mem_cuts.1 hy).1 (mem_cuts.1 hz).1)
    (fun _ hy _ => h.ne_splitId (h.target_mem (mem_cuts.1 hy).1)) hx

theorem reroute_cut (hx : x ∈ p.cuts) : p.reroute p.cuts (p.target x) (p.source x) = p.splitId x :=
  divert_eq_splitId p.nodup_cuts (fun _ hy _ hz ht hs =>
    h.edge_inj (mem_cuts.1 hy).1 (mem_cuts.1 hz).1 hs ht)
    (fun _ hy _ => h.ne_splitId (h.source_mem (mem_cuts.1 hy).1)) hx

/-- An edge that is not cut has not the ends of one that is. -/
theorem not_parallel_cut {y : Nat} (hx : x < p.context.edges.size) (hc : p.isCut x = false)
    (hy : y ∈ p.cuts) (hs : p.source y = p.source x) (ht : p.target y = p.target x) : False := by
  have hyx := h.edge_inj (mem_cuts.1 hy).1 hx hs ht
  rw [← hyx, (mem_cuts.1 hy).2] at hc
  cases hc

theorem retarget_uncut (hx : x < p.context.edges.size) (hc : p.isCut x = false) :
    p.retarget p.cuts (p.source x) (p.target x) = p.target x :=
  divert_eq_self fun _ hy hs ht => h.not_parallel_cut hx hc hy hs ht

theorem reroute_uncut (hx : x < p.context.edges.size) (hc : p.isCut x = false) :
    p.reroute p.cuts (p.target x) (p.source x) = p.source x :=
  divert_eq_self fun _ hy ht hs => h.not_parallel_cut hx hc hy hs ht

end Feasible

/-- The turn of an edge that is split. -/
theorem splice_cut
    (hj : ∃ g', Func.attach (p.source x) (p.target x) (p.splitId x) g = .ok ⟨⟩ g' ∧
      p.Joined f (done ++ [x]) g') {st : State} (hi : p.Inserted p.copies p.cuts st)
    (hx : x ∈ p.cuts) (m : Motion) :
    ∃ g', State.splice x { st with func := g, done := m } =
      .ok ⟨⟩ { st with func := g', done := { m with splits := m.splits + 1 } } ∧
        p.Joined f (done ++ [x]) g' := by
  obtain ⟨g', hrun, hjoin⟩ := hj
  have hsplit : (st.context.edge x).split = some (p.splitId x) := by rw [hi.edge, if_pos hx]
  have hsource : (st.context.node (st.context.edge x).source).block = p.source x := by
    rw [hi.edge, Context.node, hi.nodes]
    rfl
  have htarget : (st.context.node (st.context.edge x).target).block = p.target x := by
    rw [hi.edge, Context.node, hi.nodes]
    rfl
  refine ⟨g', ?_, hjoin⟩
  unfold State.splice
  rw [Change.get_bind]
  simp only [hsplit, hsource, htarget]
  exact Change.bind_eq (Change.zoom_ok hrun)

theorem splice_uncut {st : State} (hi : p.Inserted p.copies p.cuts st) (hx : x ∉ p.cuts)
    (m : Motion) :
    State.splice x { st with func := g, done := m } = .ok ⟨⟩ { st with func := g, done := m } := by
  have hsplit : (st.context.edge x).split = none := by rw [hi.edge, if_neg hx]
  unfold State.splice
  rw [Change.get_bind]
  simp only [hsplit]
  rfl

/-- The blocks on all split edges are attached. -/
theorem Settled.forM_splice (h : p.Feasible) (hf : p.Settled f) {st : State}
    (hi : p.Inserted p.copies p.cuts st) (m : Motion) :
    ∃ g, (List.range p.context.edges.size).forM State.splice { st with func := f, done := m } =
      .ok ⟨⟩ { st with func := g, done := { m with splits := m.splits + p.cuts.length } } ∧
        p.Joined f p.cuts g := by
  have :=
    Change.forM_ok (f := State.splice) (l := List.range p.context.edges.size)
      (s := { st with func := f, done := m })
      (fun pre t => ∃ g,
        t = { st with
          func := g
          done := { m with splits := m.splits + (pre.filter p.isCut).length } } ∧
        p.Joined f (pre.filter p.isCut) g) ?_ ⟨f, rfl, .refl h hf⟩
  · obtain ⟨t, ht, g, rfl, hj⟩ := this
    exact ⟨g, ht, hj⟩
  · rintro pre x post _ hl ⟨g, rfl, hj⟩
    have hx : x < p.context.edges.size := List.mem_range.1 (by rw [hl]; simp)
    cases hc : p.isCut x with
    | true =>
      have hfilter : (pre ++ [x]).filter p.isCut = pre.filter p.isCut ++ [x] := by simp [hc]
      have hnext : pre.filter p.isCut ++ [x] <+: p.cuts := by
        rw [← hfilter, cuts, hl]
        exact (List.prefix_append_right_inj pre).2 ⟨post, rfl⟩ |>.filter _
      obtain ⟨g', hrun, hj'⟩ := splice_cut (hj.attach h hf hnext) hi (mem_cuts.2 ⟨hx, hc⟩)
        { m with splits := m.splits + (pre.filter p.isCut).length }
      rw [hfilter]
      exact ⟨_, hrun, g', by rw [List.length_append]; rfl, hj'⟩
    | false =>
      have hfilter : (pre ++ [x]).filter p.isCut = pre.filter p.isCut := by simp [hc]
      rw [hfilter]
      refine ⟨_, splice_uncut hi (fun hm => ?_) _, g, rfl, hj⟩
      rw [(mem_cuts.1 hm).2] at hc
      cases hc

end Plan
end CodeMotion
