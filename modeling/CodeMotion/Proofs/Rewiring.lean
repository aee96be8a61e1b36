import Mathlib
import CodeMotion.Proofs.Insertion

/-! Rewiring lets the operands of all listed instructions refer to copies. One replacement after the
other comes to the same as renaming every operand once. -/

namespace CodeMotion

namespace Func

variable {fn f g : Func} {L M : List InstrId} {ρ σ : Value → Value} {i : InstrId} {b : BlockId}
  {old new : Value}

structure Recast (fn g : Func) (L : List InstrId) (ρ : Value → Value) : Prop where
  name : g.name = fn.name
  isExternal : g.isExternal = fn.isExternal
  layout : g.layout = fn.layout
  blocks : g.blocks = fn.blocks
  instrs_size : g.instrs.size = fn.instrs.size
  instr : ∀ i, g.instr i = if i ∈ L then { fn.instr i with args := (fn.instr i).args.map ρ }
    else fn.instr i

theorem Recast.block (h : fn.Recast g L ρ) (b : BlockId) : g.block b = fn.block b := by
  unfold Func.block
  rw [h.blocks]

theorem Recast.listed (h : fn.Recast g L ρ) (b : BlockId) : g.listed b = fn.listed b := by
  unfold Func.listed
  rw [h.block]

theorem Recast.hasBlock (h : fn.Recast g L ρ) (b : BlockId) : g.hasBlock b = fn.hasBlock b := by
  unfold Func.hasBlock
  rw [h.blocks]

theorem Recast.refl (fn : Func) (ρ : Value → Value) : fn.Recast fn [] ρ :=
  ⟨rfl, rfl, rfl, rfl, rfl, fun _ => by simp⟩

theorem Recast.id (fn : Func) (L : List InstrId) : fn.Recast fn L id :=
  ⟨rfl, rfl, rfl, rfl, rfl, fun _ => by simp⟩

/-- One renaming after another, in the same instructions. -/
theorem Recast.comp (h : fn.Recast f L ρ) (h' : f.Recast g L σ) : fn.Recast g L (σ ∘ ρ) := by
  refine ⟨h'.name.trans h.name, h'.isExternal.trans h.isExternal, h'.layout.trans h.layout,
    h'.blocks.trans h.blocks, h'.instrs_size.trans h.instrs_size, fun i => ?_⟩
  rw [h'.instr, h.instr]
  by_cases hi : i ∈ L <;> simp [hi]

/-- The same renaming in more instructions; to meet an instruction again does not matter. -/
theorem Recast.union (h : fn.Recast f L ρ) (h' : f.Recast g M ρ) (hρ : ∀ v, ρ (ρ v) = ρ v) :
    fn.Recast g (L ++ M) ρ := by
  refine ⟨h'.name.trans h.name, h'.isExternal.trans h.isExternal, h'.layout.trans h.layout,
    h'.blocks.trans h.blocks, h'.instrs_size.trans h.instrs_size, fun i => ?_⟩
  have hcomp : ρ ∘ ρ = ρ := funext hρ
  rw [h'.instr, h.instr]
  by_cases hL : i ∈ L <;> by_cases hM : i ∈ M <;> simp [hL, hM, hcomp]

def swap (old new v : Value) : Value := if v == old then new else v

theorem swap_swap (old new v : Value) : swap old new (swap old new v) = swap old new v := by
  unfold swap
  by_cases h : v = old <;> by_cases h' : new = old <;> simp [h, h']

theorem recast_replaceArg (fn : Func) (i : InstrId) (old new : Value) :
    fn.Recast (fn.replaceArg i old new).2 [i] (swap old new) := by
  refine ⟨rfl, rfl, rfl, rfl, Table.size_modify _ _ _, fun j => ?_⟩
  show (fn.modifyInstr i _).instr j = _
  rw [instr_modifyInstr]
  by_cases hij : i = j
  · subst hij
    cases hh : fn.hasInstr i with
    | true => simp [substitute, swap]
    | false =>
      rw [if_neg (by simp), if_pos (by simp), instr_eq_default hh]
      rfl
  · rw [if_neg fun h => hij h.1, if_neg (by simpa using Ne.symm hij)]

theorem recast_foldl (l : List InstrId) : ∀ (n : Nat) (fn : Func),
    fn.Recast (l.foldl (fun (n, fn) i =>
      let (k, fn) := fn.replaceArg i old new
      (n + k, fn)) (n, fn)).2 l (swap old new) := by
  induction l with
  | nil =>
    intro n fn
    exact .refl fn _
  | cons i t ih =>
    intro n fn
    exact (recast_replaceArg fn i old new).union (ih _ _) (swap_swap old new)

theorem recast_replaceIn (fn : Func) (b : BlockId) (old new : Value) :
    fn.Recast (fn.replaceIn old new b).2 (fn.listed b) (swap old new) := recast_foldl _ _ _

def replaceStep (old new : Value) (n : Nat) (b : BlockId) : Change Func Nat := do
  require b
  let (k, fn) := (← get).replaceIn old new b
  set fn
  return n + k

theorem replaceStep_ok (n : Nat) (h : fn.hasBlock b = true) :
    replaceStep old new n b fn = .ok (n + (fn.replaceIn old new b).1)
      (fn.replaceIn old new b).2 := by
  unfold replaceStep
  rw [Change.bind_eq (require_ok h)]
  rfl

theorem foldlM_replaceStep (l : List BlockId) :
    ∀ (n : Nat) (f : Func) (L : List InstrId), fn.Recast f L (swap old new) →
    (∀ b ∈ l, fn.hasBlock b = true) →
      ∃ m g, l.foldlM (replaceStep old new) n f = .ok m g ∧
        fn.Recast g (L ++ l.flatMap fn.listed) (swap old new) := by
  induction l with
  | nil =>
    intro n f L hf _
    exact ⟨n, f, rfl, by simpa using hf⟩
  | cons b t ih =>
    intro n f L hf hb
    have hstep : replaceStep old new n b f = _ :=
      replaceStep_ok n (hf.hasBlock b ▸ hb b List.mem_cons_self)
    have hnext := hf.union (recast_replaceIn f b old new) (swap_swap old new)
    rw [hf.listed] at hnext
    obtain ⟨m, g, hg, hrec⟩ :=
      ih (n + (f.replaceIn old new b).1) _ _ hnext fun b hb' => hb b (List.mem_cons_of_mem _ hb')
    refine ⟨m, g, ?_, by simpa [List.append_assoc] using hrec⟩
    rw [List.foldlM_cons]
    exact (Change.bind_eq hstep).trans hg

/-- A replacement in blocks that exist. -/
theorem replaceUses_ok (old new : Value) (extra : List BlockId)
    (h : ∀ b ∈ fn.layout ++ extra, fn.hasBlock b = true) :
    ∃ n g, replaceUses old new extra fn = .ok n g ∧
      fn.Recast g ((fn.layout ++ extra).flatMap fn.listed) (swap old new) :=
  foldlM_replaceStep _ 0 fn [] (.refl fn _) h

end Func

namespace Plan

open Motion (State)
open Catalog (Entry)

variable (p : Plan)

def lastCopy? (e : Nat) : Option (Nat × Nat) := p.copies.reverse.find? (·.2 == e)

/-- What the turn of one entry of the catalog does to an operand. -/
def renameAt (n : Entry Value InstrId × Nat) (v : Value) : Value :=
  if n.1.op.hasResult then (p.lastCopy? n.2).elim v fun q =>
    Func.swap (.instr n.1.instr) (.instr (p.copyId q)) v else v

def rename (v : Value) : Value :=
  p.context.catalog.entries.zipIdx.foldl (fun v n => p.renameAt n v) v

variable {p} {done : List (Nat × Nat)} {cut : List Nat} {st : State} {x e : Nat} {q : Nat × Nat}
  {v : Value}

def rewired (p : Plan) (st : State) : List InstrId := p.attached.flatMap st.func.listed

namespace Inserted

theorem lastClone? (hi : p.Inserted p.copies p.cuts st) (e : Nat) :
    st.lastClone? e = (p.lastCopy? e).map p.copyId := by
  unfold State.lastClone? lastCopy?
  rw [hi.clones, ← List.map_reverse, List.find?_map, Option.map_map]
  rfl

theorem hasBlock_all (h : p.Feasible) (hi : p.Inserted p.copies p.cuts st) :
    ∀ b ∈ p.attached, st.func.hasBlock b = true := by
  intro b hb
  rcases List.mem_append.1 hb with hb | hb
  · exact hi.hasBlock (h.hasBlock hb)
  · obtain ⟨x, hx, rfl⟩ := List.mem_map.1 hb
    have hcut := (mem_cuts.1 hx).2
    have hplace := hi.hasBlock_place h (mem_cuts.1 hx).1 ⟨fun _ => hx, fun _ => hcut⟩
    unfold place at hplace
    rwa [if_pos hcut] at hplace

theorem rewire (h : p.Feasible) (hi : p.Inserted p.copies p.cuts st) {f : Func} {ρ : Value → Value}
    (hf : st.func.Recast f (p.rewired st) ρ) (n : Entry Value InstrId × Nat) :
    ∃ g, State.rewire n { st with func := f } = .ok ⟨⟩ { st with func := g } ∧
      st.func.Recast g (p.rewired st) (p.renameAt n ∘ ρ) := by
  unfold State.rewire
  rw [Change.get_bind]
  cases hres : n.1.op.hasResult with
  | false =>
    have hrename : p.renameAt n = id := funext fun v => by simp [renameAt, hres]
    exact ⟨f, rfl, by rwa [hrename, Function.id_comp]⟩
  | true =>
    have hclone : ({ st with func := f } : State).lastClone? n.2 = (p.lastCopy? n.2).map p.copyId :=
      hi.lastClone? n.2
    cases hl : p.lastCopy? n.2 with
    | none =>
      have hrename : p.renameAt n = id := funext fun v => by simp [renameAt, hl]
      rw [hl] at hclone
      simp only [hclone]
      exact ⟨f, rfl, by rwa [hrename, Function.id_comp]⟩
    | some q =>
      have hrename : p.renameAt n = Func.swap (.instr n.1.instr) (.instr (p.copyId q)) :=
        funext fun v => by simp [renameAt, hl, hres]
      rw [hl] at hclone
      simp only [hclone]
      have hblocks : ∀ b ∈ f.layout ++ st.splits, f.hasBlock b = true := by
        rw [hf.layout, hi.layout, hi.splits]
        exact fun b hb => hf.hasBlock b ▸ hi.hasBlock_all h b hb
      obtain ⟨m, g, hg, hrec⟩ :=
        Func.replaceUses_ok (.instr n.1.instr) (.instr (p.copyId q)) st.splits hblocks
      have hlisted : (f.layout ++ st.splits).flatMap f.listed = p.rewired st := by
        rw [hf.layout, hi.layout, hi.splits, funext hf.listed]
        rfl
      rw [hlisted] at hrec
      refine ⟨g, ?_, hrename ▸ hf.comp hrec⟩
      exact Change.bind_eq (Change.zoom_ok hg)

/-- Rewiring renames the operands of all instructions that are listed. -/
theorem rewireAll (h : p.Feasible) (hi : p.Inserted p.copies p.cuts st) :
    ∃ g, State.rewireAll st = .ok ⟨⟩ { st with func := g } ∧
      st.func.Recast g (p.rewired st) p.rename := by
  unfold State.rewireAll
  rw [Change.get_bind, hi.catalog]
  have := Change.forM_ok (f := State.rewire) (l := p.context.catalog.entries.zipIdx) (s := st)
    (fun pre t => ∃ g, t = { st with func := g } ∧
      st.func.Recast g (p.rewired st) fun v => pre.foldl (fun v n => p.renameAt n v) v) ?_ ?_
  · obtain ⟨t, ht, g, rfl, hg⟩ := this
    exact ⟨g, ht, hg⟩
  · rintro pre n post _ - ⟨f, rfl, hf⟩
    obtain ⟨g, hg, hrec⟩ := hi.rewire h hf n
    refine ⟨_, hg, g, rfl, ?_⟩
    simp only [List.foldl_append, List.foldl_cons, List.foldl_nil]
    exact hrec
  · exact ⟨st.func, rfl, .id _ _⟩

end Inserted

def Moves (p : Plan) (q : Nat × Nat) : Prop :=
  q ∈ p.copies ∧ (p.func.instr (p.origin q.2)).op.hasResult = true

theorem foldl_renameAt (l : List (Entry Value InstrId × Nat)) (h : ∀ n ∈ l, p.renameAt n v = v) :
    l.foldl (fun v n => p.renameAt n v) v = v := by
  induction l with
  | nil => rfl
  | cons n t ih =>
    rw [List.foldl_cons, h n List.mem_cons_self]
    exact ih fun m hm => h m (List.mem_cons_of_mem _ hm)

theorem renameAt_of_ne {n : Entry Value InstrId × Nat} (h : v ≠ .instr n.1.instr) :
    p.renameAt n v = v := by
  unfold renameAt
  split
  · cases p.lastCopy? n.2 <;> simp [Func.swap, h]
  · rfl

namespace Feasible

variable (h : p.Feasible)
include h

theorem origin_of_entry {n : Entry Value InstrId} (hn : p.context.catalog.entries[e]? = some n) :
    p.origin e = n.instr ∧ (p.func.instr (p.origin e)).op = n.op ∧
      ∃ b ∈ p.func.layout, p.origin e ∈ (p.func.block b).body := by
  obtain ⟨c₀, hs⟩ := h.solved
  have ho : p.origin e = n.instr := by rw [origin, hn]; rfl
  have hc := (hs.numbered.lawful.entry e n hn).2
  rw [ho]
  exact ⟨rfl, hs.numbered.lawful.entry_op hn, hc.2⟩

/-- Two entries of values with one instruction are the same. -/
theorem entry_unique {f : Nat} {n m : Entry Value InstrId}
    (hn : p.context.catalog.entries[e]? = some n) (hm : p.context.catalog.entries[f]? = some m)
    (hi : n.instr = m.instr) : e = f := by
  obtain ⟨c₀, hs⟩ := h.solved
  have h1 := hs.numbered.lawful.exprAt_instr hn
  rw [hi, hs.numbered.lawful.exprAt_instr hm, Option.some.injEq] at h1
  exact h1.symm

theorem rename_unmoved (hv : ∀ q, p.Moves q → v ≠ .instr (p.origin q.2)) : p.rename v = v := by
  refine foldl_renameAt _ fun n hn => ?_
  have hn' := List.mem_zipIdx_iff_getElem?.1 hn
  obtain ⟨ho, hop, -⟩ := h.origin_of_entry hn'
  cases hres : n.1.op.hasResult with
  | false => simp [renameAt, hres]
  | true =>
    cases hl : p.lastCopy? n.2 with
    | none => simp [renameAt, hl]
    | some q =>
      have hq : q ∈ p.copies := List.mem_reverse.1 (List.mem_of_find?_eq_some hl)
      have he : q.2 = n.2 := by simpa using List.find?_some hl
      refine renameAt_of_ne fun heq => hv q ⟨hq, ?_⟩ (by rw [heq, he, ho])
      rw [he, hop, hres]

/-- The uses of a value refer to its last copy. -/
theorem rename_last {n : Entry Value InstrId} (hn : p.context.catalog.entries[e]? = some n)
    (hres : n.op.hasResult = true) (hl : p.lastCopy? e = some q) :
    p.rename (.instr (p.origin e)) = .instr (p.copyId q) := by
  have ho := (h.origin_of_entry hn).1
  obtain ⟨l, r, hlr⟩ :=
    List.append_of_mem (List.mem_zipIdx_iff_getElem?.2 hn :
      (n, e) ∈ p.context.catalog.entries.zipIdx)
  have hmem : ∀ m ∈ l ++ (n, e) :: r, p.context.catalog.entries[m.2]? = some m.1 := fun m hm =>
    List.mem_zipIdx_iff_getElem?.1 (hlr ▸ hm)
  have hnd : (n, e) ∉ l := by
    have hz : (p.context.catalog.entries.zipIdx.map (·.2)).Nodup := List.nodup_zipIdx_map_snd _
    rw [hlr, List.map_append, List.nodup_append] at hz
    exact fun hm => hz.2.2 _ (List.mem_map_of_mem hm) e (by simp) rfl
  -- entries in front of it are of other instructions, and behind it the operand is a copy
  have hfront : ∀ m ∈ l, p.renameAt m (.instr (p.origin e)) = .instr (p.origin e) := by
    intro m hm
    refine renameAt_of_ne fun heq => hnd ?_
    have hm' := hmem m (List.mem_append_left _ hm)
    rw [ho, Value.instr.injEq] at heq
    have hidx := h.entry_unique hn hm' heq
    rw [← hidx, hn, Option.some.injEq] at hm'
    have : m = (n, e) := Prod.ext hm'.symm hidx.symm
    exact this ▸ hm
  have hback : ∀ m ∈ r, p.renameAt m (.instr (p.copyId q)) = .instr (p.copyId q) := by
    intro m hm
    refine renameAt_of_ne fun heq => ?_
    obtain ⟨ho', -, b, hb, hbody⟩ :=
      h.origin_of_entry (hmem m (List.mem_append_right _ (List.mem_cons_of_mem _ hm)))
    have hle := h.assembled.listed_le hb (Func.mem_listed_of_body hbody)
    rw [Value.instr.injEq] at heq
    rw [ho', ← heq] at hle
    exact absurd (p.lt_copyId q) (Nat.not_lt_of_le hle)
  have hat : p.renameAt (n, e) (.instr (p.origin e)) = .instr (p.copyId q) := by
    simp [renameAt, hres, hl, ho, Func.swap]
  unfold rename
  rw [hlr, List.foldl_append, List.foldl_cons, foldl_renameAt l hfront, hat, foldl_renameAt r hback]

/-- An operand stays, or it is a value with copies and the last one takes its place. -/
theorem rename_cases (v : Value) :
    (∃ q, p.Moves q ∧ v = .instr (p.origin q.2) ∧ p.rename v = .instr (p.copyId q)) ∨
    ((∀ q, p.Moves q → v ≠ .instr (p.origin q.2)) ∧ p.rename v = v) := by
  by_cases hmoved : ∃ q, p.Moves q ∧ v = .instr (p.origin q.2)
  · obtain ⟨q, hq, rfl⟩ := hmoved
    obtain ⟨n, hn, -⟩ := h.exists_entry (mem_copies.1 hq.1).2 (mem_copies.1 hq.1).1
    have hsome : (p.lastCopy? q.2).isSome = true := by
      rw [lastCopy?, List.find?_isSome]
      exact ⟨q, List.mem_reverse.2 hq.1, by simp⟩
    obtain ⟨r, hr⟩ := Option.isSome_iff_exists.1 hsome
    have hre : r.2 = q.2 := by simpa using List.find?_some hr
    have hres : n.op.hasResult = true := by
      rw [← (h.origin_of_entry hn).2.1]
      exact hq.2
    have hmoves : p.Moves r := ⟨List.mem_reverse.1 (List.mem_of_find?_eq_some hr), hre ▸ hq.2⟩
    exact Or.inl ⟨r, hmoves, by rw [hre], h.rename_last hn hres hr⟩
  · push Not at hmoved
    exact Or.inr ⟨hmoved, h.rename_unmoved hmoved⟩

/-- How an operand that is a result after renaming came about. -/
theorem rename_eq_instr {d' : InstrId} (hv : p.rename v = .instr d') : ∃ d, v = .instr d ∧
    ((∃ q, p.Moves q ∧ p.origin q.2 = d ∧ d' = p.copyId q) ∨ ((∀ q, p.Moves q → p.origin q.2 ≠ d) ∧
      d' = d)) := by
  rcases h.rename_cases v with ⟨q, hq, rfl, hr⟩ | ⟨hno, hr⟩
  · rw [hr, Value.instr.injEq] at hv
    exact ⟨_, rfl, Or.inl ⟨q, hq, rfl, hv.symm⟩⟩
  · rw [hr] at hv
    exact ⟨d', hv, Or.inr ⟨fun q hq ho => hno q hq (by rw [hv, ho]), rfl⟩⟩

/-- A result goes by the name of its copy, or by its own if it has none. -/
theorem rename_instr_eq {d d' : InstrId} (hv : p.rename (.instr d) = .instr d') :
    (∃ q, p.Moves q ∧ p.origin q.2 = d ∧ d' = p.copyId q) ∨
      ((∀ q, p.Moves q → p.origin q.2 ≠ d) ∧ d' = d) := by
  obtain ⟨_, he, hcases⟩ := h.rename_eq_instr hv
  rw [Value.instr.injEq] at he
  rwa [← he] at hcases

end Feasible

namespace Valid

variable (h : p.Valid)
include h

/-- Of a value there is at most one copy. -/
theorem copy_unique {r : Nat × Nat} (hq : p.Moves q) (hr : r ∈ p.copies) (he : r.2 = q.2) :
    r = q := by
  obtain ⟨hqx, hqe⟩ := mem_copies.1 hq.1
  obtain ⟨hrx, hre⟩ := mem_copies.1 hr
  obtain ⟨n, hn, -⟩ := h.exists_entry hqe hqx
  have hres : n.op.hasResult = true := by
    rw [← (h.origin_of_entry hn).2.1]
    exact hq.2
  obtain ⟨hon, hcarried⟩ := (h.decided.insert_iff _ hqx _).1 hqe
  obtain ⟨⟨x, -, hx⟩, -⟩ := hcarried h.single n hn hres
  have h1 := hx q.1 ⟨hqx, hon⟩
  have h2 := hx r.1 ⟨hrx, he ▸ h.mem_insertOn hrx hre⟩
  exact Prod.ext (h2.trans h1.symm) he

theorem lastCopy?_eq (hq : p.Moves q) : p.lastCopy? q.2 = some q := by
  unfold lastCopy?
  cases hf : p.copies.reverse.find? (·.2 == q.2) with
  | none =>
    have := List.find?_eq_none.1 hf q (List.mem_reverse.2 hq.1)
    simp at this
  | some r =>
    have hr := List.mem_reverse.1 (List.mem_of_find?_eq_some hf)
    have he : r.2 = q.2 := by simpa using List.find?_some hf
    rw [h.copy_unique hq hr he]

theorem copy_of_origin {r : Nat × Nat} (hq : p.Moves q) (hr : p.Moves r)
    (ho : p.origin r.2 = p.origin q.2) : r = q := by
  obtain ⟨n, hn, hno⟩ := h.exists_entry (mem_copies.1 hq.1).2 (mem_copies.1 hq.1).1
  obtain ⟨m, hm, hmo⟩ := h.exists_entry (mem_copies.1 hr.1).2 (mem_copies.1 hr.1).1
  exact h.copy_unique hq hr.1 (h.entry_unique hm hn (by rw [← hmo, ← hno, ho]))

theorem rename_moved (hq : p.Moves q) : p.rename (.instr (p.origin q.2)) = .instr (p.copyId q) := by
  obtain ⟨n, hn, -⟩ := h.exists_entry (mem_copies.1 hq.1).2 (mem_copies.1 hq.1).1
  have hres : n.op.hasResult = true := by
    rw [← (h.origin_of_entry hn).2.1]
    exact hq.2
  exact h.rename_last hn hres (h.lastCopy?_eq hq)

end Valid
end Plan
end CodeMotion
