import Mathlib
import CodeMotion.Proofs.Optimize

/-! What the verifier can report. A report shows an instruction at most, and among the instructions
with the operands and targets of their operation only a phi with more operands than incoming blocks
cannot be shown. -/

namespace CodeMotion

def Op.targetCount? : Op → Option Nat
  | .jump => some 1
  | .branch => some 2
  | .phi | .switch | .unknown _ => none
  | _ => some 0

/-- An instruction with a known operation and the operands and targets that it takes. A switch has
one operand more than cases, and a target more as well. -/
structure Instr.Complete (ins : Instr) : Prop where
  known : ins.op ∈ Op.all
  args : ∀ n ∈ ins.op.operandCount?, ins.args.length = n
  targets : ∀ n ∈ ins.op.targetCount?, ins.targets.length = n
  cases : ins.op = .switch → 0 < ins.targets.length ∧ ins.args.length = ins.targets.length

instance {ins : Instr} : Decidable ins.Complete := decidable_of_iff'
  (ins.op ∈ Op.all ∧ (∀ n ∈ ins.op.operandCount?, ins.args.length = n) ∧
    (∀ n ∈ ins.op.targetCount?, ins.targets.length = n) ∧
    (ins.op = .switch → 0 < ins.targets.length ∧ ins.args.length = ins.targets.length))
  ⟨fun h => ⟨h.known, h.args, h.targets, h.cases⟩, fun ⟨h1, h2, h3, h4⟩ => ⟨h1, h2, h3, h4⟩⟩

def Defect.shown? : Defect → Option InstrId
  | notTerminator _ i | notPhi _ i | unevenPhi _ i | misplaced _ i => some i
  | _ => none

theorem entryAt_of_lt {α : Type} {l : List α} {n : Nat} (h : n < l.length) :
    entryAt l n = .ok l[n] :=
  entryAt_ok.2 (List.getElem?_eq_getElem h)

theorem entryAt_of_le {α : Type} {l : List α} {n : Nat} (h : l.length ≤ n) :
    entryAt l n = .error .outOfRange := by
  unfold entryAt
  rw [List.getElem?_eq_none h]

/-- A list is gone through to its end, or up to the one fault that can happen. -/
theorem mapM_cases {α β : Type} {f : α → Except Fault β} {e : Fault} {l : List α}
    (h : ∀ a ∈ l, (∃ b, f a = .ok b) ∨ f a = .error e) :
    ((∃ r, l.mapM f = .ok r) ∧ ∀ a ∈ l, f a ≠ .error e) ∨ (l.mapM f = .error e ∧ ∃ a ∈ l,
      f a = .error e) := by
  induction l with
  | nil => exact Or.inl ⟨⟨[], rfl⟩, by simp⟩
  | cons a t ih =>
    rw [List.mapM_cons]
    rcases h a List.mem_cons_self with ⟨b, hb⟩ | he
    · rw [hb]
      rcases ih fun c hc => h c (List.mem_cons_of_mem _ hc) with ⟨⟨r, hr⟩, hall⟩ | ⟨hr, c, hc, hce⟩
      · refine Or.inl ⟨⟨b :: r, by rw [hr]; rfl⟩, ?_⟩
        simpa [hb] using hall
      · exact Or.inr ⟨by rw [hr]; rfl, c, List.mem_cons_of_mem _ hc, hce⟩
    · exact Or.inr ⟨by rw [he]; rfl, a, List.mem_cons_self, he⟩

namespace Func

variable {fn : Func} {b : BlockId} {i : InstrId} {d : Defect}

def Overfull (fn : Func) (i : InstrId) : Prop :=
  (fn.instr i).op = .phi ∧ (fn.instr i).incoming.length < (fn.instr i).args.length

instance : Decidable (fn.Overfull i) := inferInstanceAs (Decidable (_ ∧ _))

/-- A phi prints, unless it has more operands than incoming blocks. -/
theorem instrText_phi (hop : (fn.instr i).op = .phi) :
    ((∃ s, fn.instrText i = .ok s) ∧ ¬fn.Overfull i) ∨ (fn.instrText i = .error .outOfRange ∧
      fn.Overfull i) := by
  have htext : fn.instrText i = do
      let parts ← (fn.instr i).args.zipIdx.mapM fun q => fn.phiText (fn.instr i) q.2 q.1
      return (Value.instr i).text ++ " = " ++ "φ(" ++ ", ".intercalate parts ++ ")" := by
    unfold instrText
    simp only [hop]
  have hpart : ∀ q : Value × Nat, (q.2 < (fn.instr i).incoming.length ∧
    ∃ s, fn.phiText (fn.instr i) q.2 q.1 = .ok s) ∨
      ((fn.instr i).incoming.length ≤ q.2 ∧ fn.phiText (fn.instr i) q.2 q.1 =
        .error .outOfRange) := by
    intro q
    unfold phiText
    rcases Nat.lt_or_ge q.2 (fn.instr i).incoming.length with hlt | hge
    · exact Or.inl ⟨hlt, _, by rw [entryAt_of_lt hlt]; rfl⟩
    · exact Or.inr ⟨hge, by rw [entryAt_of_le hge]; rfl⟩
  rcases mapM_cases (l := (fn.instr i).args.zipIdx) fun q _ => (hpart q).imp And.right And.right
    with ⟨⟨r, hr⟩, hall⟩ | ⟨hr, q, hq, he⟩
  · refine Or.inl ⟨⟨_, by rw [htext, hr]; rfl⟩, fun ho => ?_⟩
    -- the first operand without a block is in the list
    obtain ⟨v, hv⟩ : ∃ v, (fn.instr i).args[(fn.instr i).incoming.length]? = some v :=
      ⟨_, List.getElem?_eq_getElem ho.2⟩
    rcases hpart (v, (fn.instr i).incoming.length) with ⟨hlt, -⟩ | ⟨-, he⟩
    · exact absurd hlt (Nat.lt_irrefl _)
    · exact hall _ (List.mem_zipIdx_iff_getElem?.2 hv) he
  · refine Or.inr ⟨by rw [htext, hr]; rfl, hop, ?_⟩
    have hlt : q.2 < (fn.instr i).args.length :=
      (List.getElem?_eq_some_iff.1 (List.mem_zipIdx_iff_getElem?.1 hq)).1
    rcases hpart q with ⟨-, s, hs⟩ | ⟨hge, -⟩
    · rw [hs] at he
      cases he
    · exact Nat.lt_of_le_of_lt hge hlt

/-- A switch prints each of its targets with an operand. -/
theorem instrText_switch (hop : (fn.instr i).op = .switch) (h : (fn.instr i).Complete) :
    ∃ s, fn.instrText i = .ok s := by
  obtain ⟨hpos, hlen⟩ := h.cases hop
  have hcase : ∀ q ∈ ((fn.instr i).targets.drop 1).zipIdx,
      ∃ s, fn.caseText (fn.instr i) (q.2 + 1) q.1 = .ok s := by
    intro q hq
    have hlt := (List.getElem?_eq_some_iff.1 (List.mem_zipIdx_iff_getElem?.1 hq)).1
    rw [List.length_drop] at hlt
    unfold caseText
    exact ⟨_, by rw [entryAt_of_lt (show q.2 + 1 < (fn.instr i).args.length by omega)]; rfl⟩
  rcases mapM_cases (e := .outOfRange) fun q hq => Or.inl (hcase q hq) with ⟨⟨r, hr⟩, -⟩ |
    ⟨-, q, hq, he⟩
  · unfold instrText
    simp only [hop, entryAt_of_lt hpos, entryAt_of_lt (hlen ▸ hpos : 0 < (fn.instr i).args.length)]
    exact ⟨_, by rw [hr]; rfl⟩
  · obtain ⟨s, hs⟩ := hcase q hq
    rw [hs] at he
    cases he

theorem instrText_of_ne_phi (h : (fn.instr i).Complete) (hphi : (fn.instr i).op ≠ .phi) :
    ∃ s, fn.instrText i = .ok s := by
  have harg : ∀ n k, (fn.instr i).op.operandCount? = some k → n < k →
      ∃ a, entryAt (fn.instr i).args n = .ok a :=
    fun n k hk hn =>
    ⟨_, entryAt_of_lt (h.args k hk ▸ hn)⟩
  have htarget : ∀ n k, (fn.instr i).op.targetCount? = some k → n < k →
      ∃ a, entryAt (fn.instr i).targets n = .ok a :=
    fun n k hk hn =>
    ⟨_, entryAt_of_lt (h.targets k hk ▸ hn)⟩
  cases hop : (fn.instr i).op with
  | phi => exact absurd hop hphi
  | switch => exact instrText_switch hop h
  | unknown code =>
    have hknown := h.known
    rw [hop] at hknown
    simp [Op.all, UnaryOp.all, BinaryOp.all] at hknown
  | alloca | call | ret | unreachable => exact ⟨_, by simp only [instrText, hop]; rfl⟩
  | load | unary _ =>
    obtain ⟨a, ha⟩ := harg 0 1 (by rw [hop]; rfl) Nat.one_pos
    exact ⟨_, by simp only [instrText, hop, ha]; rfl⟩
  | store | lea | binary _ =>
    obtain ⟨a, ha⟩ := harg 0 2 (by rw [hop]; rfl) Nat.two_pos
    obtain ⟨c, hc⟩ := harg 1 2 (by rw [hop]; rfl) Nat.one_lt_two
    exact ⟨_, by simp only [instrText, hop, ha, hc]; rfl⟩
  | jump =>
    obtain ⟨a, ha⟩ := htarget 0 1 (by rw [hop]; rfl) Nat.one_pos
    exact ⟨_, by simp only [instrText, hop, ha]; rfl⟩
  | branch =>
    obtain ⟨v, hv⟩ := harg 0 1 (by rw [hop]; rfl) Nat.one_pos
    obtain ⟨a, ha⟩ := htarget 0 2 (by rw [hop]; rfl) Nat.two_pos
    obtain ⟨c, hc⟩ := htarget 1 2 (by rw [hop]; rfl) Nat.one_lt_two
    exact ⟨_, by simp only [instrText, hop, hv, ha, hc]; rfl⟩

theorem instrText_overfull (h : fn.Overfull i) : fn.instrText i = .error .outOfRange :=
  ((instrText_phi h.1).resolve_left fun hs => hs.2 h).1

theorem instrText_of_not_overfull (h : (fn.instr i).Complete) (ho : ¬fn.Overfull i) :
    ∃ s, fn.instrText i = .ok s := by
  by_cases hop : (fn.instr i).op = .phi
  · exact ((instrText_phi hop).resolve_right fun hs => ho hs.2).1
  · exact instrText_of_ne_phi h hop

structure Legible (fn : Func) : Prop where
  hasBlock : ∀ b ∈ fn.layout, fn.hasBlock b = true
  preds : ∀ b ∈ fn.layout, ∀ p ∈ (fn.block b).preds, fn.hasBlock p = true
  complete : ∀ b ∈ fn.layout, ∀ i ∈ fn.listed b, (fn.instr i).Complete

instance : Decidable fn.Legible := decidable_of_iff'
  (∀ b ∈ fn.layout, fn.hasBlock b = true ∧ (∀ p ∈ (fn.block b).preds, fn.hasBlock p = true) ∧
    ∀ i ∈ fn.listed b, (fn.instr i).Complete)
  ⟨fun h b hb => ⟨h.hasBlock b hb, h.preds b hb, h.complete b hb⟩,
    fun h => ⟨fun b hb => (h b hb).1, fun b hb => (h b hb).2.1, fun b hb => (h b hb).2.2⟩⟩

def Tellable (fn : Func) (d : Defect) : Prop := ∃ m, d.message fn = .ok m

theorem phiDefect?_cases (hd : fn.phiDefect? b i = some d) : fn.Tellable d ∨ d.shown? = some i := by
  unfold phiDefect? at hd
  dsimp only at hd
  split at hd
  · cases hd
    exact Or.inr rfl
  · split at hd
    · cases hd
      exact Or.inr rfl
    · obtain ⟨p, -, rfl⟩ := Option.map_eq_some_iff.1 hd
      exact Or.inl ⟨_, rfl⟩

theorem bodyDefect?_shown (hd : fn.bodyDefect? b i = some d) : d.shown? = some i := by
  unfold bodyDefect? at hd
  split at hd
  · cases hd
    rfl
  · cases hd

theorem parentDefect?_tellable (hd : fn.parentDefect? b i = some d) : fn.Tellable d := by
  unfold parentDefect? at hd
  split at hd
  · cases hd
    exact ⟨_, rfl⟩
  · cases hd

theorem Legible.succDefect?_tellable (h : fn.Legible) {s : BlockId}
    (hd : fn.succDefect? b s = some d) : fn.Tellable d := by
  unfold succDefect? at hd
  split at hd
  · cases hd
    exact ⟨_, rfl⟩
  · next hs =>
    have hmem : s ∈ fn.layout := by simpa using hs
    rw [h.hasBlock s hmem, Bool.not_true, if_neg Bool.false_ne_true] at hd
    split at hd
    · cases hd
      exact ⟨_, rfl⟩
    · cases hd

theorem Legible.predDefect?_tellable (h : fn.Legible) (hb : b ∈ fn.layout) {p : BlockId}
    (hp : p ∈ (fn.block b).preds) (hd : fn.predDefect? b p = some d) : fn.Tellable d := by
  unfold predDefect? at hd
  rw [h.preds b hb p hp, Bool.not_true, if_neg Bool.false_ne_true] at hd
  split at hd
  · cases hd
    exact ⟨_, rfl⟩
  · cases hd

/-- What is reported of a block shows an instruction of the block, if it shows one. -/
theorem Legible.blockDefect?_cases (h : fn.Legible) (hb : b ∈ fn.layout)
    (hd : fn.blockDefect? b = some d) : fn.Tellable d ∨ ∃ i ∈ fn.listed b, d.shown? = some i := by
  unfold blockDefect? at hd
  split at hd
  · rw [h.hasBlock b hb, if_pos rfl] at hd
    cases hd
    exact Or.inl ⟨_, rfl⟩
  · next t ht =>
    split at hd
    · cases hd
      exact Or.inr ⟨t, by simp [listed, ht], rfl⟩
    · simp only [Option.orElse_eq_orElse, Option.orElse_eq_or, Option.or_eq_some_iff] at hd
      rcases hd with hd | ⟨-, hd | ⟨-, hd | ⟨-, hd | ⟨-, hd⟩⟩⟩⟩
      · obtain ⟨i, hi, hd⟩ := List.exists_of_findSome?_eq_some hd
        exact (phiDefect?_cases hd).imp_right fun hs => ⟨i, by simp [listed, hi], hs⟩
      · obtain ⟨i, hi, hd⟩ := List.exists_of_findSome?_eq_some hd
        exact Or.inr ⟨i, mem_listed_of_body hi, bodyDefect?_shown hd⟩
      · obtain ⟨i, -, hd⟩ := List.exists_of_findSome?_eq_some hd
        exact Or.inl (parentDefect?_tellable hd)
      · obtain ⟨s, -, hd⟩ := List.exists_of_findSome?_eq_some hd
        exact Or.inl (h.succDefect?_tellable hd)
      · obtain ⟨p, hp, hd⟩ := List.exists_of_findSome?_eq_some hd
        exact Or.inl (h.predDefect?_tellable hb hp hd)

theorem Legible.defect?_cases (h : fn.Legible) (hd : fn.defect? = some d) :
    fn.Tellable d ∨ ∃ b ∈ fn.layout, ∃ i ∈ fn.listed b, d.shown? = some i := by
  unfold defect? at hd
  split at hd
  · cases hd
  · rw [Option.orElse_eq_orElse, Option.orElse_eq_or, Option.or_eq_some_iff] at hd
    rcases hd with hd | ⟨-, hd⟩
    · unfold structureDefect? at hd
      split at hd
      · cases hd
      · next e he =>
        rw [h.hasBlock e (List.mem_of_mem_head? he), Bool.not_true, if_neg Bool.false_ne_true] at hd
        split at hd
        · cases hd
          exact Or.inl ⟨_, rfl⟩
        · obtain ⟨b, hb, hd⟩ := List.exists_of_findSome?_eq_some hd
          exact (h.blockDefect?_cases hb hd).imp_right fun hs => ⟨b, hb, hs⟩
    · obtain ⟨b, -, hd⟩ := List.exists_of_findSome?_eq_some hd
      exact Or.inl (message_operandDefect hd)

/-- The report of a defect comes about just as the text of the instruction that it shows. -/
theorem message_shown (hs : d.shown? = some i) :
    (∀ s, fn.instrText i = .ok s → fn.Tellable d) ∧ ∀ e, fn.instrText i = .error e →
      d.message fn = .error e := by
  cases d with
  | notTerminator _ _ | notPhi _ _ | unevenPhi _ _ | misplaced _ _ =>
    cases hs
    exact ⟨fun s h => ⟨_, by rw [Defect.message, h]; rfl⟩,
      fun e h => by rw [Defect.message, h]; rfl⟩
  | _ => cases hs

/-- The first defect is to be reported with the text of a phi that has none. -/
def Garbled (fn : Func) : Prop := ∃ d ∈ fn.defect?, ∃ i ∈ d.shown?, fn.Overfull i

instance : Decidable fn.Garbled :=
  inferInstanceAs (Decidable (∃ d ∈ fn.defect?, ∃ i ∈ d.shown?, fn.Overfull i))

theorem verify_of_defect (hd : fn.defect? = some d) :
    (∀ m, d.message fn = .ok m → ∃ r, fn.verify = .ok (some r)) ∧ ∀ e, d.message fn = .error e →
      fn.verify = .error e := by
  unfold verify
  rw [hd]
  exact ⟨fun m h => ⟨_, by simp only [h]; rfl⟩, fun e h => by simp only [h]; rfl⟩

/-- The verifier comes to an answer, unless its report is garbled. -/
theorem Legible.verify_cases (h : fn.Legible) :
    (¬fn.Garbled ∧ ∃ r, fn.verify = .ok r) ∨ (fn.Garbled ∧ fn.verify = .error .outOfRange) := by
  cases hd : fn.defect? with
  | none => exact Or.inl ⟨by simp [Garbled, hd], none, verify_eq_none.2 hd⟩
  | some d =>
    have hgarbled : fn.Garbled ↔ ∃ i ∈ d.shown?, fn.Overfull i := by simp [Garbled, hd]
    rw [hgarbled]
    rcases h.defect?_cases hd with ⟨m, hm⟩ | ⟨b, hb, i, hi, hs⟩
    · obtain ⟨r, hr⟩ := (verify_of_defect hd).1 m hm
      refine Or.inl ⟨?_, _, hr⟩
      rintro ⟨i, hi, ho⟩
      rw [(message_shown hi).2 _ (instrText_overfull ho)] at hm
      cases hm
    · simp only [hs, Option.mem_def, Option.some.injEq, exists_eq_left']
      by_cases ho : fn.Overfull i
      · exact Or.inr ⟨ho, (verify_of_defect hd).2 _
          ((message_shown hs).2 _ (instrText_overfull ho))⟩
      · obtain ⟨s, hs'⟩ := instrText_of_not_overfull (h.complete b hb i hi) ho
        obtain ⟨m, hm⟩ := (message_shown hs).1 s hs'
        obtain ⟨r, hr⟩ := (verify_of_defect hd).1 m hm
        exact Or.inl ⟨ho, _, hr⟩

/-- What a garbled report shows is a phi of an attached block. -/
theorem Legible.exists_overfull (h : fn.Legible) (hg : fn.Garbled) :
    ∃ b ∈ fn.layout, ∃ i ∈ fn.listed b, fn.Overfull i := by
  obtain ⟨d, hd, i, hi, ho⟩ := hg
  rcases h.defect?_cases hd with ⟨m, hm⟩ | ⟨b, hb, j, hj, hs⟩
  · rw [(message_shown hi).2 _ (instrText_overfull ho)] at hm
    cases hm
  · rw [hs] at hi
    cases hi
    exact ⟨b, hb, i, hj, ho⟩

def Uneven (fn : Func) (i : InstrId) : Prop :=
  (fn.instr i).op = .phi ∧ (fn.instr i).args.length ≠ (fn.instr i).incoming.length

instance : Decidable (fn.Uneven i) := inferInstanceAs (Decidable (_ ∧ _))

/-- No function with an uneven phi is accepted, wherever the phi is. -/
theorem verify_ne_none (hne : fn.isEmpty = false) (hb : b ∈ fn.layout) (hi : i ∈ fn.listed b)
    (hu : fn.Uneven i) : fn.verify ≠ .ok none := by
  intro hv
  have hf := ((defect?_eq_none hne).1 (verify_eq_none.1 hv)).fitting b hb
  rcases List.mem_append.1 hi with hi | hi
  · rcases List.mem_append.1 hi with hi | hi
    · exact hu.2 (hf.phis i hi).2.1
    · exact (hf.body i hi).1 hu.1
  · obtain ⟨t, ht, hterm⟩ := hf.term
    rw [ht, Option.toList_some, List.mem_singleton] at hi
    rw [← hi, hu.1] at hterm
    cases hterm

/-- A function with a garbled report has an entry without predecessors. -/
theorem Garbled.entry (h : fn.Garbled) :
    fn.isEmpty = false ∧ ∀ e ∈ fn.layout.head?, (fn.block e).preds = [] := by
  obtain ⟨d, hd, i, hi, -⟩ := h
  have hne : fn.isEmpty = false := by
    cases he : fn.isEmpty with
    | false => rfl
    | true => simp [defect?, he] at hd
  refine ⟨hne, fun e he => ?_⟩
  by_contra hp
  have hstructure : fn.structureDefect? = some .noBlock ∨
      fn.structureDefect? = some (.entryHasPreds e) := by
    unfold structureDefect?
    rw [he]
    cases fn.hasBlock e <;> simp [hp]
  have hdefect : fn.defect? = fn.structureDefect? := by
    rcases hstructure with hs | hs <;> simp [defect?, hne, hs]
  rw [hdefect] at hd
  rcases hstructure with hs | hs
  all_goals
    rw [hs] at hd
    cases hd
    cases hi

end Func

namespace Workspace

variable {w : Workspace} {o : Options} {fn : Func} {f : Nat}

/-- A function that the verifier rejects is skipped. -/
theorem prepare_malformed (hne : fn.isEmpty = false)
    (hb : ∀ e ∈ fn.layout.head?, fn.hasBlock e = true) (ho : o.verify = true) {m : String}
    (hv : fn.verify = .ok (some m)) (w : Workspace) :
    ∃ w₁, prepare o fn w = .ok (.inr .malformed) w₁ ∧ w₁.funcs = w.funcs := by
  obtain ⟨hx, e, he⟩ := exists_entry hne
  unfold prepare
  rw [hx, if_neg Bool.false_ne_true, he]
  simp only [Func.checkBlock, hb e he, if_true, Change.check_bind]
  by_cases hp : (fn.block e).preds = []
  · have hmal : ∃ w₁, isMalformed o fn w = .ok true w₁ ∧ w₁.funcs = w.funcs := by
      unfold isMalformed
      rw [ho, Bool.not_true, if_neg Bool.false_ne_true, hv, Change.check_bind]
      exact ⟨_, rfl, rfl⟩
    obtain ⟨w₁, hw₁, hfuncs⟩ := hmal
    refine ⟨w₁, ?_, hfuncs⟩
    rw [if_neg (not_not.2 hp), Change.bind_eq hw₁, if_pos rfl]
    rfl
  · rw [if_pos hp]
    exact ⟨w, rfl, rfl⟩

/-- A fault of the verifier is a fault of the run. -/
theorem optimize_fault (hne : (w.func f).isEmpty = false)
    (hentry : ∀ e ∈ (w.func f).layout.head?, (w.func f).hasBlock e = true ∧
      ((w.func f).block e).preds = []) (ho : o.verify = true) {x : Fault}
    (hv : (w.func f).verify = .error x) : optimize o f w = .error x w := by
  obtain ⟨hx, e, he⟩ := exists_entry hne
  obtain ⟨hb, hp⟩ := hentry e he
  have hmal : isMalformed o (w.func f) w = .error x w := by
    unfold isMalformed
    rw [ho, Bool.not_true, if_neg Bool.false_ne_true, hv]
    rfl
  have hprepare : prepare o (w.func f) w = .error x w := by
    unfold prepare
    rw [hx, if_neg Bool.false_ne_true, he]
    simp only [Func.checkBlock, hb, if_true, Change.check_bind, hp, ne_eq,
      not_true_eq_false, if_false]
    exact Change.bind_error hmal
  unfold optimize
  rw [Change.get_bind]
  exact Change.bind_error hprepare

/-- The verifier comes to an answer exactly if its report is not garbled, which takes a phi with
more operands than incoming blocks. Where it does, a function with an uneven phi is rejected, and a
run that verifies skips it; where it does not, such a run fails. -/
theorem verify_answers (h : (w.func f).Legible) :
    ((∃ r, (w.func f).verify = .ok r) ↔ ¬(w.func f).Garbled) ∧
    ((w.func f).Garbled → ∃ b ∈ (w.func f).layout, ∃ i ∈ (w.func f).listed b,
      (w.func f).Overfull i) ∧
    ((w.func f).Garbled → (w.func f).verify = .error .outOfRange ∧
      (o.verify = true → optimize o f w = .error .outOfRange w)) ∧
    (¬(w.func f).Garbled → (w.func f).isEmpty = false →
      (∃ b ∈ (w.func f).layout, ∃ i ∈ (w.func f).listed b, (w.func f).Uneven i) →
      (∃ m, (w.func f).verify = .ok (some m)) ∧
      (o.verify = true → ∃ w', optimize o f w = .ok ({ skipped := .malformed, skippedFuncs := 1 },
        none) w' ∧ w'.func f = w.func f)) := by
  have hb : ∀ e ∈ (w.func f).layout.head?, (w.func f).hasBlock e = true :=
    fun e he => h.hasBlock e (List.mem_of_mem_head? he)
  have hcases := h.verify_cases
  refine ⟨?_, h.exists_overfull, fun hg => ?_, fun hg hne ⟨b, hl, i, hi, hu⟩ => ?_⟩
  · constructor
    · rintro ⟨r, hr⟩ hg
      rw [(hcases.resolve_left fun hc => hc.1 hg).2] at hr
      cases hr
    · exact fun hg => (hcases.resolve_right fun hc => hg hc.1).2
  · have hv := (hcases.resolve_left fun hc => hc.1 hg).2
    obtain ⟨hne, hp⟩ := hg.entry
    exact ⟨hv, fun ho => optimize_fault hne (fun e he => ⟨hb e he, hp e he⟩) ho hv⟩
  · obtain ⟨r, hr⟩ := (hcases.resolve_right fun hc => hg hc.1).2
    cases r with
    | none => exact absurd hr (Func.verify_ne_none hne hl hi hu)
    | some m =>
      refine ⟨⟨m, hr⟩, fun ho => ?_⟩
      obtain ⟨w₁, hp, hw⟩ := prepare_malformed hne hb ho hr w
      obtain ⟨res, w', hrun, hfunc⟩ := optimize_skipped hp hw
      obtain ⟨r', w₂, hp', hres⟩ := optimize_inv hrun
      rw [hp] at hp'
      cases hp'
      obtain ⟨reason, hreason, rfl⟩ := hres.resolve_right fun ⟨c, st, hc, _⟩ => by cases hc
      cases hreason
      exact ⟨w', hrun, hfunc⟩

def merging (incoming : List BlockId) : Func where
  name := "f"
  params := ["x"]
  layout := [1, 2]
  blocks := ⟨#[{ name := "entry", term := some 1 },
    { name := "join", phis := [2], term := some 3, preds := [1] }]⟩
  instrs := ⟨#[
    { op := .jump, targets := [2], block := some 1 },
    { op := .phi, args := [.param 0 "x"], incoming := incoming, block := some 2 },
    { op := .ret, args := [.instr 2], block := some 2 }]⟩

/-- With too many blocks the function is skipped. -/
theorem verify_answers_merging :
    (merging [1, 1]).Legible ∧ ¬(merging [1, 1]).Garbled ∧ (merging [1, 1]).Uneven 2 ∧
    (∃ m, (merging [1, 1]).verify = .ok (some m)) ∧
      ∃ w', optimize { verify := true } 0 { funcs := #[merging [1, 1]] } =
      .ok ({ skipped := .malformed, skippedFuncs := 1 }, none) w' ∧ w'.func 0 = merging [1, 1] := by
  have h : (merging [1, 1]).Legible := by decide +kernel
  have hg : ¬(merging [1, 1]).Garbled := by decide +kernel
  have hu : (merging [1, 1]).Uneven 2 := by decide +kernel
  obtain ⟨-, -, -, hall⟩ :=
    verify_answers (w := { funcs := #[merging [1, 1]] }) (f := 0) (o := { verify := true }) h
  obtain ⟨hm, hrun⟩ := hall hg rfl ⟨2, by decide, 2, by decide, hu⟩
  exact ⟨h, hg, hu, hm, hrun rfl⟩

/-- With none the verifier fails, and the run with it. -/
theorem optimize_fault_merging :
    (merging []).Legible ∧ (merging []).isEmpty = false ∧ (merging []).Uneven 2 ∧
    (merging []).verify = .error .outOfRange ∧
    optimize { verify := true } 0 { funcs := #[merging []] } = .error .outOfRange
      { funcs := #[merging []] } := by
  have h : (merging []).Legible := by decide +kernel
  have hv : (merging []).verify = .error .outOfRange :=
    (h.verify_cases.resolve_left fun hc => hc.1 (by decide +kernel)).2
  exact ⟨h, rfl, by decide +kernel, hv, optimize_fault (w := { funcs := #[merging []] }) rfl
    (by decide +kernel) rfl hv⟩

end Workspace
end CodeMotion
