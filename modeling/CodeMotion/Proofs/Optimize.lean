import Mathlib
import CodeMotion.Proofs.WellFormed

/-! What a run of the optimizer does to a function that a builder made and the verifier accepts: it
comes to an end, and it leaves the function alone or moves its code as planned. -/

namespace CodeMotion

namespace Func

variable {fn : Func} {t : DomTree} {b : BlockId} {d i : InstrId} {n : Nat} {e : Defect}

theorem message_defDefect (h : fn.defDefect? t b n d = some e) : ∃ m, e.message fn = .ok m := by
  unfold defDefect? at h
  split at h
  · cases h
    exact ⟨_, rfl⟩
  · split at h
    · cases h
      exact ⟨_, rfl⟩
    · split at h
      · split at h
        · cases h
          exact ⟨_, rfl⟩
        · cases h
      · split at h
        · cases h
        · cases h
          exact ⟨_, rfl⟩

theorem message_phiUseDefect (h : fn.phiUseDefect? t i = some e) : ∃ m, e.message fn = .ok m := by
  obtain ⟨⟨v, source⟩, -, hv⟩ := List.exists_of_findSome?_eq_some h
  dsimp only at hv
  split at hv
  · obtain ⟨e', he', rfl⟩ := Option.map_eq_some_iff.1 hv
    obtain ⟨d, -, hd⟩ := Option.bind_eq_some_iff.1 he'
    obtain ⟨m, hm⟩ := message_defDefect hd
    exact ⟨_, by rw [Defect.message, hm]; rfl⟩
  · cases hv

theorem message_operandDefect (h : fn.operandDefect? t b = some e) : ∃ m, e.message fn = .ok m := by
  unfold operandDefect? at h
  split at h
  · cases h
  · rw [Option.orElse_eq_orElse, Option.orElse_eq_or, Option.or_eq_some_iff] at h
    rcases h with h | ⟨-, h⟩
    · obtain ⟨i, -, hi⟩ := List.exists_of_findSome?_eq_some h
      exact message_phiUseDefect hi
    · obtain ⟨⟨i, n⟩, -, hi⟩ := List.exists_of_findSome?_eq_some h
      obtain ⟨v, -, hv⟩ := List.exists_of_findSome?_eq_some hi
      obtain ⟨d, -, hd⟩ := Option.bind_eq_some_iff.1 hv
      exact message_defDefect hd

/-- What is wrong with the operands of a function can be reported. -/
theorem Structured.verify_ok (h : fn.Structured) : ∃ r, fn.verify = .ok r := by
  unfold verify
  cases hd : fn.defect? with
  | none => exact ⟨none, rfl⟩
  | some e =>
    unfold defect? at hd
    split at hd
    · cases hd
    · rw [structureDefect?_eq_none.2 h] at hd
      obtain ⟨b, -, hb⟩ := List.exists_of_findSome?_eq_some hd
      obtain ⟨m, hm⟩ := message_operandDefect hb
      exact ⟨_, by simp only [hm]; rfl⟩

end Func

/-- What a context has recorded does not matter for its plan. -/
theorem Plan.Feasible.clean {fn : Func} {c : Context} {s : Sets} (h : Feasible ⟨fn, c, s⟩) :
    Feasible ⟨fn, { c with log := [], trace := "" }, s⟩ := by
  have hw : c.SameWork { c with log := [], trace := "" } := ⟨rfl, rfl, rfl, rfl, rfl⟩
  obtain ⟨c₀, hs⟩ := h.solved
  exact .of_assembled h.assembled ⟨c₀, hs.congr hw rfl hs.numbered.fits⟩
    (h.decided.congr hw) h.given

theorem Plan.Valid.clean {fn : Func} {c : Context} {s : Sets} (h : Valid ⟨fn, c, s⟩) :
    Valid ⟨fn, { c with log := [], trace := "" }, s⟩ := ⟨h.toFeasible.clean, h.sound, h.single⟩

theorem Plan.addressed_clean {fn : Func} {c : Context} {s : Sets} :
    (Plan.mk fn { c with log := [], trace := "" } s).Addressed ↔ (Plan.mk fn c s).Addressed := by
  have hg : c.SameGraph { c with log := [], trace := "" } := .of_eq rfl rfl
  unfold Addressed AtHand
  simp only [hg.path_iff]
  rfl

theorem Plan.Moved.isEmpty {p : Plan} {g : Func} (hm : p.Moved g) : g.isEmpty = p.func.isEmpty := by
  have hhead := hm.head
  rw [Func.isEmpty, Func.isEmpty, hm.isExternal]
  cases hg : g.layout <;> cases hp : p.func.layout <;> simp [hg, hp] at hhead ⊢

theorem Context.Answers.unique {fn : Func} {o : Options} {c d : Context} {s t : Sets}
    (h : Answers fn o c s) (h' : Answers fn o d t) : c = d ∧ s = t := by
  obtain ⟨c₀, h0, hc, hs⟩ := h
  obtain ⟨d₀, h0', hd, ht⟩ := h'
  rw [h0, Except.ok.injEq] at h0'
  rw [← h0', hc] at hd
  cases hd
  rw [hs, Option.some.injEq] at ht
  exact ⟨rfl, ht⟩

namespace Workspace

open Motion (State)

variable {w : Workspace} {o : Options} {fn : Func} {f : Nat}

theorem isMalformed_of_verify (hv : fn.verify = .ok none) (o : Options) (w : Workspace) :
    isMalformed o fn w = .ok false w := by
  unfold isMalformed
  cases ho : o.verify with
  | false => rfl
  | true =>
    rw [Bool.not_true, if_neg Bool.false_ne_true, hv, Change.check_bind]
    rfl

theorem exists_entry (h : fn.isEmpty = false) :
    fn.isExternal = false ∧ ∃ e, fn.layout.head? = some e := by
  rw [Func.isEmpty, Bool.or_eq_false_iff] at h
  refine ⟨h.1, ?_⟩
  cases hl : fn.layout with
  | nil => simp [hl] at h
  | cons e _ => exact ⟨e, rfl⟩

/-- The preparation of a function that is not skipped is its analysis. -/
theorem prepare_eq (hne : fn.isEmpty = false)
    (hentry : ∀ e ∈ fn.layout.head?, fn.hasBlock e = true ∧ (fn.block e).preds = [])
    (hmal : isMalformed o fn w = .ok false w) {c₀ c : Context} {b : Bool}
    (h0 : Context.ofFunc fn o = .ok c₀) (hc : Context.analyze fn c₀ = .ok b c) :
    prepare o fn w = .ok (if b then .inl { c with log := [], trace := "" } else .inr .tooLarge)
      { w with log := w.log ++ c.log, trace := w.trace ++ c.trace } := by
  obtain ⟨hx, e, he⟩ := exists_entry hne
  obtain ⟨hb, hp⟩ := hentry e he
  have hcontext : onContext c₀ (Context.analyze fn) w = .ok (b, { c with log := [], trace := "" })
      { w with log := w.log ++ c.log, trace := w.trace ++ c.trace } := by
    simp only [onContext, hc]
  unfold prepare
  rw [hx, if_neg Bool.false_ne_true, he]
  simp only [Func.checkBlock, hb, if_true, hp, ne_eq, not_true_eq_false, if_false, h0,
    Change.check_bind]
  rw [Change.bind_eq hmal, if_neg Bool.false_ne_true, Change.check_bind, Change.bind_eq hcontext]
  rfl

/-- Without a body there is nothing to prepare. -/
theorem prepare_skipped (he : fn.isEmpty = true) (w : Workspace) :
    ∃ reason, prepare o fn w = .ok (.inr reason) w := by
  rw [Func.isEmpty, Bool.or_eq_true] at he
  unfold prepare
  cases hx : fn.isExternal with
  | true => exact ⟨_, rfl⟩
  | false =>
    have hl : fn.layout = [] := by simpa [hx] using he
    rw [if_neg Bool.false_ne_true, hl]
    exact ⟨_, rfl⟩

/-- The analysis of a sound function is its preparation, unless it is too large. -/
theorem prepare_ok (hv : fn.verify = .ok none) (hne : fn.isEmpty = false) (ht : fn.Tidy)
    (ho : o.trace = .off) (w : Workspace) :
    ∃ c₀ b c, Context.ofFunc fn o = .ok c₀ ∧ Context.analyze fn c₀ = .ok b c ∧
      prepare o fn w = .ok (if b then .inl { c with log := [], trace := "" } else .inr .tooLarge)
        { w with log := w.log ++ c.log, trace := w.trace ++ c.trace } := by
  have hs := ht.sound hv hne
  obtain ⟨c₀, h0⟩ := Context.ofFunc_ok hs.drawable o
  obtain ⟨hf, hopt⟩ := Context.ofFunc_fresh h0
  obtain ⟨b, c, hc⟩ := Context.analyze_ok hf hs.readable (hopt ▸ ho)
  exact ⟨c₀, b, c, h0, hc, prepare_eq hne hs.entry (isMalformed_of_verify hv o w) h0 hc⟩

theorem lt_size_of_isEmpty (hne : (w.func f).isEmpty = false) : f < w.funcs.size := by
  by_contra hf
  have : w.func f = default := by simp [func, Array.getD, hf]
  rw [this] at hne
  cases hne

theorem func_of_modify {w' : Workspace} {g : Func} (hf : f < w.funcs.size)
    (h : w'.funcs = w.funcs.modify f (fun _ => g)) : w'.func f = g := by
  rw [func, h, Array.getD_eq_getD_getElem?, Array.getElem?_modify, if_pos rfl,
    Array.getElem?_eq_getElem hf]
  rfl

/-- The function of a skipped run stays, and there is no error. -/
theorem optimize_skipped {reason : SkipReason} {w₁ : Workspace}
    (hp : prepare o (w.func f) w = .ok (.inr reason) w₁) (hw : w₁.funcs = w.funcs) :
    ∃ r w', optimize o f w = .ok (r, none) w' ∧ w'.func f = w.func f := by
  unfold optimize
  rw [Change.get_bind, Change.bind_eq hp]
  refine ⟨_, _, rfl, ?_⟩
  show w₁.func f = w.func f
  rw [func, hw, func]

theorem optimize_moved {c : Context} {w₁ : Workspace} {st : State}
    (hp : prepare o (w.func f) w = .ok (.inl c) w₁) (hw : w₁.funcs = w.funcs)
    (hf : f < w.funcs.size) (hrun : State.run { func := w.func f, context := c } = .ok ⟨⟩ st)
    (hr : o.verify = true → ∃ r, st.func.verify = .ok r) :
    ∃ res err w', optimize o f w = .ok (res, err) w' ∧ w'.func f = st.func ∧
      (err = none ↔ o.verify = false ∨ st.func.verify = .ok none) := by
  have hmove : move f c w₁ = .ok (st.done, st.context)
      { w₁.modifyFunc f (fun _ => st.func) with log := w₁.log ++ st.context.log } := by
    have hfunc : w₁.func f = w.func f := by rw [func, hw, func]
    simp only [move, hfunc, hrun]
  have hget : ∀ w₂ : Workspace, w₂.funcs = w₁.funcs.modify f (fun _ => st.func) →
      w₂.func f = st.func :=
    fun w₂ h₂ =>
    func_of_modify hf (by rw [h₂, hw])
  unfold optimize
  rw [Change.get_bind, Change.bind_eq hp]
  simp only [record]
  rw [Change.bind_eq hmove, Change.modify_bind, Change.modify_bind]
  cases ho : o.verify with
  | false => exact ⟨_, none, _, rfl, hget _ rfl, by simp⟩
  | true =>
    obtain ⟨r, hr⟩ := hr ho
    rw [Bool.not_true, if_neg Bool.false_ne_true, Change.get_bind, hget _ rfl, hr,
      Change.check_bind]
    cases r with
    | none => exact ⟨_, none, _, rfl, hget _ rfl, by simp⟩
    | some message => exact ⟨_, some _, _, rfl, hget _ rfl, by simp⟩

structure Quiet (w w₁ : Workspace) : Prop where
  funcs : w₁.funcs = w.funcs
  stats : w₁.stats = w.stats

theorem Quiet.trans {w₁ w₂ : Workspace} (h : w.Quiet w₁) (h' : w₁.Quiet w₂) : w.Quiet w₂ :=
  ⟨h'.funcs.trans h.funcs, h'.stats.trans h.stats⟩

theorem isMalformed_inv {b : Bool} {w₁ : Workspace} (h : isMalformed o fn w = .ok b w₁) :
    w.Quiet w₁ := by
  unfold isMalformed at h
  split at h
  · cases h
    exact ⟨rfl, rfl⟩
  · obtain ⟨r, w₂, hr, h⟩ := Change.bind_ok.1 h
    obtain ⟨-, rfl⟩ := Change.check_apply.1 hr
    cases r <;> cases h <;> exact ⟨rfl, rfl⟩

theorem onContext_inv {α : Type} {c c' : Context} {x : Change Context α} {a : α} {w₁ : Workspace}
    (h : onContext c x w = .ok (a, c') w₁) :
    ∃ d, x c = .ok a d ∧ c' = { d with log := [], trace := "" } ∧ w.Quiet w₁ := by
  unfold onContext at h
  dsimp only at h
  split at h
  · next hx =>
    cases h
    exact ⟨_, hx, rfl, rfl, rfl⟩
  · cases h

/-- The preparation gives a reason to skip the function, or its analysis has an answer. -/
theorem prepare_inv {r : Context ⊕ SkipReason} {w₁ : Workspace} (h : prepare o fn w = .ok r w₁) :
    w.Quiet w₁ ∧
    ((∃ reason, r = .inr reason ∧ reason ≠ .notSkipped) ∨
      ∃ c₀ c, Context.ofFunc fn o = .ok c₀ ∧ Context.analyze fn c₀ = .ok true c ∧
        r = .inl { c with log := [], trace := "" }) := by
  unfold prepare at h
  split at h
  · cases h
    exact ⟨⟨rfl, rfl⟩, Or.inl ⟨_, rfl, by decide⟩⟩
  cases hhead : fn.layout.head? with
  | none =>
    rw [hhead] at h
    cases h
    exact ⟨⟨rfl, rfl⟩, Or.inl ⟨_, rfl, by decide⟩⟩
  | some e =>
    rw [hhead] at h
    obtain ⟨_, w₂, hcheck, h⟩ := Change.bind_ok.1 h
    obtain ⟨-, rfl⟩ := Change.check_apply.1 hcheck
    split at h
    · cases h
      exact ⟨⟨rfl, rfl⟩, Or.inl ⟨_, rfl, by decide⟩⟩
    obtain ⟨b, w₃, hb, h⟩ := Change.bind_ok.1 h
    have hquiet := isMalformed_inv hb
    split at h
    · cases h
      exact ⟨hquiet, Or.inl ⟨_, rfl, by decide⟩⟩
    obtain ⟨c₀, w₄, hmade, h⟩ := Change.bind_ok.1 h
    obtain ⟨h₀, rfl⟩ := Change.check_apply.1 hmade
    obtain ⟨⟨small, c'⟩, w₅, hrun, h⟩ := Change.bind_ok.1 h
    obtain ⟨c, hc, rfl, hkept⟩ := onContext_inv hrun
    cases small with
    | false =>
      cases h
      exact ⟨hquiet.trans hkept, Or.inl ⟨_, rfl, by decide⟩⟩
    | true =>
      cases h
      exact ⟨hquiet.trans hkept, Or.inr ⟨c₀, c, h₀, hc, rfl⟩⟩

/-- A run that ends has skipped the function, or it has carried out its motion, and it has been
counted as that. -/
theorem optimize_cases {res : Result} {err : Option VerifyError} {w' : Workspace}
    (h : optimize o f w = .ok (res, err) w') :
    ∃ r w₁, prepare o (w.func f) w = .ok r w₁ ∧
      ((∃ reason, r = .inr reason ∧ w'.funcs = w.funcs ∧ w'.stats = w.stats.addSkip ∧
        res = { skipped := reason, skippedFuncs := 1 }) ∨
      ∃ c st, r = .inl c ∧ State.run { func := w.func f, context := c } = .ok ⟨⟩ st ∧
        w'.funcs = w.funcs.modify f (fun _ => st.func) ∧
          w'.stats = w.stats.addMotion c.catalog.size st.done ∧
        res =
          { changed := st.done.changed, preserved := preservedBy st.done, functions := 1,
            expressions := c.catalog.size, motion := st.done, rounds := c.rounds }) := by
  unfold optimize at h
  rw [Change.get_bind] at h
  obtain ⟨r, w₁, hp, h⟩ := Change.bind_ok.1 h
  refine ⟨r, w₁, hp, ?_⟩
  obtain ⟨hfuncs, hstats⟩ := (prepare_inv hp).1
  cases r with
  | inr reason =>
    cases h
    exact Or.inl ⟨reason, rfl, hfuncs, by rw [← hstats], rfl⟩
  | inl c =>
    obtain ⟨⟨m, c'⟩, w₂, hmove, h⟩ := Change.bind_ok.1 h
    unfold move at hmove
    have hfunc : w₁.func f = w.func f := by rw [func, hfuncs, func]
    rw [hfunc] at hmove
    dsimp only at hmove
    split at hmove
    · next st hrun =>
      cases hmove
      refine Or.inr ⟨c, st, rfl, hrun, ?_⟩
      rw [← hfuncs, ← hstats]
      simp only [record] at h
      rw [Change.modify_bind, Change.modify_bind] at h
      split at h
      · cases h
        exact ⟨rfl, rfl, rfl⟩
      · obtain ⟨r, w₃, hr, h⟩ := Change.bind_ok.1 h
        obtain ⟨r', w₄, hr', h⟩ := Change.bind_ok.1 h
        cases hr
        obtain ⟨-, rfl⟩ := Change.check_apply.1 hr'
        cases r' <;> cases h <;> exact ⟨rfl, rfl, rfl⟩
    · cases hmove

theorem optimize_inv {res : Result} {err : Option VerifyError} {w' : Workspace}
    (h : optimize o f w = .ok (res, err) w') :
    ∃ r w₁, prepare o (w.func f) w = .ok r w₁ ∧
      ((∃ reason, r = .inr reason ∧ res = { skipped := reason, skippedFuncs := 1 }) ∨
      ∃ c st, r = .inl c ∧ State.run { func := w.func f, context := c } = .ok ⟨⟩ st ∧
        w'.funcs = w.funcs.modify f (fun _ => st.func) ∧
        res =
          { changed := st.done.changed, preserved := preservedBy st.done, functions := 1,
            expressions := c.catalog.size, motion := st.done, rounds := c.rounds }) := by
  obtain ⟨r, w₁, hp, ⟨reason, hr, -, -, hres⟩ | ⟨c, st, hr, hrun, hfuncs, -, hres⟩⟩ :=
    optimize_cases h
  · exact ⟨r, w₁, hp, Or.inl ⟨reason, hr, hres⟩⟩
  · exact ⟨r, w₁, hp, Or.inr ⟨c, st, hr, hrun, hfuncs, hres⟩⟩

/-- A run over a sound function ends. It leaves the function as it is, which is the case if there is
nothing to work on or too much, or else moves its code. -/
theorem optimize_ok (hv : (w.func f).verify = .ok none) (ht : (w.func f).Tidy)
    (htr : o.trace = .off) (hs : o.singleInsertion = true) :
    ∃ res err w', optimize o f w = .ok (res, err) w' ∧
      (w'.func f = w.func f ∧ err = none ∧ ((w.func f).isEmpty = true ∨
        ∀ c s, ¬ Context.Answers (w.func f) o c s) ∨
      (w.func f).isEmpty = false ∧ ∃ c s, Context.Answers (w.func f) o c s ∧
        Plan.Moved ⟨w.func f, { c with log := [], trace := "" }, s⟩ (w'.func f) ∧
        (err = none ↔ o.verify = false ∨ (w'.func f).verify = .ok none)) := by
  cases hne : (w.func f).isEmpty with
  | true =>
    obtain ⟨reason, hp⟩ := prepare_skipped (o := o) hne w
    obtain ⟨r, w', hrun, hfunc⟩ := optimize_skipped hp rfl
    exact ⟨r, none, w', hrun, Or.inl ⟨hfunc, rfl, Or.inl rfl⟩⟩
  | false =>
    obtain ⟨c₀, b, c, h0, hc, hp⟩ := prepare_ok hv hne ht htr w
    cases b with
    | false =>
      obtain ⟨r, w', hrun, hfunc⟩ := optimize_skipped hp rfl
      refine ⟨r, none, w', hrun, Or.inl ⟨hfunc, rfl, Or.inr ?_⟩⟩
      rintro c' s ⟨c₀', h0', hc', -⟩
      rw [h0, Except.ok.injEq] at h0'
      rw [← h0', hc] at hc'
      cases hc'
    | true =>
      obtain ⟨s, hsets, -⟩ := Context.analyze_spec (Context.ofFunc_fresh h0).1 hc
      have ha : Context.Answers (w.func f) o c s := ⟨c₀, h0, hc, hsets⟩
      have hvalid := (ha.valid (ht.sound hv hne) hs).clean
      obtain ⟨st, hrun, hm, -⟩ := hvalid.run_ok
      obtain ⟨res, err, w', hopt, hfunc, herr⟩ :=
        optimize_moved hp rfl (lt_size_of_isEmpty hne) hrun fun _ =>
        (hm.structured hvalid hvalid.sound.toStructured).verify_ok
      exact ⟨res, err, w', hopt, Or.inr ⟨rfl, c, s, ha, by rw [hfunc]; exact hm,
        by rw [herr, hfunc]⟩⟩

/-- With single insertion a sound function is malformed after a run exactly if a copy of a store
stands where its address has not been computed on every path. -/
theorem optimize_verify (hv : (w.func f).verify = .ok none) (ht : (w.func f).Tidy)
    (htr : o.trace = .off) (hs : o.singleInsertion = true) :
    ∃ res err w', optimize o f w = .ok (res, err) w' ∧
      ((w'.func f).verify = .ok none ↔
        ((w.func f).isEmpty = false → ∀ c s, Context.Answers (w.func f) o c s →
          (Plan.mk (w.func f) c s).Addressed)) ∧
      (err = none ↔ o.verify = false ∨ (w'.func f).verify = .ok none) := by
  obtain ⟨res, err, w', hrun, hcases⟩ := optimize_ok hv ht htr hs
  refine ⟨res, err, w', hrun, ?_⟩
  rcases hcases with ⟨hfunc, herr, hno⟩ | ⟨hne, c, s, ha, hm, herr⟩
  · rw [hfunc, hv]
    refine ⟨iff_of_true rfl fun hne c s ha => ?_, iff_of_true herr (Or.inr rfl)⟩
    rcases hno with he | hno
    · rw [he] at hne
      cases hne
    · exact absurd ha (hno c s)
  · refine ⟨?_, herr⟩
    have hvalid := ha.valid (ht.sound hv hne) hs
    rw [Func.verify_eq_none, Func.defect?_eq_none (by rw [hm.isEmpty, hne]),
      hm.verified_iff hvalid.clean, Plan.addressed_clean]
    constructor
    · intro hall _ c' s' ha'
      obtain ⟨rfl, rfl⟩ := ha.unique ha'
      exact hall
    · exact fun hall => hall hne c s ha

theorem optimize_verify_spin :
    ∃ res err w', optimize { verify := true } 0 { funcs := #[Context.spin] } = .ok (res, err) w' ∧
    ((w'.func 0).verify = .ok none ↔ (Context.spin.isEmpty = false →
      ∀ c s, Context.Answers Context.spin { verify := true } c s →
      (Plan.mk Context.spin c s).Addressed)) ∧
    (err = none ↔ ({ verify := true } : Options).verify = false ∨ (w'.func 0).verify = .ok none) :=
  optimize_verify (w := { funcs := #[Context.spin] }) (f := 0) (o := { verify := true })
    (by decide +kernel) (by decide +kernel) rfl rfl

/-- A loop that stores to a slot which it makes anew in every round. -/
def slot : Func where
  name := "f"
  params := ["c"]
  layout := [1, 2, 3]
  blocks := ⟨#[{ name := "entry", term := some 1 },
    { name := "loop", body := [2, 3], term := some 4, preds := [1, 2] },
    { name := "exit", term := some 5, preds := [2] }]⟩
  instrs := ⟨#[
    { op := .jump, targets := [2], block := some 1 },
    { op := .alloca, block := some 2 },
    { op := .store, args := [.const 1, .instr 2], block := some 2 },
    { op := .branch, args := [.param 0 "c"], targets := [2, 3], block := some 2 },
    { op := .ret, block := some 3 }]⟩

/-- The store is moved out of the loop, to where there is no slot yet. -/
theorem optimize_malformed_slot : (slot.verify = .ok none ∧ slot.Tidy) ∧
    ∃ res w', optimize { verify := true } 0 { funcs := #[slot] } = .ok (res, some
      { func := "f"
        cause := "after code motion: func f: entry: definition of %2 in loop does not dominate its use"
      }) w' ∧
      (w'.func 0).verify =
        .ok (some "func f: entry: definition of %2 in loop does not dominate its use") := by
  refine ⟨by decide +kernel, ?_⟩
  have hrun : (match optimize { verify := true } 0 { funcs := #[slot] } with
      | .ok r w' => decide (r.2 = some
        { func := "f"
          cause := "after code motion: func f: entry: definition of %2 in loop does not dominate its use"
        } ∧
          (w'.func 0).verify =
            .ok (some "func f: entry: definition of %2 in loop does not dominate its use"))
      | .error _ _ => false) = true := by decide +kernel
  split at hrun
  · next r w' hr =>
    rw [decide_eq_true_eq] at hrun
    exact ⟨r.1, w', by rw [hr, ← hrun.1], hrun.2⟩
  · cases hrun

end Workspace
end CodeMotion
