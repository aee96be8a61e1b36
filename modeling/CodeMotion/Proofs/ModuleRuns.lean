import Mathlib
import CodeMotion.Proofs.Optimize

/-! A run over several functions does what runs over them one after the other do, up to the first
that fails. Its result adds up theirs, and the counters of the workspace have grown by it. -/

namespace CodeMotion

namespace Stats

def add (s t : Stats) : Stats where
  functions := s.functions + t.functions
  skipped := s.skipped + t.skipped
  expressions := s.expressions + t.expressions
  inserted := s.inserted + t.inserted
  deleted := s.deleted + t.deleted
  splits := s.splits + t.splits

def since (s t : Stats) : Stats where
  functions := s.functions - t.functions
  skipped := s.skipped - t.skipped
  expressions := s.expressions - t.expressions
  inserted := s.inserted - t.inserted
  deleted := s.deleted - t.deleted
  splits := s.splits - t.splits

end Stats

namespace Result

def counts (r : Result) : Stats where
  functions := r.functions.toUInt64
  skipped := r.skippedFuncs.toUInt64
  expressions := r.expressions.toUInt64
  inserted := r.motion.inserted.toUInt64
  deleted := r.motion.deleted.toUInt64
  splits := r.motion.splits.toUInt64

/-- The result of several runs: numbers add up, a change of one function is a change, and only what
all of them preserve is preserved. -/
structure Totals (r : Result) (rs : List Result) : Prop where
  changed : r.changed = rs.any (·.changed)
  preserved_le : ∀ v ∈ rs, r.preserved.rank ≤ v.preserved.rank
  preserved_mem : r.preserved = .all ∨ ∃ v ∈ rs, v.preserved = r.preserved
  skipped : r.skipped = .notSkipped
  functions : r.functions = (rs.map (·.functions)).sum
  skippedFuncs : r.skippedFuncs = (rs.map (·.skippedFuncs)).sum
  expressions : r.expressions = (rs.map (·.expressions)).sum
  inserted : r.motion.inserted = (rs.map (·.motion.inserted)).sum
  deleted : r.motion.deleted = (rs.map (·.motion.deleted)).sum
  splits : r.motion.splits = (rs.map (·.motion.splits)).sum
  avail : r.rounds.avail = (rs.map (·.rounds.avail)).sum
  ant : r.rounds.ant = (rs.map (·.rounds.ant)).sum
  later : r.rounds.later = (rs.map (·.rounds.later)).sum

variable {r v : Result} {rs vs : List Result}

theorem totals_nil : Totals {} [] := by
  refine ⟨rfl, by simp, Or.inl rfl, rfl, rfl, rfl, rfl, rfl, rfl, rfl, rfl, rfl, rfl⟩

theorem Totals.merge (h : r.Totals rs) (v : Result) : (r.merge v).Totals (rs ++ [v]) := by
  have hmeet : (r.merge v).preserved = r.preserved.meet v.preserved := rfl
  refine ⟨by simp [Result.merge, h.changed], fun u hu => ?_, ?_, h.skipped, ?_, ?_, ?_, ?_, ?_,
    ?_, ?_, ?_, ?_⟩
  · rw [hmeet, Preserved.meet]
    rcases List.mem_append.1 hu with hu | hu
    · have := h.preserved_le u hu
      split <;> omega
    · rw [List.mem_singleton.1 hu]
      split <;> omega
  · rw [hmeet, Preserved.meet]
    split
    · exact Or.inr ⟨v, by simp, rfl⟩
    · refine h.preserved_mem.imp id fun ⟨u, hu, he⟩ => ⟨u, ?_, he⟩
      exact List.mem_append_left _ hu
  · simp [Result.merge, h.functions]
  · simp [Result.merge, h.skippedFuncs]
  · simp [Result.merge, h.expressions]
  · simp [Result.merge, h.inserted]
  · simp [Result.merge, h.deleted]
  · simp [Result.merge, h.splits]
  · simp [Result.merge, h.avail]
  · simp [Result.merge, h.ant]
  · simp [Result.merge, h.later]

theorem Totals.foldl (h : r.Totals rs) (vs : List Result) :
    (vs.foldl Result.merge r).Totals (rs ++ vs) := by
  induction vs generalizing r rs with
  | nil => simpa using h
  | cons v vs ih =>
    have := ih (h.merge v)
    rwa [List.append_assoc] at this

end Result

namespace Stats

theorem add_assoc (s t u : Stats) : (s.add t).add u = s.add (t.add u) := by
  simp only [add, UInt64.add_assoc]

theorem since_add (s t : Stats) : (s.add t).since s = t := by
  have hcancel : ∀ a b : UInt64, a + b - a = b := fun a b => by
    rw [UInt64.add_comm a b, UInt64.add_sub_cancel]
  simp only [since, add, hcancel]

theorem add_counts_empty (s : Stats) : s.add (Result.counts {}) = s := by
  simp [add, Result.counts]

theorem counts_merge (r v : Result) : (r.merge v).counts = r.counts.add v.counts := by
  simp only [Result.counts, add, Result.merge, Nat.toUInt64_eq, UInt64.ofNat_add]

/-- Results that are booked one after the other are booked in total. -/
theorem foldl_add_counts (s : Stats) (r : Result) (rs : List Result) :
    rs.foldl (fun s v => s.add v.counts) (s.add r.counts) =
      s.add (rs.foldl Result.merge r).counts := by
  induction rs generalizing r with
  | nil => rfl
  | cons v rs ih => rw [List.foldl_cons, List.foldl_cons, add_assoc, ← counts_merge, ih]

end Stats

namespace Workspace

variable {o : Options} {f g : Nat} {fs : List Nat} {w w' w'' : Workspace} {r : Result}
  {rs : List Result} {e : Option VerifyError}

/-- What a run over one function may change: that function, and the counters as its result says. -/
structure Booked (w : Workspace) (f : Nat) (r : Result) (w' : Workspace) : Prop where
  others : ∀ g ≠ f, w'.func g = w.func g
  stats : w'.stats = w.stats.add r.counts

theorem optimize_booked (h : optimize o f w = .ok (r, e) w') : w.Booked f r w' := by
  obtain ⟨-, -, -, ⟨reason, -, hfuncs, hstats, rfl⟩ | ⟨c, st, -, -, hfuncs, hstats, rfl⟩⟩ :=
    optimize_cases h
  · refine ⟨fun g _ => by rw [func, hfuncs, func], ?_⟩
    rw [hstats]
    simp [Stats.addSkip, Stats.add, Result.counts]
  · refine ⟨fun g hg => ?_, ?_⟩
    · rw [func, hfuncs, Array.getD_eq_getD_getElem?, Array.getElem?_modify, if_neg hg.symm,
        ← Array.getD_eq_getD_getElem?, func]
    · rw [hstats]
      simp [Stats.addMotion, Stats.add, Result.counts]

/-- Runs over functions one after the other, up to and including the first that ends with an
error. -/
inductive Runs (o : Options) :
    List Nat → Workspace → List Result → Option VerifyError → Workspace → Prop
  | done (w : Workspace) : Runs o [] w [] none w
  | stop {f : Nat} {w w' : Workspace} {r : Result} {e : VerifyError} (h :
    optimize o f w = .ok (r, some e) w') (rest : List Nat) :
    Runs o (f :: rest) w [r] (some e) w'
  | next {f : Nat} {rest : List Nat} {w w₁ w' : Workspace} {r : Result} {rs : List Result}
    {e : Option VerifyError}
    (h : optimize o f w = .ok (r, none) w₁) (hr : Runs o rest w₁ rs e w') :
      Runs o (f :: rest) w (r :: rs) e w'

def Faultless (o : Options) (fs : List Nat) (w : Workspace) : Prop :=
  ∀ ran f rest rs w', fs = ran ++ f :: rest → Runs o ran w rs none w' →
    ∃ r e w'', optimize o f w' = .ok (r, e) w''

theorem optimizeAll_iff {total : Result} :
    optimizeAll o fs total w = .ok (r, e) w' ↔ ∃ rs, Runs o fs w rs e w' ∧
      r = rs.foldl Result.merge total := by
  induction fs generalizing total w with
  | nil =>
    refine ⟨fun h => ?_, fun ⟨rs, hr, he⟩ => ?_⟩
    · cases h
      exact ⟨[], .done _, rfl⟩
    · cases hr
      rw [he]
      rfl
  | cons f rest ih =>
    refine ⟨fun h => ?_, fun ⟨rs, hr, he⟩ => ?_⟩
    · obtain ⟨⟨r₁, e₁⟩, w₁, h₁, h⟩ := Change.bind_ok.1 h
      cases e₁ with
      | some e₁ =>
        cases h
        exact ⟨[r₁], .stop h₁ rest, rfl⟩
      | none =>
        obtain ⟨rs, hr, he⟩ := ih.1 h
        exact ⟨r₁ :: rs, .next h₁ hr, he⟩
    · cases hr with
      | stop h₁ =>
        rw [optimizeAll, Change.bind_eq h₁, he]
        rfl
      | next h₁ hr =>
        rw [optimizeAll, Change.bind_eq h₁]
        exact ih.2 ⟨_, hr, he⟩

theorem Faultless.exists_runs (h : Faultless o fs w) : ∃ rs e w', Runs o fs w rs e w' := by
  induction fs generalizing w with
  | nil => exact ⟨[], none, w, .done w⟩
  | cons f rest ih =>
    obtain ⟨r, e, w₁, h₁⟩ := h [] f rest [] w rfl (.done w)
    cases e with
    | some e => exact ⟨[r], some e, w₁, .stop h₁ rest⟩
    | none =>
      have hrest : Faultless o rest w₁ := fun ran g later rs w' hsplit hr =>
        h (f :: ran) g later (r :: rs) w' (by rw [hsplit, List.cons_append]) (.next h₁ hr)
      obtain ⟨rs, e, w', hr⟩ := ih hrest
      exact ⟨r :: rs, e, w', .next h₁ hr⟩

theorem Runs.faultless (h : Runs o fs w rs e w') : Faultless o fs w := by
  induction h with
  | done w =>
    intro ran f rest rs w' hsplit
    simp at hsplit
  | @stop f w w₁ r e h₁ rest =>
    intro ran g later rs w' hsplit hr
    cases hr with
    | done =>
      obtain ⟨rfl, -⟩ := List.cons.inj hsplit
      exact ⟨r, some e, w₁, h₁⟩
    | next h₂ =>
      -- the run that failed would have to have succeeded
      obtain ⟨rfl, -⟩ := List.cons.inj hsplit
      rw [h₁] at h₂
      cases h₂
  | @next f rest w w₁ w₂ r rs e h₁ _ ih =>
    intro ran g later rs w' hsplit hr
    cases hr with
    | done =>
      obtain ⟨rfl, -⟩ := List.cons.inj hsplit
      exact ⟨r, none, w₁, h₁⟩
    | next h₂ hr =>
      obtain ⟨rfl, hrest⟩ := List.cons.inj hsplit
      rw [h₁] at h₂
      cases h₂
      exact ih _ g later _ w' hrest hr

theorem Runs.untouched (h : Runs o fs w rs e w') :
    ∀ g ∉ fs.take rs.length, w'.func g = w.func g := by
  induction h with
  | done w => exact fun _ _ => rfl
  | stop h₁ rest =>
    intro g hg
    exact (optimize_booked h₁).others g fun he => hg (by simp [he])
  | next h₁ _ ih =>
    intro g hg
    rw [List.length_cons, List.take_succ_cons, List.mem_cons, not_or] at hg
    rw [ih g hg.2]
    exact (optimize_booked h₁).others g hg.1

theorem Runs.stats (h : Runs o fs w rs e w') :
    w'.stats = rs.foldl (fun s v => s.add v.counts) w.stats := by
  induction h with
  | done w => rfl
  | stop h₁ rest => exact (optimize_booked h₁).stats
  | next h₁ _ ih => rw [ih, (optimize_booked h₁).stats, List.foldl_cons]

/-- A run over several functions ends if no function faults when it is its turn. It then does what
single runs do up to the first error, and no more: its result is their total, and the counters have
grown by it. -/
theorem optimizeModule_agrees (o : Options) (fs : List Nat) (w : Workspace) :
    (Faultless o fs w ↔ ∃ r e w', optimizeModule o fs w = .ok (r, e) w') ∧
    ∀ r e w', optimizeModule o fs w = .ok (r, e) w' → ∃ rs, Runs o fs w rs e w' ∧ r.Totals rs ∧
      (∀ g ∉ fs.take rs.length, w'.func g = w.func g) ∧ w'.stats.since w.stats = r.counts := by
  refine ⟨⟨fun h => ?_, fun ⟨r, e, w', h⟩ => ?_⟩, fun r e w' h => ?_⟩
  · obtain ⟨rs, e, w', hr⟩ := h.exists_runs
    exact ⟨_, e, w', optimizeAll_iff.2 ⟨rs, hr, rfl⟩⟩
  · obtain ⟨rs, hr, -⟩ := optimizeAll_iff.1 h
    exact hr.faultless
  · obtain ⟨rs, hr, rfl⟩ := optimizeAll_iff.1 h
    refine ⟨rs, hr, Result.totals_nil.foldl rs, hr.untouched, ?_⟩
    have hstats := Stats.foldl_add_counts w.stats {} rs
    rw [Stats.add_counts_empty] at hstats
    rw [hr.stats, hstats, Stats.since_add]

/-- A declaration, a function to optimize, one that comes out malformed, and one behind it; one
counter is about to wrap around. -/
def mixed : Workspace where
  funcs := #[{ name := "d", isExternal := true }, Context.spin, slot, Context.spin]
  stats := { functions := 18446744073709551615 }

theorem optimizeModule_agrees_mixed :
    ∃ r e w', optimizeModule { verify := true } [0, 1, 2, 3] mixed = .ok (r, some e) w' ∧
    Faultless { verify := true } [0, 1, 2, 3] mixed ∧
    (∃ rs, Runs { verify := true } [0, 1, 2, 3] mixed rs (some e) w' ∧ r.Totals rs) ∧
    r.functions = 2 ∧ r.skippedFuncs = 1 ∧ w'.stats.functions = 1 ∧ w'.func 3 = Context.spin ∧
      w'.stats.since mixed.stats = r.counts := by
  have hrun : (match optimizeModule { verify := true } [0, 1, 2, 3] mixed with
      | .ok r w' =>
        decide (r.2.isSome ∧ r.1.functions = 2 ∧ r.1.skippedFuncs = 1 ∧ w'.stats.functions = 1 ∧
          w'.func 3 = Context.spin)
      | .error _ _ => false) = true := by decide +kernel
  split at hrun
  · next q w' h =>
    obtain ⟨r, e⟩ := q
    rw [decide_eq_true_eq] at hrun
    obtain ⟨he, hfacts⟩ := hrun
    obtain ⟨e, rfl⟩ := Option.isSome_iff_exists.1 he
    obtain ⟨hfault, hall⟩ := optimizeModule_agrees { verify := true } [0, 1, 2, 3] mixed
    obtain ⟨rs, hr, ht, -, hs⟩ := hall r (some e) w' h
    exact ⟨r, e, w', h, hfault.2 ⟨r, some e, w', h⟩, ⟨rs, hr, ht⟩, hfacts.1, hfacts.2.1,
      hfacts.2.2.1, hfacts.2.2.2, hs⟩
  · cases hrun

end Workspace
end CodeMotion
