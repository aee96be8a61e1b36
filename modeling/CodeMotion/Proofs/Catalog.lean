import Mathlib
import CodeMotion.Expr.Catalog
import CodeMotion.Proofs.Change

/-! A catalog numbers expressions: no expression has two numbers, and the number of an expression
never changes when others are added. Two instructions share a number exactly if they compute the
same expression, which for anything but a store means that they are the same. Its buckets are as
good as a search through all entries. -/

namespace CodeMotion

namespace Reader

variable {ν ι : Type} {r : Reader ν ι} {i : ι} {x : Expression ν}

theorem expression_op (h : r.expression i = .ok x) : x.op = r.op i := by
  unfold expression at h
  split at h
  · next h1 _ => cases h; exact h1.symm
  · cases h
  · cases h; rfl

theorem expression_store (h : r.expression i = .ok x) (hs : r.op i = .store) :
    ∃ v a rest, r.args i = v :: a :: rest ∧ x = ⟨.store, a, [v]⟩ := by
  unfold expression at h
  rw [hs] at h
  match harg : r.args i with
  | [] => simp [harg] at h
  | [v] => simp [harg] at h
  | v :: a :: rest =>
    simp only [harg, Except.ok.injEq] at h
    exact ⟨v, a, rest, rfl, h.symm⟩

theorem expression_of_ne_store (hs : r.op i ≠ .store) :
    r.expression i = .ok ⟨r.op i, r.result i, r.args i⟩ := by
  unfold expression
  split
  · next h1 _ => exact absurd h1 hs
  · exact absurd ‹r.op i = .store› hs
  · rfl

/-- An entry that was made from an instruction has the expression of that instruction. -/
theorem expression_entry (h : r.expression i = .ok x) :
    (Catalog.Entry.mk x.op x.dest i).expression r = x := by
  by_cases hs : r.op i = .store
  · obtain ⟨v, a, rest, harg, rfl⟩ := expression_store h hs
    simp [Catalog.Entry.expression, harg]
  · rw [expression_of_ne_store hs, Except.ok.injEq] at h
    subst h
    simp [Catalog.Entry.expression, hs]

end Reader

namespace Catalog

variable {ν ι : Type} [DecidableEq ν] {c c' : Catalog ν ι} {r : Reader ν ι} {i : ι} {e : Nat}
  {x : Expression ν}

theorem Buckets.under_cons (b : Expression.Head ν × List Nat) (bs : Buckets ν)
    (h : Expression.Head ν) : under (b :: bs) h = if h = b.1 then b.2 else bs.under h := by
  obtain ⟨k, l⟩ := b
  rw [under, List.lookup_cons]
  by_cases hb : h = k
  · simp [hb]
  · simp [hb, beq_false_of_ne hb, under]

theorem Buckets.under_file (bs : Buckets ν) (h k : Expression.Head ν) (n : Nat) :
    (bs.file h n).under k = if k = h then bs.under k ++ [n] else bs.under k := by
  induction bs with
  | nil =>
    rw [file, under_cons]
    rfl
  | cons b bs ih =>
    unfold file
    split
    · next hb => simp only [under_cons, hb]; split <;> rfl
    · next hb =>
      rw [under_cons, under_cons, ih]
      by_cases hk : k = b.1
      · simp [hk, hb]
      · simp [hk]

/-- Every bucket lists the entries with its head, in the order of their numbers. -/
def Indexed (c : Catalog ν ι) (r : Reader ν ι) : Prop :=
  ∀ h, c.buckets.under h = (List.range c.size).filter fun n => c.entries[n]?.any fun m =>
    (m.expression r).head = h

theorem isAt_iff : c.isAt r x e = true ↔ ∃ n, c.entries[e]? = some n ∧ n.expression r = x := by
  simp [isAt, Option.any_eq_true]

theorem find?_some (h : c.find? r x = some e) : ∃ n, c.entries[e]? = some n ∧ n.expression r = x :=
  isAt_iff.1 (List.find?_some h)

theorem indexed_empty (r : Reader ν ι) : ({} : Catalog ν ι).Indexed r := fun h => by
  simp [Buckets.under, size]

/-- Looking into one bucket finds what a search through all entries finds. -/
theorem Indexed.find?_eq (h : c.Indexed r) (x : Expression ν) :
    c.find? r x = c.entries.findIdx? fun n => n.expression r = x := by
  have hall : c.find? r x = (List.range c.size).find? (c.isAt r x) := by
    rw [find?, h x.head, List.find?_filter]
    congr 1
    funext n
    by_cases hn : c.isAt r x n = true
    · obtain ⟨m, hm, rfl⟩ := isAt_iff.1 hn
      simp [hn, hm]
    · simp [hn]
  rw [hall]
  cases hf : c.entries.findIdx? fun n => n.expression r = x with
  | none =>
    refine List.find?_eq_none.2 fun n _ hn => ?_
    obtain ⟨m, hm, hx⟩ := isAt_iff.1 hn
    simpa [hx] using List.findIdx?_eq_none_iff.1 hf m (List.mem_of_getElem? hm)
  | some e =>
    obtain ⟨hlt, hx, hfirst⟩ := List.findIdx?_eq_some_iff_getElem.1 hf
    refine List.find?_range_eq_some.2 ⟨isAt_iff.2 ⟨_, List.getElem?_eq_getElem hlt,
      by simpa using hx⟩, List.mem_range.2 hlt, fun j hj => ?_⟩
    have hj' : j < c.entries.length := hj.trans hlt
    simpa [isAt, List.getElem?_eq_getElem hj'] using hfirst j hj

theorem Indexed.find?_eq_none (h : c.Indexed r) :
    c.find? r x = none ↔ ∀ m ∈ c.entries, m.expression r ≠ x := by
  rw [h.find?_eq, List.findIdx?_eq_none_iff]
  simp

/-- What is added is filed where it is looked for. -/
theorem Indexed.extend (h : c.Indexed r) (hx : r.expression i = .ok x) :
    (c.extend i x).Indexed r := by
  intro k
  have hold : (List.range c.size).filter (fun n => (c.extend i x).entries[n]?.any fun m =>
    (m.expression r).head = k) =
      c.buckets.under k := by
    rw [h k]
    refine List.filter_congr fun n hn => ?_
    rw [Catalog.extend, List.getElem?_append_left (List.mem_range.1 hn)]
  have hsize : (c.extend i x).size = c.size + 1 := by simp [size, Catalog.extend]
  have hlast : (c.extend i x).entries[c.size]? = some ⟨x.op, x.dest, i⟩ := by
    simp [size, Catalog.extend]
  have hbucket : (c.extend i x).buckets = c.buckets.file x.head c.size := rfl
  rw [hbucket, Buckets.under_file, hsize, List.range_succ, List.filter_append, hold]
  by_cases hk : k = x.head
  · simp [hk, hlast, Reader.expression_entry hx]
  · simp [hk, hlast, Reader.expression_entry hx, show ¬ x.head = k from fun he => hk he.symm]

/-- All that adding an instruction can do. -/
theorem add_ok : c.add r i = .ok (e, c') ↔ ∃ x, r.expression i = .ok x ∧
    (c.find? r x = some e ∧ c' = c ∨ c.find? r x = none ∧ e = c.size ∧ c' = c.extend i x) := by
  unfold add
  cases hx : r.expression i with
  | error err => simp [bind, Except.bind]
  | ok x =>
    cases hf : c.find? r x with
    | some n => simp [bind, Except.bind, pure, Except.pure, hf, eq_comm]
    | none => simp [bind, Except.bind, pure, Except.pure, hf, eq_comm]

theorem Indexed.add (h : c.Indexed r) (hadd : c.add r i = .ok (e, c')) : c'.Indexed r := by
  obtain ⟨x, hx, ⟨-, rfl⟩ | ⟨-, -, rfl⟩⟩ := add_ok.1 hadd
  · exact h
  · exact h.extend hx

theorem index_ok : c.index r i = .ok e ↔ ∃ x, r.expression i = .ok x ∧ c.find? r x = some e := by
  unfold index lookup?
  cases hx : r.expression i with
  | error err => simp [bind, Except.bind]
  | ok x =>
    cases hf : c.find? r x with
    | some n => simp [bind, Except.bind, pure, Except.pure, hf]
    | none =>
      cases ht : r.text i <;> simp [bind, Except.bind, pure, Except.pure, hf, throw, throwThe,
        MonadExceptOf.throw]

end Catalog

/-- The operands of an instruction as an expression, where the address of a store does not count. -/
def Func.operands (fn : Func) (i : InstrId) : List Value :=
  if (fn.instr i).op = .store then (fn.instr i).args.take 1 else (fn.instr i).args

theorem Func.mem_args_of_operands {fn : Func} {i : InstrId} {v : Value} (h : v ∈ fn.operands i) :
    v ∈ (fn.instr i).args := by
  unfold Func.operands at h
  split at h
  · exact List.mem_of_mem_take h
  · exact h

theorem Func.operands_of_expression {fn : Func} {i : InstrId} {x : Expression Value}
    (h : fn.reader.expression i = .ok x) : x.operands = fn.operands i := by
  unfold Func.operands
  by_cases hs : (fn.instr i).op = .store
  · obtain ⟨v, a, rest, harg, rfl⟩ := Reader.expression_store h hs
    have : (fn.instr i).args = v :: a :: rest := harg
    simp [hs, this]
  · rw [Reader.expression_of_ne_store hs, Except.ok.injEq] at h
    subst h
    simp [hs, Func.reader]

def Func.Candidate (fn : Func) (i : InstrId) : Prop :=
  (fn.instr i).op.isMovable = true ∧ ∃ b ∈ fn.layout, i ∈ (fn.block b).body

/-- The number of the expression that an instruction computes, if it can be moved and is
cataloged. -/
def Func.exprAt (fn : Func) (cat : Catalog Value InstrId) (i : InstrId) : Option Nat :=
  if (fn.instr i).op.isMovable then (cat.index fn.reader i).toOption else none

namespace Catalog

variable {fn : Func} {cat cat' : Catalog Value InstrId} {i j : InstrId} {e f : Nat}

structure Lawful (fn : Func) (cat : Catalog Value InstrId) : Prop where
  indexed : cat.Indexed fn.reader
  distinct : ∀ (a b : Nat) (m n : Entry Value InstrId), cat.entries[a]? = some m →
    cat.entries[b]? = some n →
    m.expression fn.reader = n.expression fn.reader → a = b
  entry : ∀ (e : Nat) (n : Entry Value InstrId), cat.entries[e]? = some n →
    fn.reader.expression n.instr = .ok (n.expression fn.reader) ∧
    fn.Candidate n.instr

theorem exprAt_iff : fn.exprAt cat i = some e ↔
    (fn.instr i).op.isMovable = true ∧ ∃ x, fn.reader.expression i = .ok x ∧
      cat.find? fn.reader x = some e := by
  unfold Func.exprAt
  by_cases hm : (fn.instr i).op.isMovable = true
  · rw [if_pos hm, ← index_ok]
    cases cat.index fn.reader i <;> simp [Except.toOption, hm]
  · simp [hm]

theorem exprAt_eq_of_index (hm : (fn.instr i).op.isMovable = true)
    (h : cat.index fn.reader i = .ok e) :
    fn.exprAt cat i = some e := exprAt_iff.2 ⟨hm, index_ok.1 h⟩

/-- The entry of an instruction computes the same expression. -/
theorem exprAt_entry (h : fn.exprAt cat i = some e) :
    ∃ n, cat.entries[e]? = some n ∧ fn.reader.expression i = .ok (n.expression fn.reader) := by
  obtain ⟨-, x, hx, hf⟩ := exprAt_iff.1 h
  obtain ⟨n, hn, rfl⟩ := find?_some hf
  exact ⟨n, hn, hx⟩

theorem exprAt_lt (h : fn.exprAt cat i = some e) : e < cat.size := by
  obtain ⟨n, hn, -⟩ := exprAt_entry h
  exact (List.getElem?_eq_some_iff.1 hn).1

namespace Lawful

theorem find?_expression (h : cat.Lawful fn) {n : Entry Value InstrId}
    (hn : cat.entries[e]? = some n) : cat.find? fn.reader (n.expression fn.reader) = some e := by
  cases hf : cat.find? fn.reader (n.expression fn.reader) with
  | none => exact absurd rfl (h.indexed.find?_eq_none.1 hf n (List.mem_of_getElem? hn))
  | some a =>
    obtain ⟨m, hm, hx⟩ := find?_some hf
    rw [h.distinct a e m n hm hn hx]

/-- An instruction has the number of an entry exactly if both compute the same. -/
theorem exprAt_iff_entry (h : cat.Lawful fn) {n : Entry Value InstrId}
    (hn : cat.entries[e]? = some n) :
    fn.exprAt cat i = some e ↔
      (fn.instr i).op.isMovable = true ∧ fn.reader.expression i = .ok (n.expression fn.reader) := by
  rw [exprAt_iff]
  refine and_congr Iff.rfl ⟨?_, fun hx => ⟨_, hx, h.find?_expression hn⟩⟩
  rintro ⟨x, hx, hf⟩
  obtain ⟨m, hm, rfl⟩ := find?_some hf
  rw [hm, Option.some.injEq] at hn
  rw [hx, hn]

theorem exprAt_instr (h : cat.Lawful fn) {n : Entry Value InstrId} (hn : cat.entries[e]? = some n) :
    fn.exprAt cat n.instr = some e :=
  (h.exprAt_iff_entry hn).2 ⟨(h.entry e n hn).2.1, (h.entry e n hn).1⟩

theorem entry_op (h : cat.Lawful fn) {n : Entry Value InstrId} (hn : cat.entries[e]? = some n) :
    (fn.instr n.instr).op = n.op := (Reader.expression_op (h.entry e n hn).1).symm

/-- A value is computed by one instruction only. -/
theorem instr_unique (h : cat.Lawful fn) {n : Entry Value InstrId} (hn : cat.entries[e]? = some n)
    (hs : n.op ≠ .store) (hi : fn.exprAt cat i = some e) : i = n.instr := by
  have hx := ((h.exprAt_iff_entry hn).1 hi).2
  have hop : fn.reader.op i ≠ .store := by
    rw [← Reader.expression_op hx]
    exact hs
  have hop' : fn.reader.op n.instr ≠ .store := by
    rw [← Reader.expression_op (h.entry e n hn).1]
    exact hs
  have h1 := (h.entry e n hn).1
  rw [Reader.expression_of_ne_store hop, Except.ok.injEq] at hx
  rw [Reader.expression_of_ne_store hop', Except.ok.injEq, ← hx] at h1
  simpa [Func.reader] using (congrArg Expression.dest h1).symm

end Lawful

theorem lawful_empty (fn : Func) : ({} : Catalog Value InstrId).Lawful fn :=
  ⟨indexed_empty _, fun a b m n h => by simp at h, fun e n h => by simp at h⟩

/-- Numbers stay when a catalog grows. -/
theorem exprAt_prefix (h : cat.entries <+: cat'.entries) (hl : cat'.Lawful fn)
    (hi : fn.exprAt cat i = some e) : fn.exprAt cat' i = some e := by
  obtain ⟨n, hn, hx⟩ := exprAt_entry hi
  have hn' : cat'.entries[e]? = some n := getElem?_extend h hn
  exact (hl.exprAt_iff_entry hn').2 ⟨(exprAt_iff.1 hi).1, hx⟩

/-- Adding a movable instruction gives it a number and keeps the laws. -/
theorem add_spec (h : cat.Lawful fn) (hi : fn.Candidate i) {x : Expression Value}
    (hx : fn.reader.expression i = .ok x) :
    ∃ e cat', cat.add fn.reader i = .ok (e, cat') ∧ cat'.Lawful fn ∧ cat.entries <+: cat'.entries ∧
      fn.exprAt cat' i = some e := by
  cases hf : cat.find? fn.reader x with
  | some n =>
    refine ⟨n, cat, add_ok.2 ⟨x, hx, Or.inl ⟨hf, rfl⟩⟩, h, List.prefix_refl _, ?_⟩
    exact exprAt_iff.2 ⟨hi.1, x, hx, hf⟩
  | none =>
    have hnew := h.indexed.find?_eq_none.1 hf
    have hself := Reader.expression_entry hx
    have hindexed := h.indexed.extend hx
    refine ⟨cat.size, cat.extend i x, add_ok.2 ⟨x, hx, Or.inr ⟨hf, rfl, rfl⟩⟩, ⟨hindexed, ?_, ?_⟩,
      List.prefix_append _ _, ?_⟩
    · -- the new entry differs from all others, which differ among themselves
      intro a b m n ha hb he
      simp only [extend, List.getElem?_append, List.getElem?_singleton] at ha hb
      split at ha <;> split at hb
      · exact h.distinct a b m n ha hb he
      · split at hb
        · cases hb
          exact absurd (he.trans hself) (hnew m (List.mem_of_getElem? ha))
        · cases hb
      · split at ha
        · cases ha
          exact absurd (he.symm.trans hself) (hnew n (List.mem_of_getElem? hb))
        · cases ha
      · split at ha
        · split at hb
          · omega
          · cases hb
        · cases ha
    · intro a n ha
      simp only [extend, List.getElem?_append, List.getElem?_singleton] at ha
      split at ha
      · exact h.entry a n ha
      · split at ha
        · cases ha
          exact ⟨by rw [hself]; exact hx, hi⟩
        · cases ha
    · refine exprAt_iff.2 ⟨hi.1, x, hx, ?_⟩
      rw [h.indexed.find?_eq] at hf
      rw [hindexed.find?_eq, extend, List.findIdx?_append, hf]
      simp [hself, size]

theorem expression_of_add {r : Reader Value InstrId} {p : Nat × Catalog Value InstrId}
    (h : cat.add r i = .ok p) : ∃ x, r.expression i = .ok x := by
  obtain ⟨x, hx, -⟩ := add_ok.1 h
  exact ⟨x, hx⟩

end Catalog
end CodeMotion
