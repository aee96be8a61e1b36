import Mathlib
import CodeMotion.Proofs.Worklist

/-! A worklist loses nothing. Whatever calls are made on it, the nodes come out in the order in
which they were accepted, a node waits at most once, and its marks tell whether it waits and whether
it was taken out before. When the queue is empty, every acceptance of a node was answered by its own
removal. -/

namespace CodeMotion

/-- A value that occurs more than `k` times has a place with `k` occurrences before it. -/
theorem exists_place_of_lt_count {α : Type} [DecidableEq α] {l : List α} {a : α} {k : Nat}
    (h : k < l.count a) : ∃ u, l[u]? = some a ∧ (l.take u).count a = k := by
  induction l generalizing k with
  | nil => simp at h
  | cons b l ih =>
    by_cases hb : b = a
    · subst hb
      cases k with
      | zero => exact ⟨0, rfl, rfl⟩
      | succ k =>
        rw [List.count_cons_self] at h
        obtain ⟨u, hu, hk⟩ := ih (Nat.lt_of_succ_lt_succ h)
        exact ⟨u + 1, hu, by rw [List.take_succ_cons, List.count_cons_self, hk]⟩
    · rw [List.count_cons_of_ne hb] at h
      obtain ⟨u, hu, hk⟩ := ih h
      exact ⟨u + 1, hu, by rw [List.take_succ_cons, List.count_cons_of_ne hb, hk]⟩

theorem count_take_succ {α : Type} [DecidableEq α] {l : List α} {a : α} {u : Nat}
    (h : l[u]? = some a) : (l.take (u + 1)).count a = (l.take u).count a + 1 := by
  rw [List.take_add_one, h]
  simp

theorem count_take_mono {α : Type} [DecidableEq α] (l : List α) (a : α) {u v : Nat} (h : u ≤ v) :
    (l.take u).count a ≤ (l.take v).count a :=
  (List.take_prefix_take_left h).sublist.count_le a

namespace Worklist

inductive Call
  | push (i : Nat)
  | update (i : Nat) (changed : Bool)
  | pop
deriving DecidableEq

def Call.Below (n : Nat) : Call → Prop
  | push i => i < n
  | update i _ => i < n
  | pop => True

instance (n : Nat) (c : Call) : Decidable (c.Below n) :=
  match c with
  | .push i => inferInstanceAs (Decidable (i < n))
  | .update i _ => inferInstanceAs (Decidable (i < n))
  | .pop => inferInstanceAs (Decidable True)

def perform (w : Worklist) : Call → Worklist
  | .push i => w.push i
  | .update i changed => w.update i changed
  | .pop => (w.pop?.map (·.2)).getD w

inductive Event
  /-- A node waits that did not wait before. -/
  | accepted (i : Nat)
  | popped (i : Nat)
  | idle
deriving DecidableEq

namespace Event

def accepted? : Event → Option Nat
  | accepted i => some i
  | _ => none

def popped? : Event → Option Nat
  | popped i => some i
  | _ => none

end Event

def entered (w w' : Worklist) (i : Nat) : Event :=
  if i ∉ w.queue ∧ i ∈ w'.queue then .accepted i else .idle

def event (w : Worklist) : Call → Event
  | .push i => w.entered (w.push i) i
  | .update i changed => w.entered (w.update i changed) i
  | .pop =>
    match w.pop? with
    | some p => .popped p.1
    | none => .idle

def run (w : Worklist) (calls : List Call) : Worklist := calls.foldl perform w

def trace (w : Worklist) : List Call → List Event
  | [] => []
  | c :: cs => w.event c :: (w.perform c).trace cs

def accepted (es : List Event) : List Nat := es.filterMap Event.accepted?

def popped (es : List Event) : List Nat := es.filterMap Event.popped?

theorem count_accepted (es : List Event) (i : Nat) :
    (accepted es).count i = es.count (.accepted i) := by
  rw [accepted, List.count_filterMap]
  refine List.countP_congr fun e _ => ?_
  cases e <;> simp [Event.accepted?]

theorem count_popped (es : List Event) (i : Nat) : (popped es).count i = es.count (.popped i) := by
  rw [popped, List.count_filterMap]
  refine List.countP_congr fun e _ => ?_
  cases e <;> simp [Event.popped?]

theorem accepted_snoc (es : List Event) (e : Event) :
    accepted (es ++ [e]) = accepted es ++ e.accepted?.toList := by
  cases e <;> simp [accepted, Event.accepted?]

theorem popped_snoc (es : List Event) (e : Event) :
    popped (es ++ [e]) = popped es ++ e.popped?.toList := by
  cases e <;> simp [popped, Event.popped?]

theorem take_trace (w : Worklist) (cs : List Call) (u : Nat) :
    (w.trace cs).take u = w.trace (cs.take u) := by
  induction cs generalizing w u with
  | nil => simp [trace]
  | cons c cs ih =>
    cases u with
    | zero => rfl
    | succ u => simp only [trace, List.take_succ_cons, ih]

section Calls

variable {n : Nat} {w w' : Worklist} {c : Call} {i : Nat}

theorem entered_of_eq : w.entered w i = .idle := by
  unfold entered
  rw [if_neg fun h => h.1 h.2]

theorem update_cases (w : Worklist) (i : Nat) (b : Bool) :
    w.update i b = w ∨ w.update i b = w.push i := by
  unfold update
  split
  · exact Or.inr rfl
  · exact Or.inl rfl

theorem push_cases (h : w.Valid n) (i : Nat) :
    (w.entered (w.push i) i = .idle ∧ w.push i = w) ∨
      (i ∉ w.queue ∧ w.entered (w.push i) i = .accepted i) := by
  by_cases hq : i ∈ w.queue
  · rw [push_of_mem h hq]
    exact Or.inl ⟨entered_of_eq, rfl⟩
  · refine Or.inr ⟨hq, ?_⟩
    unfold entered
    rw [if_pos ⟨hq, (mem_push h i).2 (Or.inl rfl)⟩]

/-- All that a call can do: nothing, put a node behind those that wait, or take out the
first one. -/
theorem perform_cases (h : w.Valid n) (hc : c.Below n) :
    (w.event c = .idle ∧ w.perform c = w) ∨
    (∃ i, i < n ∧ i ∉ w.queue ∧ w.event c = .accepted i ∧ w.perform c = w.push i) ∨
    ∃ i, w.event c = .popped i ∧ w.pop? = some (i, w.perform c) := by
  cases c with
  | push i =>
    rcases push_cases h i with hidle | ⟨hq, haccepted⟩
    · exact Or.inl hidle
    · exact Or.inr (Or.inl ⟨i, hc, hq, haccepted, rfl⟩)
  | update i b =>
    show (w.entered (w.update i b) i = .idle ∧ w.update i b = w) ∨ _
    rcases update_cases w i b with hu | hu
    · rw [hu]
      exact Or.inl ⟨entered_of_eq, rfl⟩
    · rcases push_cases h i with hidle | ⟨hq, haccepted⟩
      · exact Or.inl (hu ▸ hidle)
      · refine Or.inr (Or.inl ⟨i, hc, hq, ?_, hu⟩)
        rw [event, hu]
        exact haccepted
  | pop =>
    unfold event perform
    cases hp : w.pop? with
    | none => exact Or.inl ⟨rfl, rfl⟩
    | some p => exact Or.inr (Or.inr ⟨p.1, rfl, rfl⟩)

end Calls

/-- What the events until now tell of a worklist. -/
structure Account (n : Nat) (es : List Event) (w : Worklist) : Prop where
  valid : w.Valid n
  seen : ∀ i, w.isSeen i ↔ .popped i ∈ es
  steps : w.steps = (popped es).length
  fifo : accepted es = popped es ++ w.queue

namespace Account

variable {n : Nat} {es : List Event} {w : Worklist} {c : Call} {i t : Nat}

theorem start (n : Nat) : Account n [] (empty n) :=
  ⟨valid_empty n, fun i => by simp [isSeen_empty], rfl, rfl⟩

/-- The account is kept by every call. -/
theorem perform (h : Account n es w) (hc : c.Below n) :
    Account n (es ++ [w.event c]) (w.perform c) := by
  rcases perform_cases h.valid hc with ⟨he, hw⟩ | ⟨i, hi, hq, he, hw⟩ | ⟨i, he, hp⟩
  · rw [he, hw]
    refine ⟨h.valid, fun i => by simp [h.seen], ?_, ?_⟩
    · rw [h.steps, popped_snoc]
      simp [Event.popped?]
    · rw [accepted_snoc, popped_snoc, h.fifo]
      simp [Event.accepted?, Event.popped?]
  · rw [he, hw]
    refine ⟨h.valid.push hi, fun j => by simp [isSeen_push, h.seen], ?_, ?_⟩
    · rw [steps_push, h.steps, popped_snoc]
      simp [Event.popped?]
    · rw [accepted_snoc, popped_snoc, queue_push h.valid hq, h.fifo]
      simp [Event.accepted?, Event.popped?]
  · obtain ⟨hv, -, hpop⟩ := h.valid.pop hp
    rw [he]
    refine ⟨hv, fun j => ?_, ?_, ?_⟩
    · rw [hpop.seen, h.seen]
      simp [or_comm]
    · rw [steps_pop hp, h.steps, popped_snoc]
      simp [Event.popped?]
    · rw [accepted_snoc, popped_snoc, h.fifo, hpop.queue]
      simp [Event.accepted?, Event.popped?]

theorem run (h : Account n es w) {cs : List Call} (hcs : ∀ c ∈ cs, c.Below n) :
    Account n (es ++ w.trace cs) (w.run cs) := by
  induction cs generalizing es w with
  | nil =>
    rw [trace, List.append_nil]
    exact h
  | cons c cs ih =>
    have hstep := ih (h.perform (hcs c (by simp))) fun d hd => hcs d (by simp [hd])
    rwa [List.append_assoc] at hstep

theorem count_eq (h : Account n es w) (i : Nat) :
    es.count (.accepted i) = es.count (.popped i) + w.queue.count i := by
  rw [← count_accepted, ← count_popped, h.fifo, List.count_append]

theorem count_le (h : Account n es w) (i : Nat) :
    es.count (.accepted i) ≤ es.count (.popped i) + 1 := by
  rw [h.count_eq]
  exact Nat.add_le_add_left (List.nodup_iff_count_le_one.1 h.valid.nodup i) _

/-- The marks of the nodes, as they are kept. -/
theorem marks (h : Account n es w) (hi : i < n) :
    w.queued[i]? = some (decide (i ∈ w.queue)) ∧ w.seen[i]? = some (decide (.popped i ∈ es)) := by
  have hmark : ∀ a : Array Bool, a.size = n → a[i]? = some (a.getD i false) := by
    intro a ha
    simp [Array.getD, ha, hi]
  rw [hmark _ h.valid.queued_size, hmark _ h.valid.seen_size, Option.some.injEq, Option.some.injEq]
  exact ⟨Bool.eq_iff_iff.2 (by simp [h.valid.mem_queue]),
    Bool.eq_iff_iff.2 (by simpa [isSeen] using h.seen i)⟩

/-- A node is queued if its input changed or it was never taken out, and otherwise left alone. -/
theorem update (h : Account n es w) (i : Nat) : i ∈ (w.push i).queue ∧ i ∈ (w.update i true).queue ∧
    (.popped i ∉ es → i ∈ (w.update i false).queue) ∧ (.popped i ∈ es → w.update i false = w) := by
  refine ⟨(mem_push h.valid i).2 (Or.inl rfl), (mem_update h.valid).2 (Or.inr ⟨rfl, Or.inl rfl⟩),
    fun hi => ?_, fun hi => ?_⟩
  · exact (mem_update h.valid).2 (Or.inr ⟨rfl, Or.inr fun hs => hi ((h.seen i).1 hs)⟩)
  · have hs : w.seen.getD i false = true := (h.seen i).2 hi
    simp [Worklist.update, hs]

/-- Until the queue is empty, the `k`-th acceptance of a node is answered by its `k`-th removal,
before it is accepted again. -/
theorem paired {cs : List Call} (hcs : ∀ c ∈ cs, c.Below n) (hq : ((empty n).run cs).queue = [])
    (hes : es = (empty n).trace cs) (ht : es[t]? = some (.accepted i)) :
    ∃ u, t < u ∧ es[u]? = some (.popped i) ∧ (es.take u).count (.popped i) = (es.take t).count
      (.accepted i) ∧
      ∀ s, t < s → s < u → es[s]? ≠ some (.accepted i) := by
  have hpre : ∀ u, Account n (es.take u) ((empty n).run (cs.take u)) := by
    intro u
    rw [hes, take_trace]
    exact (start n).run fun c hc => hcs c (List.mem_of_mem_take hc)
  have hall : es.count (.accepted i) = es.count (.popped i) := by
    have hend : Account n es ((empty n).run cs) := hes ▸ (start n).run hcs
    rw [hend.count_eq, hq]
    rfl
  have htake := count_take_succ ht
  have hlt : (es.take t).count (.accepted i) < es.count (.popped i) := by
    have := (List.take_sublist (t + 1) es).count_le (.accepted i)
    omega
  obtain ⟨u, hu, hk⟩ := exists_place_of_lt_count hlt
  have hutake := count_take_succ hu
  refine ⟨u, ?_, hu, hk, fun s hts hsu hs => ?_⟩
  · -- a removal before the acceptance would be one too many
    by_contra hut
    have hne : u ≠ t := by
      rintro rfl
      rw [ht] at hu
      cases hu
    have hcount := (hpre (u + 1)).count_eq i
    have hmono := count_take_mono es (.accepted i) (show u + 1 ≤ t by omega)
    omega
  · -- and an acceptance in between would find the node waiting
    have hcount := (hpre (s + 1)).count_le i
    have hstake := count_take_succ hs
    have hmono := count_take_mono es (.accepted i) (show t + 1 ≤ s by omega)
    have hmono' := count_take_mono es (.popped i) (show s + 1 ≤ u by omega)
    omega

end Account

/-- As many removals as there are nodes empty the queue, from the front to the back. -/
theorem drain (w : Worklist) : w.trace (List.replicate w.queue.length .pop) = w.queue.map .popped ∧
    (w.run (List.replicate w.queue.length .pop)).queue = [] := by
  induction hq : w.queue generalizing w with
  | nil => exact ⟨rfl, hq⟩
  | cons i rest ih =>
    obtain ⟨w', hp, hrest⟩ : ∃ w', w.pop? = some (i, w') ∧ w'.queue = rest := by
      rw [pop?, hq]
      exact ⟨_, rfl, rfl⟩
    have hstep : w.perform .pop = w' := by simp [perform, hp]
    have hevent : w.event .pop = .popped i := by simp [event, hp]
    obtain ⟨htrace, hrun⟩ := ih w' hrest
    refine ⟨?_, ?_⟩
    · rw [List.length_cons, List.replicate_succ, trace, hevent, hstep, htrace, List.map_cons]
    · rw [List.length_cons, List.replicate_succ, run, List.foldl_cons, hstep]
      exact hrun

/-- Whatever calls are made on a worklist for `n` nodes: the queue has no duplicates, the marks and
the counter tell what happened, nodes come out in the order in which they were accepted, and none
is lost. -/
theorem run_first_in_first_out (n : Nat) (cs : List Call) (hcs : ∀ c ∈ cs, c.Below n) :
    let w := (empty n).run cs
    let es := (empty n).trace cs
    w.queue.Nodup ∧
    (∀ i < n, w.queued[i]? = some (decide (i ∈ w.queue)) ∧
      w.seen[i]? = some (decide (.popped i ∈ es))) ∧
    w.steps = (popped es).length ∧
    accepted es = popped es ++ w.queue ∧
    (∀ i < n, i ∈ (w.push i).queue ∧ i ∈ (w.update i true).queue ∧
      (.popped i ∉ es → i ∈ (w.update i false).queue) ∧ (.popped i ∈ es → w.update i false = w)) ∧
    (w.trace (List.replicate w.queue.length .pop) = w.queue.map .popped ∧
      (w.run (List.replicate w.queue.length .pop)).queue = []) ∧
    (w.queue = [] → ∀ t i, es[t]? = some (.accepted i) → ∃ u, t < u ∧ es[u]? = some (.popped i) ∧
      (es.take u).count (.popped i) = (es.take t).count (.accepted i) ∧
      ∀ s, t < s → s < u → es[s]? ≠ some (.accepted i)) := by
  intro w es
  have h : Account n es w := (Account.start n).run hcs
  exact ⟨h.valid.nodup, fun i => h.marks, h.steps, h.fifo, fun i _ => h.update i, drain w,
    fun hq t i => Account.paired hcs hq rfl⟩

/-- Calls that ask for a node while it waits, and again after it was taken out. -/
def requeueing : List Call :=
  [.push 1, .update 1 true, .update 2 false, .pop, .update 1 true, .update 1 true, .pop, .pop,
    .update 2 false]

theorem run_first_in_first_out_requeueing :
    (∀ c ∈ requeueing, c.Below 3) ∧ ((empty 3).run requeueing).queue = [] ∧
    accepted ((empty 3).trace requeueing) = [1, 2, 1] ∧
      popped ((empty 3).trace requeueing) = [1, 2, 1] ∧
    ((empty 3).trace requeueing)[4]? = some (.accepted 1) ∧
    ∃ u, 4 < u ∧ ((empty 3).trace requeueing)[u]? = some (.popped 1) ∧
      (((empty 3).trace requeueing).take u).count (.popped 1) = 1 := by
  have hcs : ∀ c ∈ requeueing, c.Below 3 := by decide
  obtain ⟨-, -, -, hfifo, -, -, hpaired⟩ := run_first_in_first_out 3 requeueing hcs
  have hq : ((empty 3).run requeueing).queue = [] := by decide
  have haccepted : accepted ((empty 3).trace requeueing) = [1, 2, 1] := by decide
  rw [hq, List.append_nil, haccepted] at hfifo
  obtain ⟨u, htu, hu, hk, -⟩ := hpaired hq 4 1 (by decide)
  exact ⟨hcs, hq, haccepted, hfifo.symm, by decide, u, htu, hu, hk.trans (by decide)⟩

end Worklist
end CodeMotion
