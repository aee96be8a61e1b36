import Mathlib
import CodeMotion.Fault

/-! How changes of a state are taken apart: a sequence succeeds exactly when its parts do, and a
loop keeps what each of its steps keeps. -/

namespace CodeMotion

namespace Change

variable {σ τ α β : Type}

theorem bind_eq {x : Change σ α} {f : α → Change σ β} {s s' : σ} {a : α} (h : x s = .ok a s') :
    (x >>= f) s = f a s' := by
  show EStateM.bind x f s = _
  simp [EStateM.bind, h]

theorem bind_ok {x : Change σ α} {f : α → Change σ β} {s s'' : σ} {b : β} :
    (x >>= f) s = .ok b s'' ↔ ∃ a s', x s = .ok a s' ∧ f a s' = .ok b s'' := by
  show EStateM.bind x f s = _ ↔ _
  unfold EStateM.bind
  cases h : x s with
  | ok a s' => simp
  | error e s' => simp

theorem bind_error {x : Change σ α} {f : α → Change σ β} {s s' : σ} {e : Fault}
    (h : x s = .error e s') : (x >>= f) s = .error e s' := by
  show EStateM.bind x f s = _
  simp [EStateM.bind, h]

@[simp] theorem pure_apply (a : α) (s : σ) : (pure a : Change σ α) s = .ok a s := rfl

@[simp] theorem get_apply (s : σ) : (get : Change σ σ) s = .ok s s := rfl

@[simp] theorem set_apply (s t : σ) : (set t : Change σ PUnit) s = .ok ⟨⟩ t := rfl

@[simp] theorem modify_apply (f : σ → σ) (s : σ) : (modify f : Change σ PUnit) s = .ok ⟨⟩ (f s) :=
  rfl

@[simp] theorem throw_apply (e : Fault) (s : σ) : (throw e : Change σ α) s = .error e s := rfl

@[simp] theorem check_ok (a : α) (s : σ) : (check (.ok a) : Change σ α) s = .ok a s := rfl

theorem check_apply {x : Except Fault α} {s s' : σ} {a : α} :
    (check x : Change σ α) s = .ok a s' ↔ x = .ok a ∧ s = s' := by
  cases x with
  | ok b => simp
  | error e => simp [check]

@[simp] theorem get_bind (f : σ → Change σ β) (s : σ) : (get >>= f) s = f s s := rfl

@[simp] theorem set_bind (t : σ) (f : PUnit → Change σ β) (s : σ) : (set t >>= f) s = f ⟨⟩ t := rfl

@[simp] theorem modify_bind (g : σ → σ) (f : PUnit → Change σ β) (s : σ) :
    (modify g >>= f) s = f ⟨⟩ (g s) := rfl

@[simp] theorem check_bind (a : α) (f : α → Change σ β) (s : σ) : (check (.ok a) >>= f) s = f a s :=
  rfl

theorem zoom_ok {part : σ → τ} {put : τ → σ → σ} {c : Change τ α} {s : σ} {a : α} {t : τ}
    (h : c (part s) = .ok a t) : c.zoom part put s = .ok a (put t s) := by
  simp [zoom, h]

theorem zoom_const_ok {put : τ → σ → σ} {c : Change τ α} {s : σ} {a : α} {t t' : τ}
    (h : c t = .ok a t') :
    c.zoom (fun _ => t) put s = .ok a (put t' s) := zoom_ok h

theorem zoom_inv {part : σ → τ} {put : τ → σ → σ} {c : Change τ α} {s s' : σ} {a : α}
    (h : c.zoom part put s = .ok a s') : ∃ t, c (part s) = .ok a t ∧ s' = put t s := by
  unfold zoom at h
  split at h
  · next b t hc =>
    simp only [EStateM.Result.ok.injEq] at h
    exact ⟨t, by rw [hc, h.1], h.2.symm⟩
  · simp at h

theorem forM_nil (f : α → Change σ PUnit) (s : σ) : ([] : List α).forM f s = .ok ⟨⟩ s := rfl

theorem forM_cons (f : α → Change σ PUnit) (a : α) (t : List α) (s : σ) :
    (a :: t).forM f s = (f a >>= fun _ => t.forM f) s := rfl

/-- A loop that succeeds keeps what each step keeps; the invariant speaks of the steps done. -/
theorem forM_inv (I : List α → σ → Prop) {f : α → Change σ PUnit} {l : List α} {s s' : σ}
    (hstep : ∀ pre a post s s', l = pre ++ a :: post → I pre s → f a s = .ok ⟨⟩ s' →
      I (pre ++ [a]) s') (hs : I [] s) (h : l.forM f s = .ok ⟨⟩ s') : I l s' := by
  suffices H : ∀ rest pre s, l = pre ++ rest → I pre s → rest.forM f s = .ok ⟨⟩ s' → I l s'
    from H l [] s rfl hs h
  intro rest
  induction rest with
  | nil =>
    intro pre s hl hi h
    rw [forM_nil] at h
    cases h
    simpa [hl] using hi
  | cons a t ih =>
    intro pre s hl hi h
    rw [forM_cons, bind_ok] at h
    obtain ⟨_, s1, h1, h2⟩ := h
    exact ih (pre ++ [a]) s1 (by simp [hl]) (hstep pre a t s s1 hl hi h1) h2

/-- A loop succeeds if each step does, as long as the steps keep what the next ones need. -/
theorem forM_ok (I : List α → σ → Prop) {f : α → Change σ PUnit} {l : List α} {s : σ}
    (hstep : ∀ pre a post s, l = pre ++ a :: post → I pre s → ∃ s', f a s = .ok ⟨⟩ s' ∧
      I (pre ++ [a]) s') (hs : I [] s) : ∃ s', l.forM f s = .ok ⟨⟩ s' ∧ I l s' := by
  suffices H : ∀ rest pre s, l = pre ++ rest → I pre s → ∃ s', rest.forM f s = .ok ⟨⟩ s' ∧ I l s'
    from H l [] s rfl hs
  intro rest
  induction rest with
  | nil =>
    intro pre s hl hi
    exact ⟨s, rfl, by simpa [hl] using hi⟩
  | cons a t ih =>
    intro pre s hl hi
    obtain ⟨s1, h1, hi1⟩ := hstep pre a t s hl hi
    obtain ⟨s', h2, hi2⟩ := ih (pre ++ [a]) s1 (by simp [hl]) hi1
    exact ⟨s', by rw [forM_cons, bind_eq h1]; exact h2, hi2⟩

end Change

theorem entryAt_ok {α : Type} {l : List α} {n : Nat} {a : α} :
    entryAt l n = .ok a ↔ l[n]? = some a := by
  unfold entryAt
  split <;> simp_all

end CodeMotion
