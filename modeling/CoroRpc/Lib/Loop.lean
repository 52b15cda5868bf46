import Mathlib.Data.List.Basic

namespace CoroRpc.Loop

variable {σ τ : Type}

inductive Flow (σ : Type)
  | next (s : σ)
  | stop (s : σ)

namespace Flow

def state : Flow σ → σ
  | next s => s
  | stop s => s

def andThen (f : Flow σ) (body : σ → Flow σ) : Flow σ :=
  match f with
  | next s => body s
  | stop s => stop s

def map (f : σ → σ) : Flow σ → Flow σ
  | next s => next (f s)
  | stop s => stop (f s)

inductive Rel (R Q : σ → τ → Prop) : Flow σ → Flow τ → Prop
  | next {s : σ} {t : τ} (h : R s t) : Rel R Q (next s) (next t)
  | stop {s : σ} {t : τ} (h : Q s t) : Rel R Q (stop s) (stop t)

end Flow

theorem Flow.Rel.andThen {R Q R' : σ → τ → Prop} {f : Flow σ} {g : Flow τ} {body : σ → Flow σ} {body' : τ → Flow τ}
    (h : Flow.Rel R Q f g) (hbody : ∀ s t, R s t → Flow.Rel R' Q (body s) (body' t)) :
    Flow.Rel R' Q (f.andThen body) (g.andThen body') := by
  cases h with
  | next h => exact hbody _ _ h
  | stop h => exact .stop h

/-- At most `n` iterations of `while (true) body`. -/
def iterate (body : σ → Flow σ) : Nat → Flow σ → Flow σ
  | 0, f => f
  | n + 1, f => iterate body n (f.andThen body)

variable {body : σ → Flow σ}

@[simp] theorem iterate_stop (n : Nat) (s : σ) : iterate body n (.stop s) = .stop s := by
  induction n with
  | zero => rfl
  | succ n ih => exact ih

theorem iterate_succ (n : Nat) (s : σ) :
    iterate body (n + 1) (.next s) = iterate body n (body s) := rfl

theorem iterate_next {s t : σ} (h : body s = .next t) (n : Nat) :
    iterate body (n + 1) (.next s) = iterate body n (.next t) := by
  rw [iterate_succ, h]

theorem iterate_last {s t : σ} (h : body s = .stop t) (n : Nat) :
    iterate body (n + 1) (.next s) = .stop t := by
  rw [iterate_succ, h, iterate_stop]

theorem iterate_add (m n : Nat) (f : Flow σ) :
    iterate body (m + n) f = iterate body n (iterate body m f) := by
  induction m generalizing f with
  | zero => rw [Nat.zero_add]; rfl
  | succ m ih =>
      rw [Nat.add_right_comm]
      exact ih _

theorem iterate_mono {m n : Nat} {f : Flow σ} {s : σ} (h : iterate body m f = .stop s) (hmn : m ≤ n) :
    iterate body n f = .stop s := by
  obtain ⟨k, rfl⟩ := Nat.exists_eq_add_of_le hmn
  rw [iterate_add, h, iterate_stop]

theorem iterate_inv (I : σ → Prop) (hbody : ∀ s, I s → I (body s).state) (n : Nat) (f : Flow σ)
    (h : I f.state) : I (iterate body n f).state := by
  induction n generalizing f with
  | zero => exact h
  | succ n ih =>
      apply ih
      cases f with
      | next s => exact hbody s h
      | stop s => exact h

theorem iterate_rel {R Q : σ → τ → Prop} {body' : τ → Flow τ}
    (hbody : ∀ s t, R s t → Flow.Rel R Q (body s) (body' t)) (n : Nat) {f : Flow σ} {g : Flow τ}
    (h : Flow.Rel R Q f g) : Flow.Rel R Q (iterate body n f) (iterate body' n g) := by
  induction n generalizing f g with
  | zero => exact h
  | succ n ih =>
      exact ih (h.andThen hbody)

theorem stop_rel {R Q : σ → τ → Prop} {body' : τ → Flow τ}
    (hbody : ∀ s t, R s t → Flow.Rel R Q (body s) (body' t)) {s e : σ} {t e' : τ} (h : R s t) {m n : Nat}
    (hs : iterate body m (.next s) = .stop e) (ht : iterate body' n (.next t) = .stop e') : Q e e' := by
  have hrel := iterate_rel hbody (max m n) (.next h)
  rw [iterate_mono hs (Nat.le_max_left m n), iterate_mono ht (Nat.le_max_right m n)] at hrel
  cases hrel with
  | stop hq => exact hq

theorem stop_inv {I : σ → Prop} (hbody : ∀ s t, I s → body s = .next t → I t) {n : Nat} {s t : σ} (hs : I s)
    (h : iterate body n (.next s) = .stop t) : ∃ u, I u ∧ body u = .stop t := by
  induction n generalizing s with
  | zero => cases h
  | succ n ih =>
      rw [iterate_succ] at h
      cases hb : body s with
      | next s' =>
          rw [hb] at h
          exact ih (hbody s s' hs hb) h
      | stop s' =>
          rw [hb, iterate_stop] at h
          cases h
          exact ⟨s, hs, hb⟩

theorem iterate_stops (μ : σ → Nat) (hμ : ∀ s s', body s = .next s' → μ s' < μ s) (n : Nat) (s : σ)
    (hn : μ s < n) : ∃ t, iterate body n (.next s) = .stop t := by
  induction n generalizing s with
  | zero => exact absurd hn (Nat.not_lt_zero _)
  | succ n ih =>
      rw [iterate_succ]
      cases hb : body s with
      | next s' =>
          have hlt := hμ s s' hb
          exact ih s' (by omega)
      | stop t => exact ⟨t, iterate_stop n t⟩

end CoroRpc.Loop
