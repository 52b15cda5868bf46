import CoroRpc.Lib.Trace

namespace CoroRpc.CallStack

open Trace

section

variable {φ ℓ : Type} {wants holds : φ → Option ℓ} {f : φ} {rest stack : List φ}

def SelfBlocked (wants holds : φ → Option ℓ) : List φ → Prop
  | [] => False
  | f :: rest => ∃ l, wants f = some l ∧ ∃ g ∈ rest, holds g = some l

def Settled (wants : φ → Option ℓ) (stack : List φ) : Prop := ∀ f ∈ stack.tail, wants f = none

theorem Settled.pop (h : Settled wants (f :: rest)) : Settled wants rest :=
  fun g hg => h g (List.mem_of_mem_tail hg)

theorem Settled.push (h : Settled wants (f :: rest)) (hf : wants f = none) (g : φ) :
    Settled wants (g :: f :: rest) := by
  intro g' hg'
  rcases List.mem_cons.mp hg' with rfl | hg'
  · exact hf
  · exact h g' hg'

theorem not_selfBlocked_of_none (h : wants f = none) : ¬SelfBlocked wants holds (f :: rest) := by
  rintro ⟨l, hl, -⟩
  rw [h] at hl
  cases hl

theorem Settled.not_selfBlocked (h : Settled wants (f :: rest)) : ¬SelfBlocked wants holds rest := by
  cases rest with
  | nil => exact id
  | cons g rest => exact not_selfBlocked_of_none (h g List.mem_cons_self)

theorem selfBlocked_iff {l : ℓ} (h : wants f = some l) :
    SelfBlocked wants holds (f :: rest) ↔ ∃ g ∈ rest, holds g = some l := by
  constructor
  · rintro ⟨l', hl', hheld⟩
    rw [h] at hl'
    cases hl'
    exact hheld
  · intro hheld
    exact ⟨l, h, hheld⟩

end

-- A loop that runs callbacks. `o` are its operations: each takes one lock and does its part under it, and may
-- go on as a drain, which runs callbacks one after the other, with a lock held or not. Those that a callback
-- may call return when they have done their part.
structure Looper (ℓ σ δ o κ : Type) where
  mutex : o → ℓ
  callable : o → Bool
  locked : o → σ → σ × Option δ
  returns : ∀ op data, callable op = true → (locked op data).2 = none
  holds : δ → Option ℓ
  /-- The callback that the drain runs next and the drain behind it, or the operation after the drain, if any. -/
  next : δ → σ → σ × (κ × δ ⊕ Option o)

inductive LooperFrame (δ o κ : Type)
  | callback (c : κ)
  | locking (op : o)
  | draining (d : δ)

structure LooperState (σ δ o κ : Type) where
  data : σ
  stack : List (LooperFrame δ o κ) := []

/-- `enter` is a call from the loop itself, `callback` one that no drain makes, `call` an operation called by
the running callback, `remote` one of another thread. -/
inductive LooperEvent (o κ : Type)
  | enter (op : o)
  | callback (c : κ)
  | lock
  | next
  | call (op : o)
  | done
  | remote (op : o)

namespace Looper

variable {ℓ σ δ o κ : Type} (L : Looper ℓ σ δ o κ)

def wants : LooperFrame δ o κ → Option ℓ
  | .locking op => some (L.mutex op)
  | _ => none

def held : LooperFrame δ o κ → Option ℓ
  | .draining d => L.holds d
  | _ => none

variable [DecidableEq ℓ]

def free (l : ℓ) (stack : List (LooperFrame δ o κ)) : Bool := stack.all fun f => L.held f ≠ some l

def step (s : LooperState σ δ o κ) : LooperEvent o κ → Option (LooperState σ δ o κ)
  | .enter op =>
      match s.stack with
      | [] => some { s with stack := [.locking op] }
      | _ => none
  | .callback c =>
      match s.stack with
      | [] => some { s with stack := [.callback c] }
      | _ => none
  | .lock =>
      match s.stack with
      | .locking op :: rest =>
          if L.free (L.mutex op) rest then
            let r := L.locked op s.data
            some ⟨r.1, (r.2.map .draining).toList ++ rest⟩
          else none
      | _ => none
  | .next =>
      match s.stack with
      | .draining d :: rest =>
          match L.next d s.data with
          | (data, .inl (c, d')) => some ⟨data, .callback c :: .draining d' :: rest⟩
          | (data, .inr none) => some ⟨data, rest⟩
          | (data, .inr (some op)) => some ⟨data, .locking op :: rest⟩
      | _ => none
  | .call op =>
      match s.stack with
      | .callback c :: rest =>
          if L.callable op then some { s with stack := .locking op :: .callback c :: rest } else none
      | _ => none
  | .done =>
      match s.stack with
      | .callback _ :: rest => some { s with stack := rest }
      | _ => none
  | .remote op => if L.free (L.mutex op) s.stack then some { s with data := (L.locked op s.data).1 } else none

def NoSelfLock (s : LooperState σ δ o κ) : Prop := ¬SelfBlocked L.wants L.held s.stack

/-- A callback does not call an operation for whose lock the drain that runs it holds it. -/
def Outside (s : LooperState σ δ o κ) : LooperEvent o κ → Prop
  | .call op => ∀ c d, s.stack = [.callback c, .draining d] → L.holds d ≠ some (L.mutex op)
  | _ => True

inductive Base : List (LooperFrame δ o κ) → Prop
  | loop : Base []
  | drain (d : δ) : Base [.draining d]

inductive Shape : List (LooperFrame δ o κ) → Prop
  | entering (op : o) : Shape [.locking op]
  | base {base : List (LooperFrame δ o κ)} (h : Base base) : Shape base
  | callback (c : κ) {base : List (LooperFrame δ o κ)} (h : Base base) : Shape (.callback c :: base)
  | calling (op : o) (hop : L.callable op = true) (c : κ) {base : List (LooperFrame δ o κ)} (h : Base base) :
      Shape (.locking op :: .callback c :: base)

variable {L} {s t : LooperState σ δ o κ}

omit [DecidableEq ℓ] in
theorem not_selfBlocked_base {base : List (LooperFrame δ o κ)} (h : Base base) :
    ¬SelfBlocked L.wants L.held base := by
  cases h with
  | loop => exact id
  | drain d => exact not_selfBlocked_of_none rfl

omit [DecidableEq ℓ] in
theorem Shape.base_of_callback {c : κ} {rest : List (LooperFrame δ o κ)} (h : L.Shape (.callback c :: rest)) :
    Base rest := by
  cases h with
  | base h => cases h
  | callback c h => exact h

omit [DecidableEq ℓ] in
theorem Shape.nil_of_draining {d : δ} {rest : List (LooperFrame δ o κ)} (h : L.Shape (.draining d :: rest)) :
    rest = [] := by
  cases h with
  | base h =>
      cases h
      rfl

theorem step_cases {e : LooperEvent o κ} (h : L.Shape s.stack) (hs : L.step s e = some t) :
    (∃ op, e = .enter op ∧ t.stack = [.locking op]) ∨
    (∃ op c base, e = .call op ∧ L.callable op = true ∧ Base base ∧ s.stack = .callback c :: base ∧
      t.stack = .locking op :: .callback c :: base) ∨
    (∃ op, e = .next ∧ t.stack = [.locking op]) ∨
    ((∀ op, e ≠ .call op) ∧ (Base t.stack ∨ ∃ c base, Base base ∧ t.stack = .callback c :: base)) ∨
    ((∀ op, e ≠ .call op) ∧ t.stack = s.stack) := by
  obtain ⟨data, stack⟩ := s
  cases e with
  | enter op =>
      simp only [step] at hs
      split at hs
      · cases hs
        exact .inl ⟨op, rfl, rfl⟩
      · cases hs
  | callback c =>
      simp only [step] at hs
      split at hs
      · cases hs
        exact .inr (.inr (.inr (.inl ⟨nofun, .inr ⟨c, [], .loop, rfl⟩⟩)))
      · cases hs
  | lock =>
      simp only [step] at hs
      split at hs
      · rename_i op rest
        split at hs
        · cases hs
          refine .inr (.inr (.inr (.inl ⟨nofun, ?_⟩)))
          cases h with
          | entering op =>
              left
              cases (L.locked op data).2 with
              | none => exact .loop
              | some d => exact .drain d
          | base h => cases h
          | calling op hop c h =>
              right
              rw [L.returns op data hop]
              exact ⟨c, _, h, rfl⟩
        · cases hs
      · cases hs
  | next =>
      simp only [step] at hs
      split at hs
      · rename_i d rest
        obtain rfl : rest = [] := h.nil_of_draining
        split at hs
        · cases hs
          exact .inr (.inr (.inr (.inl ⟨nofun, .inr ⟨_, _, .drain _, rfl⟩⟩)))
        · cases hs
          exact .inr (.inr (.inr (.inl ⟨nofun, .inl .loop⟩)))
        · rename_i op _
          cases hs
          exact .inr (.inr (.inl ⟨op, rfl, rfl⟩))
      · cases hs
  | call op =>
      simp only [step] at hs
      split at hs
      · rename_i c rest
        split at hs
        · rename_i hop
          cases hs
          exact .inr (.inl ⟨op, c, rest, rfl, hop, h.base_of_callback, rfl, rfl⟩)
        · cases hs
      · cases hs
  | done =>
      simp only [step] at hs
      split at hs
      · rename_i c rest
        cases hs
        exact .inr (.inr (.inr (.inl ⟨nofun, .inl h.base_of_callback⟩)))
      · cases hs
  | remote op =>
      simp only [step] at hs
      split at hs
      · cases hs
        exact .inr (.inr (.inr (.inr ⟨nofun, rfl⟩)))
      · cases hs

theorem Shape.step {e : LooperEvent o κ} (h : L.Shape s.stack) (hs : L.step s e = some t) : L.Shape t.stack := by
  rcases step_cases h hs with ⟨op, -, ht⟩ | ⟨op, c, base, -, hop, hb, -, ht⟩ | ⟨op, -, ht⟩ |
    ⟨-, hb | ⟨c, base, hb, ht⟩⟩ | ⟨-, ht⟩
  · exact ht ▸ .entering op
  · exact ht ▸ .calling op hop c hb
  · exact ht ▸ .entering op
  · exact .base hb
  · exact ht ▸ .callback c hb
  · exact ht ▸ h

omit [DecidableEq ℓ] in
theorem selfBlocked_calling {op : o} {c : κ} {base : List (LooperFrame δ o κ)} (hb : Base base) :
    SelfBlocked L.wants L.held (.locking op :: .callback c :: base) ↔
      ∃ d, base = [.draining d] ∧ L.holds d = some (L.mutex op) := by
  have hwants : L.wants (.locking op : LooperFrame δ o κ) = some (L.mutex op) := rfl
  rw [selfBlocked_iff hwants]
  cases hb with
  | loop => simp [held]
  | drain d => simp [held]

theorem noSelfLock_step_iff {e : LooperEvent o κ} (h : L.Shape s.stack) (hn : L.NoSelfLock s)
    (hs : L.step s e = some t) : L.NoSelfLock t ↔ L.Outside s e := by
  have hother (hne : ∀ op, e ≠ .call op) : L.Outside s e := by
    cases e with
    | call op => exact absurd rfl (hne op)
    | enter | callback | lock | next | done | remote => trivial
  have halone (op : o) : ¬SelfBlocked L.wants L.held ([.locking op] : List (LooperFrame δ o κ)) := by
    rintro ⟨l, -, g, hg, -⟩
    cases hg
  rw [NoSelfLock]
  rcases step_cases h hs with ⟨op, rfl, ht⟩ | ⟨op, c, base, rfl, hop, hb, hstack, ht⟩ | ⟨op, rfl, ht⟩ |
    ⟨hne, hb | ⟨c, base, hb, ht⟩⟩ | ⟨hne, ht⟩
  · rw [ht]
    exact iff_of_true (halone op) trivial
  · rw [ht, selfBlocked_calling hb, Outside, hstack]
    constructor
    · rintro hfree c' d heq hheld
      rw [List.cons.injEq] at heq
      exact hfree ⟨d, heq.2, hheld⟩
    · rintro hout ⟨d, rfl, hheld⟩
      exact hout c d rfl hheld
  · rw [ht]
    exact iff_of_true (halone op) trivial
  · exact iff_of_true (not_selfBlocked_base hb) (hother hne)
  · rw [ht]
    exact iff_of_true (not_selfBlocked_of_none rfl) (hother hne)
  · rw [ht]
    exact iff_of_true hn (hother hne)

/-- The thread of the loop never waits for itself exactly when no callback calls an operation whose lock is held by
the drain that runs it. -/
theorem noSelfLock_iff (L : Looper ℓ σ δ o κ) (data : σ) (es : List (LooperEvent o κ)) (t : LooperState σ δ o κ)
    (h : run L.step { data } es = some t) :
    Throughout L.step L.NoSelfLock { data } es ↔ EachStep L.step L.Outside { data } es :=
  throughout_iff (I := fun s => L.Shape s.stack) (fun _ _ _ h hs => h.step hs)
    (fun _ _ _ h hn hs => noSelfLock_step_iff h hn hs) (.base .loop) id h

end Looper

end CoroRpc.CallStack
