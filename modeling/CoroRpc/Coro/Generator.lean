import CoroRpc.Lib.Loop

namespace CoroRpc.Coro

open Loop

variable {α ε : Type}

structure GeneratorPromise (α ε : Type) where
  currentValue : Option α := none
  exception : Option ε := none
  deriving DecidableEq

namespace GeneratorPromise

def yieldValue (p : GeneratorPromise α ε) (value : α) : GeneratorPromise α ε :=
  { p with currentValue := some value }

def unhandledException (p : GeneratorPromise α ε) (e : ε) : GeneratorPromise α ε := { p with exception := some e }

end GeneratorPromise

structure GeneratorBody (α ε : Type) where
  values : List α
  thrown : Option ε
  deriving DecidableEq

structure Generator (α ε : Type) where
  body : GeneratorBody α ε
  promise : GeneratorPromise α ε := {}
  done : Bool := false
  deriving DecidableEq

inductive GeneratorIterator
  | handle | sentinel
  deriving DecidableEq

namespace Generator

def resume (g : Generator α ε) : Generator α ε :=
  match g.body.values with
  | value :: values => { g with body.values := values, promise := g.promise.yieldValue value }
  | [] =>
      match g.body.thrown with
      | some e => { g with promise := g.promise.unhandledException e, done := true }
      | none => { g with done := true }

def begin (g : Generator α ε) : Except ε GeneratorIterator × Generator α ε :=
  let g := g.resume
  if g.done then (.ok .sentinel, g)
  else
    match g.promise.exception with
    | some e => (.error e, g)
    | none => (.ok .handle, g)

def increment (g : Generator α ε) : GeneratorIterator × Generator α ε :=
  let g := g.resume
  (if g.done then .sentinel else .handle, g)

structure Consumer (α ε : Type) where
  iterator : GeneratorIterator
  generator : Generator α ε
  delivered : List (Option α) := []

def forBody (s : Consumer α ε) : Flow (Consumer α ε) :=
  match s.iterator with
  | .sentinel => .stop s
  | .handle =>
      let r := s.generator.increment
      .next ⟨r.1, r.2, s.delivered ++ [s.generator.promise.currentValue]⟩

-- What a loop from `begin()` to `end()` has got, and the exception that left it, with the number of the `++`
-- out of which it came, 0 for `begin()`.
structure Consumed (α ε : Type) where
  delivered : List (Option α)
  raised : Option (Nat × ε)
  deriving DecidableEq

def forLoop (it : GeneratorIterator) (g : Generator α ε) : Flow (Consumer α ε) :=
  iterate forBody (g.body.values.length + 2) (.next ⟨it, g, []⟩)

def consume (body : GeneratorBody α ε) : Consumed α ε :=
  let r := begin { body }
  match r.1 with
  | .error e => ⟨[], some (0, e)⟩
  | .ok it => ⟨(forLoop it r.2).state.delivered, none⟩

def intended (body : GeneratorBody α ε) : Consumed α ε where
  delivered := body.values.map some
  raised := body.thrown.map fun e => (body.values.length, e)

/-- From a handle on, the loop gets the current value and all that the body still yields, and it ends. -/
theorem iterate_handle (values : List α) (thrown : Option ε) (promise : GeneratorPromise α ε)
    (delivered : List (Option α)) :
    ∃ g, iterate forBody (values.length + 2) (.next ⟨.handle, { body := ⟨values, thrown⟩, promise }, delivered⟩) =
      .stop ⟨.sentinel, g, delivered ++ promise.currentValue :: values.map some⟩ := by
  induction values generalizing promise delivered with
  | nil =>
      cases thrown with
      | none => exact ⟨_, rfl⟩
      | some e => exact ⟨_, rfl⟩
  | cons value values ih =>
      have hbody : forBody ⟨.handle, { body := ⟨value :: values, thrown⟩, promise }, delivered⟩ =
          .next ⟨.handle, { body := ⟨values, thrown⟩, promise := promise.yieldValue value },
            delivered ++ [promise.currentValue]⟩ := rfl
      obtain ⟨g, hg⟩ := ih (promise.yieldValue value) (delivered ++ [promise.currentValue])
      refine ⟨g, ?_⟩
      rw [List.length_cons, Nat.add_right_comm, iterate_next hbody, hg, List.append_assoc, List.singleton_append]
      rfl

/-- The exception is there only when the coroutine is done, and that is tested first. -/
theorem begin_spec (body : GeneratorBody α ε) :
    ∃ it t, (begin { body }).1 = .ok it ∧ forLoop it (begin { body }).2 = .stop t ∧
      t.delivered = body.values.map some := by
  obtain ⟨values, thrown⟩ := body
  cases values with
  | nil => cases thrown <;> exact ⟨.sentinel, _, rfl, rfl, rfl⟩
  | cons value values =>
      obtain ⟨g, hg⟩ := iterate_handle values thrown (({} : GeneratorPromise α ε).yieldValue value) []
      exact ⟨.handle, _, rfl, hg, rfl⟩

theorem consume_eq (body : GeneratorBody α ε) : consume body = ⟨body.values.map some, none⟩ := by
  obtain ⟨it, t, hbegin, hloop, hdelivered⟩ := begin_spec body
  rw [consume, hbegin]
  simp only [hloop, Flow.state, hdelivered]

end Generator

/-- A loop over a generator always comes to its end with all the values, and it sees how the body ended
exactly when the body returned. -/
theorem generator_consume_iff (body : GeneratorBody α ε) :
    (∃ it t, (Generator.begin { body }).1 = .ok it ∧
        Generator.forLoop it (Generator.begin { body }).2 = .stop t) ∧
      (Generator.consume body = Generator.intended body ↔ body.thrown = none) := by
  constructor
  · obtain ⟨it, t, hbegin, hloop, -⟩ := Generator.begin_spec body
    exact ⟨it, t, hbegin, hloop⟩
  · rw [Generator.consume_eq, Generator.intended]
    cases body.thrown with
    | none => exact iff_of_true rfl rfl
    | some e => exact iff_of_false (by simp) (by simp)

/-- A body that throws at once, and one that throws after a value. -/
theorem generator_swallows :
    Generator.consume (⟨[], some 7⟩ : GeneratorBody Nat Nat) = ⟨[], none⟩ ∧
      Generator.consume (⟨[], some 7⟩ : GeneratorBody Nat Nat) ≠ Generator.intended ⟨[], some 7⟩ ∧
      Generator.consume (⟨[1], some 7⟩ : GeneratorBody Nat Nat) ≠ Generator.intended ⟨[1], some 7⟩ := by
  decide

end CoroRpc.Coro
