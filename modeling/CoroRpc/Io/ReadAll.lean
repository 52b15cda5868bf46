import CoroRpc.Lib.Loop
import CoroRpc.Lib.Memory
import Mathlib.Order.Monotone.Basic

namespace CoroRpc.Io

open Loop Memory

-- How many bytes a positional read of a file gives, by its offset and the size it asks for: at least one where
-- there is one, and none at the end.
structure ShortReads (f : Bytes) where
  count : Nat → Nat → Nat
  atEnd : ∀ o k, f.length ≤ o → count o k = 0
  within : ∀ o k, o < f.length → 0 < k → 0 < count o k ∧ count o k ≤ k ∧ o + count o k ≤ f.length

structure ReadAll where
  result : Bytes
  total : Nat

namespace ShortReads

variable {f : Bytes} (reads : ShortReads f)

def read (o k : Nat) : Bytes := (f.drop o).take (reads.count o k)

def readAllBody (maxSize : Nat) (s : ReadAll) : Flow ReadAll :=
  if s.total < maxSize then
    let bytes := reads.read s.total (s.result.length - s.total)
    if bytes.length = 0 then .stop s
    else
      let result := store s.result s.total bytes
      let total := s.total + bytes.length
      .next ⟨if total = result.length then resize result (min (result.length * 2) maxSize) else result, total⟩
  else .stop s

/-- Every read but the last gives a byte of the file, so the loop is left within these rounds. -/
def readAllLoop (maxSize : Nat) : Flow ReadAll :=
  iterate (reads.readAllBody maxSize) (f.length + 1) (.next ⟨List.replicate 4096 0, 0⟩)

def asyncReadAll (maxSize : Nat) : Bytes :=
  let s := (reads.readAllLoop maxSize).state
  resize s.result s.total

def offset : Nat → Nat
  | 0 => 0
  | i + 1 => offset i + reads.count (offset i) (4096 - offset i)

theorem length_read {o k : Nat} (hk : 0 < k) : (reads.read o k).length = reads.count o k := by
  rw [read, List.length_take, List.length_drop, Nat.min_eq_left]
  by_cases ho : o < f.length
  · have hwithin := (reads.within o k ho hk).2.2
    omega
  · rw [reads.atEnd o k (Nat.not_lt.mp ho)]
    exact Nat.zero_le _

theorem take_append_read {o k : Nat} : f.take o ++ reads.read o k = f.take (o + reads.count o k) :=
  List.take_add.symm

variable {reads} {maxSize : Nat} {s t : ReadAll}

theorem total_lt (h : reads.readAllBody maxSize s = .next t) :
    f.length - t.total < f.length - s.total := by
  rw [readAllBody] at h
  split at h
  · dsimp only at h
    split at h
    · cases h
    · next hne =>
        cases h
        have hlength : (reads.read s.total (s.result.length - s.total)).length ≤ f.length - s.total := by
          rw [read, List.length_take, List.length_drop]
          exact Nat.min_le_right _ _
        show f.length - (s.total + _) < _
        omega
  · cases h

theorem readAllLoop_stops (reads : ShortReads f) (maxSize : Nat) : ∃ s, reads.readAllLoop maxSize = .stop s :=
  iterate_stops (fun s => f.length - s.total) (fun _ _ => total_lt) _ _ (Nat.lt_succ_of_le (Nat.sub_le _ _))

theorem readAllBody_next (hroom : s.total < s.result.length)
    (hfilled : s.result.take s.total = f.take s.total) (h : reads.readAllBody maxSize s = .next t) :
    ∃ buf : Bytes, buf.length = s.result.length ∧ s.total < maxSize ∧ s.total < t.total ∧
      t.total = s.total + reads.count s.total (s.result.length - s.total) ∧
      t.total ≤ s.result.length ∧ t.total ≤ f.length ∧ buf.take t.total = f.take t.total ∧
      t.result = if t.total = buf.length then resize buf (min (buf.length * 2) maxSize) else buf := by
  have hk : 0 < s.result.length - s.total := Nat.sub_pos_of_lt hroom
  have hlength := reads.length_read (o := s.total) hk
  rw [readAllBody] at h
  split at h
  · next hlt =>
      dsimp only at h
      split at h
      · cases h
      · next hne =>
          cases h
          rw [hlength] at hne
          have ho : s.total < f.length := by
            by_contra hend
            exact hne (reads.atEnd _ _ (Nat.not_lt.mp hend))
          obtain ⟨hpos, hle, hend⟩ := reads.within _ _ ho hk
          refine ⟨store s.result s.total (reads.read s.total (s.result.length - s.total)), ?_, hlt, ?_, ?_, ?_, ?_,
            ?_, rfl⟩
          · exact length_store (by omega)
          · show s.total < s.total + _
            omega
          · exact congrArg (s.total + ·) hlength
          · show s.total + _ ≤ _
            omega
          · show s.total + _ ≤ _
            omega
          · rw [take_store_add hroom.le, hfilled, take_append_read, hlength]
  · cases h

theorem readAllBody_stop (hroom : s.total < maxSize → s.total < s.result.length)
    (h : reads.readAllBody maxSize s = .stop t) : t = s ∧ (maxSize ≤ s.total ∨ f.length ≤ s.total) := by
  rw [readAllBody] at h
  split at h
  · next hlt =>
      dsimp only at h
      split at h
      · next hzero =>
          cases h
          refine ⟨rfl, .inr (Nat.not_lt.mp fun ho => ?_)⟩
          have hk : 0 < s.result.length - s.total := Nat.sub_pos_of_lt (hroom hlt)
          rw [reads.length_read hk] at hzero
          exact absurd hzero (Nat.ne_of_gt (reads.within _ _ ho hk).1)
      · cases h
  · next hge =>
      cases h
      exact ⟨rfl, .inl (Nat.not_lt.mp hge)⟩

structure Bounded (reads : ShortReads f) (maxSize : Nat) (s : ReadAll) : Prop where
  length : s.result.length ≤ maxSize
  room : s.total < s.result.length ∨ s.total = s.result.length ∧ s.total = maxSize
  total : s.total ≤ f.length
  filled : s.result.take s.total = f.take s.total

theorem Bounded.next (h : reads.Bounded maxSize s) (hs : reads.readAllBody maxSize s = .next t) :
    reads.Bounded maxSize t := by
  have hroom : s.total < s.result.length := by
    rcases h.room with hroom | ⟨-, hmax⟩
    · exact hroom
    · rw [readAllBody, if_neg (Nat.not_lt.mpr (Nat.le_of_eq hmax.symm))] at hs
      cases hs
  obtain ⟨buf, hbuf, hlt, hmore, -, hle, hend, hfilled, hresult⟩ := readAllBody_next hroom h.filled hs
  have hlength := h.length
  split at hresult
  · next hfull =>
      rw [← hfull] at hresult
      refine ⟨?_, ?_, hend, ?_⟩
      · rw [hresult, length_resize]
        exact Nat.min_le_right _ _
      · rw [hresult, length_resize]
        omega
      · rw [hresult, take_resize (Nat.le_of_eq hfull) (by omega)]
        exact hfilled
  · next hnot =>
      refine ⟨?_, .inl ?_, hend, ?_⟩
      · rw [hresult, hbuf]
        exact hlength
      · rw [hresult]
        omega
      · rw [hresult]
        exact hfilled

theorem asyncReadAll_bounded (reads : ShortReads f) (h : 4096 ≤ maxSize) :
    reads.asyncReadAll maxSize = f.take maxSize := by
  obtain ⟨s, hs⟩ := reads.readAllLoop_stops maxSize
  have hstart : reads.Bounded maxSize ⟨List.replicate 4096 0, 0⟩ := by
    refine ⟨?_, .inl ?_, Nat.zero_le _, rfl⟩
    · rw [List.length_replicate]
      exact h
    · rw [List.length_replicate]
      exact Nat.zero_lt_succ _
  obtain ⟨u, hu, hstop⟩ := stop_inv (fun _ _ h hs => Bounded.next h hs) hstart hs
  have hle : u.total ≤ u.result.length := by
    have := hu.room
    omega
  obtain ⟨rfl, hend⟩ := readAllBody_stop (fun hlt => by have := hu.room; omega) hstop
  rw [asyncReadAll, hs]
  show resize s.result s.total = _
  rw [resize_of_le hle, hu.filled]
  rcases hend with hmax | hend
  · have hlength := hu.length
    rw [show s.total = maxSize by omega]
  · have htotal := hu.total
    have hlength := hu.length
    rw [List.take_of_length_le hend, List.take_of_length_le (by omega)]

def Reaches (reads : ShortReads f) (maxSize : Nat) : Prop := ∃ i, reads.offset i = maxSize

theorem offset_mono (reads : ShortReads f) : Monotone reads.offset :=
  monotone_nat_of_le_succ fun _ => Nat.le_add_right _ _

theorem offset_succ_le {i j : Nat} (h : reads.offset i < reads.offset j) : reads.offset (i + 1) ≤ reads.offset j := by
  apply reads.offset_mono
  by_contra hle
  exact absurd (reads.offset_mono (Nat.lt_succ_iff.mp (Nat.not_le.mp hle))) (Nat.not_le.mpr h)

structure Unbounded (reads : ShortReads f) (maxSize : Nat) (s : ReadAll) : Prop where
  total : s.total ≤ f.length
  offset : ∃ i, reads.offset i = s.total
  reaches : reads.Reaches maxSize → s.total ≤ maxSize
  buffer : s.result.length = 4096 ∧ s.total < 4096 ∧ s.result.take s.total = f.take s.total ∨ s.total = 4096

theorem Unbounded.next (hmax : maxSize < 4096) (h : reads.Unbounded maxSize s)
    (hs : reads.readAllBody maxSize s = .next t) : reads.Unbounded maxSize t := by
  rcases h.buffer with ⟨hlength, hroom, hfilled⟩ | hfull
  · obtain ⟨buf, hbuf, hlt, -, htotal, hle, hend, hfilled, hresult⟩ :=
      readAllBody_next (by rw [hlength]; exact hroom) hfilled hs
    obtain ⟨i, hi⟩ := h.offset
    have hnext : reads.offset (i + 1) = t.total := by
      rw [ShortReads.offset, hi, htotal, hlength]
    refine ⟨hend, ⟨i + 1, hnext⟩, ?_, ?_⟩
    · rintro ⟨j, hj⟩
      rw [← hi, ← hj] at hlt
      rw [← hnext, ← hj]
      exact offset_succ_le hlt
    · rw [hlength] at hbuf hle
      by_cases hfull : t.total = 4096
      · exact .inr hfull
      · rw [if_neg (by rw [hbuf]; exact hfull)] at hresult
        rw [hresult]
        exact .inl ⟨hbuf, by omega, hfilled⟩
  · rw [readAllBody, if_neg (by omega)] at hs
    cases hs

theorem asyncReadAll_unbounded (reads : ShortReads f) (h : maxSize < 4096) :
    reads.asyncReadAll maxSize = f.take maxSize ↔ f.length ≤ maxSize ∨ reads.Reaches maxSize := by
  obtain ⟨s, hs⟩ := reads.readAllLoop_stops maxSize
  have hstart : reads.Unbounded maxSize ⟨List.replicate 4096 0, 0⟩ := by
    refine ⟨Nat.zero_le _, ⟨0, rfl⟩, fun _ => Nat.zero_le _, .inl ⟨List.length_replicate, ?_, rfl⟩⟩
    exact Nat.zero_lt_succ _
  obtain ⟨u, hu, hstop⟩ := stop_inv (fun _ _ hu hs => Unbounded.next h hu hs) hstart hs
  obtain ⟨rfl, hend⟩ := readAllBody_stop (fun hlt => by have := hu.buffer; omega) hstop
  have htotal := hu.total
  rw [asyncReadAll, hs]
  show resize s.result s.total = _ ↔ _
  constructor
  · intro heq
    have hlength := congrArg List.length heq
    rw [length_resize, List.length_take] at hlength
    by_cases hfile : f.length ≤ maxSize
    · exact .inl hfile
    · obtain ⟨i, hi⟩ := hu.offset
      exact .inr ⟨i, by omega⟩
  · intro hcond
    have hle : s.total ≤ maxSize := hcond.elim htotal.trans hu.reaches
    obtain ⟨hlength, hroom, hfilled⟩ := hu.buffer.resolve_right (by omega)
    rw [resize_of_le (by omega), hfilled]
    rcases hend with hmax | hend
    · rw [Nat.le_antisymm hle hmax]
    · rw [List.take_of_length_le hend, List.take_of_length_le (hend.trans hle)]

end ShortReads

/-- `async_read_all` ends, and it returns the beginning of the file up to the limit exactly when the limit
is not below the size of its first buffer, or the file ends within it, or the reads happen to stop there. -/
theorem async_read_all_iff {f : Bytes} (reads : ShortReads f) (maxSize : Nat) :
    (∃ s, reads.readAllLoop maxSize = .stop s) ∧
      (reads.asyncReadAll maxSize = f.take maxSize ↔
        4096 ≤ maxSize ∨ f.length ≤ maxSize ∨ reads.Reaches maxSize) := by
  refine ⟨reads.readAllLoop_stops maxSize, ?_⟩
  by_cases h : 4096 ≤ maxSize
  · exact iff_of_true (reads.asyncReadAll_bounded h) (.inl h)
  · rw [reads.asyncReadAll_unbounded (Nat.not_le.mp h)]
    exact (or_iff_right h).symm

def fullReads (f : Bytes) : ShortReads f where
  count o k := min k (f.length - o)
  atEnd o k h := by
    rw [Nat.sub_eq_zero_of_le h, Nat.min_zero]
  within o k ho hk := by omega

/-- With a limit of 2 all three bytes come. -/
theorem async_read_all_beyond :
    (fullReads [1, 2, 3]).asyncReadAll 2 = [1, 2, 3] ∧
      (fullReads [1, 2, 3]).asyncReadAll 2 ≠ [(1 : UInt8), 2, 3].take 2 := by
  have hall : (fullReads [1, 2, 3]).asyncReadAll 2 = [1, 2, 3] := by decide +kernel
  refine ⟨hall, ?_⟩
  rw [hall]
  decide

end CoroRpc.Io
