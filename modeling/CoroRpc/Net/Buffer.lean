import CoroRpc.Lib.Memory
import Mathlib.Tactic.Common

namespace CoroRpc.Net

open Memory

structure BufferBlock where
  data : Bytes
  capacity : UInt64
  length_data : data.length = capacity.toNat

namespace BufferBlock

def new (heap : Mem) (capacity : UInt64) : BufferBlock :=
  ⟨slice heap 0 capacity.toNat, capacity, length_slice heap 0 capacity.toNat⟩

def copyOut (block : BufferBlock) (pos len : UInt64) : Option Bytes :=
  if pos.toNat + len.toNat ≤ block.data.length then some ((block.data.drop pos.toNat).take len.toNat) else none

theorem length_store {block : BufferBlock} {pos : UInt64} {bytes : Bytes}
    (h : pos.toNat + bytes.length ≤ block.data.length) :
    (store block.data pos.toNat bytes).length = block.capacity.toNat := by
  rw [← block.length_data]
  simp only [store, List.length_append, List.length_take, List.length_drop]
  omega

def copyIn (block : BufferBlock) (pos : UInt64) (bytes : Bytes) : Option BufferBlock :=
  if h : pos.toNat + bytes.length ≤ block.data.length then
    some ⟨store block.data pos.toNat bytes, block.capacity, length_store h⟩
  else none

theorem copyOut_eq {block : BufferBlock} {pos len : UInt64} {front mid back : Bytes}
    (hd : block.data = front ++ mid ++ back) (hp : pos.toNat = front.length) (hl : len.toNat = mid.length) :
    block.copyOut pos len = some mid := by
  have hle : pos.toNat + len.toNat ≤ block.data.length := by
    simp [hd, hp, hl]
  rw [copyOut, if_pos hle, hd, hp, hl, List.append_assoc, List.drop_left, List.take_left]

theorem copyIn_eq {block : BufferBlock} {pos : UInt64} {front back bytes : Bytes}
    (hd : block.data = front ++ back) (hp : pos.toNat = front.length) (hle : bytes.length ≤ back.length) :
    ∃ block', block.copyIn pos bytes = some block' ∧ block'.capacity = block.capacity ∧
      block'.data = front ++ bytes ++ back.drop bytes.length := by
  have h : pos.toNat + bytes.length ≤ block.data.length := by
    simp only [hd, hp, List.length_append]
    omega
  refine ⟨_, dif_pos h, rfl, ?_⟩
  simp only [hd, hp, store_append]

theorem copyIn_zero {block : BufferBlock} {bytes : Bytes} (hle : bytes.length ≤ block.data.length) :
    ∃ block', block.copyIn 0 bytes = some block' ∧ block'.capacity = block.capacity ∧
      block'.data = bytes ++ block.data.drop bytes.length := by
  obtain ⟨block', hin, hcap, hdata⟩ := @copyIn_eq block 0 [] block.data bytes rfl rfl hle
  exact ⟨block', hin, hcap, hdata⟩

end BufferBlock

-- `block` is empty until a buffer that was made without a capacity is written to.
structure Buffer where
  block : Option BufferBlock := none
  readPos : UInt64 := 0
  writePos : UInt64 := 0

namespace Buffer

def ofCapacity (heap : Mem) (capacity : UInt64) : Buffer := { block := some (.new heap capacity) }

def capacity (b : Buffer) : UInt64 := (b.block.map BufferBlock.capacity).getD 0

def readable (b : Buffer) : UInt64 := b.writePos - b.readPos

def writable (b : Buffer) : UInt64 :=
  match b.block with
  | some block => block.capacity - b.writePos
  | none => 0

/-- There is no result where a null pointer is followed or a copy leaves its block. -/
def compact (b : Buffer) : Option Buffer :=
  if 0 < b.readPos then do
    let block ← b.block
    let bytes ← block.copyOut b.readPos b.readable
    let block ← block.copyIn 0 bytes
    some { block := some block, readPos := 0, writePos := b.readable }
  else some b

def ensureWritable (heap : Mem) (b : Buffer) (size : UInt64) : Option Buffer :=
  match b.block with
  | none => some { b with block := some (.new heap (max size 4096)) }
  | some _ =>
      if size ≤ b.writable then some b
      else do
        let b ← b.compact
        if size ≤ b.writable then some b
        else do
          let block ← b.block
          let newCapacity := max (block.capacity * 2) (b.writePos + size)
          let bytes ← block.copyOut 0 b.writePos
          let newBlock ← (BufferBlock.new heap newCapacity).copyIn 0 bytes
          some { b with block := some newBlock }

def write (heap : Mem) (b : Buffer) (data : Bytes) : Option Buffer := do
  let size := UInt64.ofNat data.length
  let b ← b.ensureWritable heap size
  let block ← b.block
  let block ← block.copyIn b.writePos data
  some { b with block := some block, writePos := b.writePos + size }

def read (b : Buffer) (size : UInt64) : Option (Buffer × UInt64 × Bytes) := do
  let size := min size b.readable
  let block ← b.block
  let bytes ← block.copyOut b.readPos size
  some ({ b with readPos := b.readPos + size }, size, bytes)

def asString (b : Buffer) : Option Bytes := do
  let block ← b.block
  block.copyOut b.readPos b.readable

def skip (b : Buffer) (n : UInt64) : Buffer := { b with readPos := b.readPos + min n b.readable }

def retreat (b : Buffer) (n : UInt64) : Buffer := { b with readPos := b.readPos - min n b.readPos }

def clear (b : Buffer) : Buffer := { b with readPos := 0, writePos := 0 }

def reset (b : Buffer) : Buffer := { b with readPos := 0, writePos := 0 }

inductive Op
  | write (heap : Mem) (data : Bytes)
  | read (size : UInt64)
  | skip (n : UInt64)
  | retreat (n : UInt64)
  | clear
  | reset
  | compact

def apply (b : Buffer) : Op → Option (Buffer × Option (UInt64 × Bytes))
  | .write heap data => (b.write heap data).map fun b => (b, none)
  | .read size => (b.read size).map fun r => (r.1, some r.2)
  | .skip n => some (b.skip n, none)
  | .retreat n => some (b.retreat n, none)
  | .clear => some (b.clear, none)
  | .reset => some (b.reset, none)
  | .compact => b.compact.map fun b => (b, none)

/-- The sizes of a call are so small that nothing overflows. -/
def Fits (b : Buffer) : Op → Prop
  | .write _ data => b.capacity.toNat * 2 < 2 ^ 64 ∧ b.writePos.toNat + data.length < 2 ^ 64
  | _ => True

def compacts (b : Buffer) : Op → Bool
  | .write _ data => b.writable < UInt64.ofNat data.length
  | .compact => true
  | _ => false

end Buffer

structure ByteQueue where
  consumed : Bytes := []
  content : Bytes := []

namespace ByteQueue

def append (q : ByteQueue) (bytes : Bytes) : ByteQueue := { q with content := q.content ++ bytes }

def take (q : ByteQueue) (n : Nat) : ByteQueue := ⟨q.consumed ++ q.content.take n, q.content.drop n⟩

def putBack (q : ByteQueue) (n : Nat) : ByteQueue :=
  ⟨q.consumed.take (q.consumed.length - n), q.consumed.drop (q.consumed.length - n) ++ q.content⟩

def forget (q : ByteQueue) : ByteQueue := { q with consumed := [] }

def apply (q : ByteQueue) (compacts : Bool) : Buffer.Op → ByteQueue × Option (UInt64 × Bytes)
  | .write _ data => ((if compacts then q.forget else q).append data, none)
  | .read size =>
      let bytes := q.content.take size.toNat
      (q.take size.toNat, some (UInt64.ofNat bytes.length, bytes))
  | .skip n => (q.take n.toNat, none)
  | .retreat n => (q.putBack n.toNat, none)
  | .clear => ({}, none)
  | .reset => ({}, none)
  | .compact => (q.forget, none)

end ByteQueue

namespace Buffer

structure Represents (b : Buffer) (q : ByteQueue) (block : BufferBlock) (free : Bytes) : Prop where
  block_eq : b.block = some block
  data_eq : block.data = q.consumed ++ q.content ++ free
  readPos_eq : b.readPos.toNat = q.consumed.length
  writePos_eq : b.writePos.toNat = q.consumed.length + q.content.length

variable {b : Buffer} {q : ByteQueue} {block : BufferBlock} {free : Bytes}

theorem Represents.capacity_eq (h : Represents b q block free) : b.capacity = block.capacity := by
  rw [capacity, h.block_eq]
  rfl

theorem Represents.toNat_capacity (h : Represents b q block free) :
    b.capacity.toNat = q.consumed.length + q.content.length + free.length := by
  rw [h.capacity_eq, ← block.length_data, h.data_eq]
  simp only [List.length_append]

theorem Represents.readPos_le (h : Represents b q block free) : b.readPos ≤ b.writePos := by
  rw [UInt64.le_iff_toNat_le, h.readPos_eq, h.writePos_eq]
  omega

theorem Represents.writePos_le (h : Represents b q block free) : b.writePos ≤ b.capacity := by
  rw [UInt64.le_iff_toNat_le, h.writePos_eq, h.toNat_capacity]
  omega

theorem Represents.toNat_readable (h : Represents b q block free) : b.readable.toNat = q.content.length := by
  rw [readable, UInt64.toNat_sub_of_le _ _ h.readPos_le, h.readPos_eq, h.writePos_eq]
  omega

theorem Represents.toNat_writable (h : Represents b q block free) : b.writable.toNat = free.length := by
  have hw : b.writable = block.capacity - b.writePos := by
    rw [writable, h.block_eq]
  have hle : b.writePos ≤ block.capacity := h.capacity_eq ▸ h.writePos_le
  rw [hw, UInt64.toNat_sub_of_le _ _ hle, ← h.capacity_eq, h.toNat_capacity, h.writePos_eq]
  omega

theorem represents_ofCapacity (heap : Mem) (capacity : UInt64) :
    Represents (ofCapacity heap capacity) {} (.new heap capacity) (slice heap 0 capacity.toNat) :=
  ⟨rfl, rfl, rfl, rfl⟩

theorem Represents.compact (h : Represents b q block free) :
    ∃ b' block' free', b.compact = some b' ∧ Represents b' q.forget block' free' ∧ b'.capacity = b.capacity := by
  by_cases hpos : 0 < b.readPos
  · have hout : block.copyOut b.readPos b.readable = some q.content :=
      BufferBlock.copyOut_eq h.data_eq h.readPos_eq h.toNat_readable
    have hle : q.content.length ≤ block.data.length := by
      simp only [h.data_eq, List.length_append]
      omega
    obtain ⟨block', hin, hcap, hdata⟩ := BufferBlock.copyIn_zero hle
    refine ⟨{ block := some block', readPos := 0, writePos := b.readable }, block', _, ?_,
      ⟨rfl, hdata, rfl, ?_⟩, ?_⟩
    · simp [Buffer.compact, hpos, h.block_eq, hout, hin]
    · simp [ByteQueue.forget, h.toNat_readable]
    · rw [h.capacity_eq, ← hcap]
      rfl
  · have hnil : q.consumed = [] := by
      have h0 := h.readPos_eq
      rw [UInt64.lt_iff_toNat_lt] at hpos
      simp only [UInt64.toNat_zero, not_lt, Nat.le_zero] at hpos
      exact List.eq_nil_of_length_eq_zero (by omega)
    have hq : q.forget = q := by
      cases q
      simp only [ByteQueue.forget] at hnil ⊢
      rw [hnil]
    exact ⟨b, block, free, if_neg hpos, hq.symm ▸ h, rfl⟩

theorem Represents.grow (h : Represents b q block free) (heap : Mem) {n : UInt64}
    (hn : b.writePos.toNat ≤ n.toNat) :
    ∃ bytes block', block.copyOut 0 b.writePos = some bytes ∧ (BufferBlock.new heap n).copyIn 0 bytes = some block' ∧
      block'.capacity = n ∧ ∃ free', Represents { b with block := some block' } q block' free' := by
  have hlen : b.writePos.toNat = (q.consumed ++ q.content).length := by
    rw [h.writePos_eq, List.length_append]
  have hout : block.copyOut 0 b.writePos = some (q.consumed ++ q.content) := by
    apply @BufferBlock.copyOut_eq block 0 b.writePos [] (q.consumed ++ q.content) free h.data_eq rfl hlen
  have hle : (q.consumed ++ q.content).length ≤ (BufferBlock.new heap n).data.length := by
    rw [← hlen, (BufferBlock.new heap n).length_data]
    exact hn
  obtain ⟨block', hin, hcap, hdata⟩ := BufferBlock.copyIn_zero hle
  exact ⟨_, block', hout, hin, hcap, _, rfl, hdata, h.readPos_eq, h.writePos_eq⟩

theorem Represents.ensureWritable (h : Represents b q block free) (heap : Mem) {size : UInt64}
    (hcap : b.capacity.toNat * 2 < 2 ^ 64) (hsize : b.writePos.toNat + size.toNat < 2 ^ 64) :
    ∃ b' block' free', b.ensureWritable heap size = some b' ∧
      Represents b' (if b.writable < size then q.forget else q) block' free' ∧
      size.toNat ≤ free'.length ∧ b.capacity ≤ b'.capacity := by
  by_cases hfit : size ≤ b.writable
  · refine ⟨b, block, free, ?_, ?_, ?_, UInt64.le_refl _⟩
    · simp [Buffer.ensureWritable, h.block_eq, hfit]
    · rw [if_neg (UInt64.not_lt.mpr hfit)]
      exact h
    · rw [← h.toNat_writable]
      exact UInt64.le_iff_toNat_le.mp hfit
  · obtain ⟨c, blockc, freec, hc, hrc, hcapc⟩ := h.compact
    rw [if_pos (UInt64.not_le.mp hfit)]
    have hens : b.ensureWritable heap size =
        if size ≤ c.writable then some c
        else (blockc.copyOut 0 c.writePos).bind fun bytes =>
          ((BufferBlock.new heap (max (blockc.capacity * 2) (c.writePos + size))).copyIn 0 bytes).bind
            fun newBlock => some { c with block := some newBlock } := by
      simp [Buffer.ensureWritable, h.block_eq, hfit, hc, hrc.block_eq]
    rw [hens]
    by_cases hfit' : size ≤ c.writable
    · refine ⟨c, blockc, freec, if_pos hfit', hrc, ?_, hcapc ▸ UInt64.le_refl _⟩
      rw [← hrc.toNat_writable]
      exact UInt64.le_iff_toNat_le.mp hfit'
    · have hpos : c.writePos.toNat ≤ b.writePos.toNat := by
        rw [hrc.writePos_eq, h.writePos_eq]
        simp [ByteQueue.forget]
      have hdouble : (blockc.capacity * 2).toNat = b.capacity.toNat * 2 := by
        rw [← hrc.capacity_eq, hcapc, UInt64.toNat_mul]
        exact Nat.mod_eq_of_lt hcap
      have hsum : (c.writePos + size).toNat = c.writePos.toNat + size.toNat := by
        rw [UInt64.toNat_add]
        exact Nat.mod_eq_of_lt (by omega)
      have hmax : (max (blockc.capacity * 2) (c.writePos + size)).toNat =
          max (b.capacity.toNat * 2) (c.writePos.toNat + size.toNat) := by
        rw [UInt64.toNat_max, hdouble, hsum]
      have hge : c.writePos.toNat ≤ (max (blockc.capacity * 2) (c.writePos + size)).toNat := by
        omega
      obtain ⟨bytes, block', hout, hin, hcap', free', hr'⟩ := hrc.grow heap hge
      refine ⟨_, block', free', ?_, hr', ?_, ?_⟩
      · rw [if_neg hfit', hout, Option.bind_some, hin, Option.bind_some]
      · have htotal := hr'.toNat_capacity
        have hw := hrc.writePos_eq
        rw [hr'.capacity_eq, hcap', hmax] at htotal
        omega
      · rw [hr'.capacity_eq, hcap', UInt64.le_iff_toNat_le, hmax]
        omega

theorem Represents.put (h : Represents b q block free) {data : Bytes} (hroom : data.length ≤ free.length)
    (hlen : (UInt64.ofNat data.length).toNat = data.length) :
    ∃ block', block.copyIn b.writePos data = some block' ∧ block'.capacity = block.capacity ∧
      Represents { b with block := some block', writePos := b.writePos + UInt64.ofNat data.length } (q.append data)
        block' (free.drop data.length) := by
  have hend : b.writePos.toNat = (q.consumed ++ q.content).length := by
    rw [h.writePos_eq, List.length_append]
  obtain ⟨block', hin, hcap, hdata⟩ := BufferBlock.copyIn_eq h.data_eq hend hroom
  refine ⟨block', hin, hcap, rfl, ?_, h.readPos_eq, ?_⟩
  · rw [hdata]
    simp only [ByteQueue.append, List.append_assoc]
  · have htotal := h.toNat_capacity
    have hword := b.capacity.toNat_lt
    rw [UInt64.toNat_add, hlen, h.writePos_eq, Nat.mod_eq_of_lt (by omega)]
    simp only [ByteQueue.append, List.length_append]
    omega

theorem Represents.write (h : Represents b q block free) (heap : Mem) {data : Bytes}
    (hfit : Fits b (.write heap data)) :
    ∃ b' block' free', b.write heap data = some b' ∧ b.capacity ≤ b'.capacity ∧
      Represents b' ((if b.writable < UInt64.ofNat data.length then q.forget else q).append data) block' free' := by
  obtain ⟨hcap, hsize⟩ := hfit
  have hlen : (UInt64.ofNat data.length).toNat = data.length := by
    apply UInt64.toNat_ofNat_of_lt'
    have hword : UInt64.size = 2 ^ 64 := rfl
    omega
  rw [← hlen] at hsize
  obtain ⟨c, blockc, freec, hc, hrc, hroom, hcapc⟩ := h.ensureWritable heap hcap hsize
  rw [hlen] at hroom
  obtain ⟨block', hin, hcap', hr⟩ := hrc.put hroom hlen
  refine ⟨_, block', _, ?_, ?_, hr⟩
  · simp [Buffer.write, hc, hrc.block_eq, hin]
  · rw [hr.capacity_eq, hcap', ← hrc.capacity_eq]
    exact hcapc

theorem Represents.advance (h : Represents b q block free) (n : UInt64) :
    Represents { b with readPos := b.readPos + min n b.readable } (q.take n.toNat) block free := by
  have hmin : (min n b.readable).toNat = min n.toNat q.content.length := by
    rw [UInt64.toNat_min, h.toNat_readable]
  have hword := b.writePos.toNat_lt
  have hw := h.writePos_eq
  refine ⟨h.block_eq, ?_, ?_, ?_⟩
  · rw [h.data_eq]
    simp only [ByteQueue.take, List.append_assoc, List.take_append_drop]
  · have hsum : b.readPos.toNat + min n.toNat q.content.length < 2 ^ 64 := by
      rw [h.readPos_eq]
      omega
    rw [UInt64.toNat_add, hmin, Nat.mod_eq_of_lt hsum, h.readPos_eq]
    simp only [ByteQueue.take, List.length_append, List.length_take]
  · rw [h.writePos_eq]
    simp only [ByteQueue.take, List.length_append, List.length_take, List.length_drop]
    omega

theorem Represents.read (h : Represents b q block free) (size : UInt64) :
    b.read size = some (b.skip size, UInt64.ofNat (q.content.take size.toNat).length, q.content.take size.toNat) := by
  have hmin : (min size b.readable).toNat = (q.content.take size.toNat).length := by
    rw [UInt64.toNat_min, h.toNat_readable, List.length_take]
  have hdata : block.data = q.consumed ++ q.content.take size.toNat ++ (q.content.drop size.toNat ++ free) := by
    rw [h.data_eq, List.append_assoc, List.append_assoc, ← List.append_assoc (q.content.take size.toNat),
      List.take_append_drop]
  have hout : block.copyOut b.readPos (min size b.readable) = some (q.content.take size.toNat) :=
    BufferBlock.copyOut_eq hdata h.readPos_eq hmin
  rw [← hmin, UInt64.ofNat_toNat]
  simp [Buffer.read, skip, h.block_eq, hout]

theorem Represents.retreat (h : Represents b q block free) (n : UInt64) :
    Represents (b.retreat n) (q.putBack n.toNat) block free := by
  have hmin : (min n b.readPos).toNat = min n.toNat q.consumed.length := by
    rw [UInt64.toNat_min, h.readPos_eq]
  have hle : min n b.readPos ≤ b.readPos := by
    rw [UInt64.le_iff_toNat_le, hmin, h.readPos_eq]
    omega
  refine ⟨h.block_eq, ?_, ?_, ?_⟩
  · rw [h.data_eq]
    simp only [ByteQueue.putBack]
    rw [← List.append_assoc (q.consumed.take _), List.take_append_drop]
  · rw [Buffer.retreat, UInt64.toNat_sub_of_le _ _ hle, hmin, h.readPos_eq]
    simp only [ByteQueue.putBack, List.length_take]
    omega
  · rw [Buffer.retreat, h.writePos_eq]
    simp only [ByteQueue.putBack, List.length_append, List.length_take, List.length_drop]
    omega

theorem Represents.clear (h : Represents b q block free) : Represents b.clear {} block block.data :=
  ⟨h.block_eq, rfl, rfl, rfl⟩

theorem Represents.apply (h : Represents b q block free) {op : Op} (hfit : Fits b op) :
    ∃ b' block' free', b.apply op = some (b', (q.apply (b.compacts op) op).2) ∧ b.capacity ≤ b'.capacity ∧
      Represents b' (q.apply (b.compacts op) op).1 block' free' := by
  cases op with
  | write heap data =>
      obtain ⟨b', block', free', hw, hcap, hr⟩ := h.write heap hfit
      refine ⟨b', block', free', ?_, hcap, ?_⟩
      · simp [Buffer.apply, hw, ByteQueue.apply]
      · simpa [ByteQueue.apply, compacts] using hr
  | read size =>
      refine ⟨b.skip size, block, free, ?_, UInt64.le_refl _, h.advance size⟩
      simp [Buffer.apply, h.read, ByteQueue.apply]
  | skip n => exact ⟨b.skip n, block, free, rfl, UInt64.le_refl _, h.advance n⟩
  | retreat n => exact ⟨b.retreat n, block, free, rfl, UInt64.le_refl _, h.retreat n⟩
  | clear => exact ⟨b.clear, block, block.data, rfl, UInt64.le_refl _, h.clear⟩
  | reset => exact ⟨b.reset, block, block.data, rfl, UInt64.le_refl _, h.clear⟩
  | compact =>
      obtain ⟨b', block', free', hc, hr, hcap⟩ := h.compact
      refine ⟨b', block', free', ?_, hcap ▸ UInt64.le_refl _, hr⟩
      simp [Buffer.apply, hc, ByteQueue.apply]

structure Holds (b : Buffer) (q : ByteQueue) : Prop where
  readPos_le : b.readPos ≤ b.writePos
  writePos_le : b.writePos ≤ b.capacity
  content_eq : b.asString = some q.content
  consumed_eq : b.readPos.toNat = q.consumed.length

theorem Represents.holds (h : Represents b q block free) : b.Holds q := by
  refine ⟨h.readPos_le, h.writePos_le, ?_, h.readPos_eq⟩
  have hout : block.copyOut b.readPos b.readable = some q.content :=
    BufferBlock.copyOut_eq h.data_eq h.readPos_eq h.toNat_readable
  simp [asString, h.block_eq, hout]

/-- The buffer stands for the queue, and as long as the sizes fit each call completes, gives its caller
what the queue gives and leads to a buffer of no smaller capacity that follows the queue. -/
def Follows : Buffer → ByteQueue → List Op → Prop
  | b, q, [] => b.Holds q
  | b, q, op :: ops =>
      b.Holds q ∧
        (b.Fits op → ∃ b', b.apply op = some (b', (q.apply (b.compacts op) op).2) ∧ b.capacity ≤ b'.capacity ∧
          Follows b' (q.apply (b.compacts op) op).1 ops)

theorem Represents.follows (h : Represents b q block free) (ops : List Op) : Follows b q ops := by
  induction ops generalizing b q block free with
  | nil => exact h.holds
  | cons op ops ih =>
      refine ⟨h.holds, fun hfit => ?_⟩
      obtain ⟨b', block', free', happly, hcap, hr⟩ := h.apply hfit
      exact ⟨b', happly, hcap, ih hr⟩

theorem ofCapacity_follows_byteQueue (heap : Mem) (capacity : UInt64) (ops : List Op) :
    Follows (ofCapacity heap capacity) {} ops := (represents_ofCapacity heap capacity).follows ops

theorem represents_write_default (heap : Mem) {data : Bytes} (hsize : data.length < 2 ^ 64) :
    ∃ b block free, write heap {} data = some b ∧ Represents b { content := data } block free := by
  have hlen : (UInt64.ofNat data.length).toNat = data.length := UInt64.toNat_ofNat_of_lt' hsize
  have hroom : data.length ≤ (slice heap 0 (max (UInt64.ofNat data.length) 4096).toNat).length := by
    rw [length_slice, UInt64.toNat_max, hlen]
    omega
  have hnew := represents_ofCapacity heap (max (UInt64.ofNat data.length) 4096)
  obtain ⟨block', hin, -, hr⟩ := hnew.put hroom hlen
  refine ⟨_, block', _, ?_, hr⟩
  simp only [ofCapacity] at hin
  simp [Buffer.write, Buffer.ensureWritable, ofCapacity, hin]

/-- A buffer made without a capacity gets its block with the first bytes written. -/
theorem write_default (heap : Mem) {data : Bytes} (hsize : data.length < 2 ^ 64) :
    ∃ b, write heap {} data = some b ∧ ∀ ops, Follows b { content := data } ops := by
  obtain ⟨b, block, free, hwrite, hr⟩ := represents_write_default heap hsize
  exact ⟨b, hwrite, hr.follows⟩

end Buffer

end CoroRpc.Net
