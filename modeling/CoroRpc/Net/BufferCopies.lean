import CoroRpc.Lib.Trace
import CoroRpc.Net.Buffer

namespace CoroRpc.Net

open Memory Trace

structure BufferRef where
  block : Option Nat
  readPos : UInt64
  writePos : UInt64

namespace BufferRef

variable (blocks : List BufferBlock)

def view (b : BufferRef) : Buffer := ⟨b.block.bind fun id => blocks[id]?, b.readPos, b.writePos⟩

def readable (b : BufferRef) : UInt64 := b.writePos - b.readPos

def compact (b : BufferRef) : Option (List BufferBlock × BufferRef) :=
  if 0 < b.readPos then do
    let id ← b.block
    let block ← blocks[id]?
    let bytes ← block.copyOut b.readPos b.readable
    let block ← block.copyIn 0 bytes
    some (blocks.set id block, { b with readPos := 0, writePos := b.readable })
  else some (blocks, b)

def ensureWritable (heap : Mem) (b : BufferRef) (size : UInt64) : Option (List BufferBlock × BufferRef) :=
  match b.block with
  | none => some (blocks ++ [.new heap (max size 4096)], { b with block := some blocks.length })
  | some id => do
      let block ← blocks[id]?
      if size ≤ block.capacity - b.writePos then some (blocks, b)
      else do
        let (blocks, b) ← b.compact blocks
        let block ← blocks[id]?
        if size ≤ block.capacity - b.writePos then some (blocks, b)
        else do
          let newCapacity := max (block.capacity * 2) (b.writePos + size)
          let bytes ← block.copyOut 0 b.writePos
          let newBlock ← (BufferBlock.new heap newCapacity).copyIn 0 bytes
          some (blocks ++ [newBlock], { b with block := some blocks.length })

def write (heap : Mem) (b : BufferRef) (data : Bytes) : Option (List BufferBlock × BufferRef) := do
  let size := UInt64.ofNat data.length
  let (blocks, b) ← b.ensureWritable blocks heap size
  let id ← b.block
  let block ← blocks[id]?
  let block ← block.copyIn b.writePos data
  some (blocks.set id block, { b with writePos := b.writePos + size })

def read (b : BufferRef) (size : UInt64) : Option (List BufferBlock × BufferRef) := do
  let size := min size b.readable
  let id ← b.block
  let block ← blocks[id]?
  let _ ← block.copyOut b.readPos size
  some (blocks, { b with readPos := b.readPos + size })

def apply (b : BufferRef) : Buffer.Op → Option (List BufferBlock × BufferRef)
  | .write heap data => b.write blocks heap data
  | .read size => b.read blocks size
  | .skip n => some (blocks, { b with readPos := b.readPos + min n b.readable })
  | .retreat n => some (blocks, { b with readPos := b.readPos - min n b.readPos })
  | .clear => some (blocks, { b with readPos := 0, writePos := 0 })
  | .reset => some (blocks, { b with readPos := 0, writePos := 0 })
  | .compact => b.compact blocks

def content (b : BufferRef) : Option Bytes :=
  (b.view blocks).block.map fun block => (block.data.drop b.readPos.toNat).take b.readable.toNat

def moved (b : BufferRef) (block : BufferBlock) : List Put :=
  if 0 < b.readPos then [⟨0, (block.data.drop b.readPos.toNat).take b.readable.toNat⟩] else []

def movedEnd (b : BufferRef) : UInt64 := if 0 < b.readPos then b.readable else b.writePos

def puts (b : BufferRef) (block : BufferBlock) : Buffer.Op → List Put
  | .compact => b.moved block
  | .write _ data =>
      let size := UInt64.ofNat data.length
      if size ≤ block.capacity - b.writePos then [⟨b.writePos.toNat, data⟩]
      else b.moved block ++ if size ≤ block.capacity - b.movedEnd then [⟨b.movedEnd.toNat, data⟩] else []
  | _ => []

end BufferRef

theorem BufferBlock.copyIn_spec {block block' : BufferBlock} {pos : UInt64} {bytes : Bytes}
    (h : block.copyIn pos bytes = some block') :
    pos.toNat + bytes.length ≤ block.data.length ∧ block'.data = store block.data pos.toNat bytes ∧
      block'.capacity = block.capacity := by
  rw [BufferBlock.copyIn] at h
  split at h
  · next hle =>
      cases h
      exact ⟨hle, rfl, rfl⟩
  · cases h

theorem BufferBlock.copyOut_spec {block : BufferBlock} {pos len : UInt64} {bytes : Bytes}
    (h : block.copyOut pos len = some bytes) : bytes = (block.data.drop pos.toNat).take len.toNat := by
  rw [BufferBlock.copyOut] at h
  split at h
  · exact (Option.some.inj h).symm
  · cases h

/-- The blocks that were there are there, and `ps` was copied into the one with this number. -/
def Stored (blocks blocks' : List BufferBlock) (id : Nat) (ps : List Put) : Prop :=
  ∀ (k : Nat) (block : BufferBlock), blocks[k]? = some block →
    ∃ block', blocks'[k]? = some block' ∧ block'.capacity = block.capacity ∧
      ∀ i : Nat, block'.data[i]? = (if k = id then lastByte ps i else none).or block.data[i]?

namespace Stored

variable {blocks blocks' blocks'' : List BufferBlock} {id : Nat} {ps qs : List Put}

theorem refl (blocks : List BufferBlock) (id : Nat) : Stored blocks blocks id [] := by
  intro k block hk
  refine ⟨block, hk, rfl, fun i => ?_⟩
  split <;> rfl

theorem trans (h : Stored blocks blocks' id ps) (h' : Stored blocks' blocks'' id qs) :
    Stored blocks blocks'' id (ps ++ qs) := by
  intro k block hk
  obtain ⟨block', hk', hcap, hdata⟩ := h k block hk
  obtain ⟨block'', hk'', hcap', hdata'⟩ := h' k block' hk'
  refine ⟨block'', hk'', hcap'.trans hcap, fun i => ?_⟩
  rw [hdata', hdata, ← Option.or_assoc]
  by_cases heq : k = id
  · rw [if_pos heq, if_pos heq, if_pos heq, lastByte_append]
  · rw [if_neg heq, if_neg heq, if_neg heq, Option.none_or]

theorem copyIn {block block' : BufferBlock} {pos : UInt64} {bytes : Bytes} (hid : blocks[id]? = some block)
    (h : block.copyIn pos bytes = some block') :
    Stored blocks (blocks.set id block') id [⟨pos.toNat, bytes⟩] := by
  obtain ⟨hle, hdata, hcap⟩ := BufferBlock.copyIn_spec h
  have hlt : id < blocks.length := (List.getElem?_eq_some_iff.mp hid).1
  intro k other hk
  by_cases heq : k = id
  · subst heq
    rw [hid] at hk
    cases hk
    refine ⟨block', by rw [List.getElem?_set_self hlt], hcap, fun i => ?_⟩
    rw [hdata, getElem?_put hle, if_pos rfl]
  · refine ⟨other, by rw [List.getElem?_set_ne (Ne.symm heq)]; exact hk, rfl, fun i => ?_⟩
    rw [if_neg heq, Option.none_or]

theorem fresh (h : Stored blocks blocks' id ps) (block : BufferBlock) :
    Stored blocks (blocks' ++ [block]) id ps := by
  intro k other hk
  obtain ⟨other', hk', hcap, hdata⟩ := h k other hk
  refine ⟨other', ?_, hcap, hdata⟩
  rw [List.getElem?_append_left (List.getElem?_eq_some_iff.mp hk').1]
  exact hk'

theorem set_fresh (h : Stored blocks blocks' id ps) {n : Nat} (hn : blocks.length ≤ n) (block : BufferBlock) :
    Stored blocks (blocks'.set n block) id ps := by
  intro k other hk
  obtain ⟨other', hk', hcap, hdata⟩ := h k other hk
  have hlt : k < blocks.length := (List.getElem?_eq_some_iff.mp hk).1
  refine ⟨other', ?_, hcap, hdata⟩
  rw [List.getElem?_set_ne (by omega)]
  exact hk'

theorem length_le (h : Stored blocks blocks' id ps) : blocks.length ≤ blocks'.length := by
  by_contra hlt
  have hget : blocks[blocks'.length]? = some blocks[blocks'.length] :=
    List.getElem?_eq_getElem (Nat.not_le.mp hlt)
  obtain ⟨block', hk, -, -⟩ := h _ _ hget
  exact absurd (List.getElem?_eq_some_iff.mp hk).1 (Nat.lt_irrefl _)

end Stored

namespace BufferRef

variable {blocks blocks' : List BufferBlock} {b b' : BufferRef}

theorem compact_spec {id : Nat} {block : BufferBlock} (hid : b.block = some id) (hblock : blocks[id]? = some block)
    (h : b.compact blocks = some (blocks', b')) :
    Stored blocks blocks' id (b.moved block) ∧ b'.block = some id ∧
      b'.writePos = b.movedEnd := by
  rw [compact] at h
  by_cases hpos : 0 < b.readPos
  · simp only [if_pos hpos, hid, hblock, Option.bind_eq_bind, Option.bind_some] at h
    obtain ⟨bytes, hout, hrest⟩ := Option.bind_eq_some_iff.mp h
    obtain ⟨block', hin, heq⟩ := Option.bind_eq_some_iff.mp hrest
    cases heq
    rw [moved, movedEnd, if_pos hpos, if_pos hpos, ← BufferBlock.copyOut_spec hout]
    exact ⟨Stored.copyIn hblock hin, rfl, rfl⟩
  · rw [if_neg hpos] at h
    cases h
    rw [moved, movedEnd, if_neg hpos, if_neg hpos]
    exact ⟨Stored.refl blocks id, hid, rfl⟩

/-- The three ways to make room: there is room behind the bytes, or in front of them, or in a new block. -/
theorem ensureWritable_spec {id : Nat} {block : BufferBlock} {heap : Mem} {size : UInt64} (hid : b.block = some id)
    (hblock : blocks[id]? = some block) (h : b.ensureWritable blocks heap size = some (blocks', b')) :
    size ≤ block.capacity - b.writePos ∧ blocks' = blocks ∧ b' = b ∨
      ¬size ≤ block.capacity - b.writePos ∧ Stored blocks blocks' id (b.moved block) ∧
        (size ≤ block.capacity - b.movedEnd ∧ b'.block = some id ∧ b'.writePos = b.movedEnd ∨
          ¬size ≤ block.capacity - b.movedEnd ∧ ∃ n, blocks.length ≤ n ∧ b'.block = some n) := by
  simp only [ensureWritable, hid, hblock, Option.bind_eq_bind, Option.bind_some] at h
  split at h
  · next hfit =>
      cases h
      exact .inl ⟨hfit, rfl, rfl⟩
  · next hfit =>
      obtain ⟨⟨blocks₁, b₁⟩, hcompact, hrest⟩ := Option.bind_eq_some_iff.mp h
      obtain ⟨hstored, hid₁, hpos₁⟩ := compact_spec hid hblock hcompact
      obtain ⟨block₁, hblock₁, hcap, -⟩ := hstored id block hblock
      simp only [hblock₁, Option.bind_some, hcap, hpos₁] at hrest
      split at hrest
      · next hfit₁ =>
          cases hrest
          exact .inr ⟨hfit, hstored, .inl ⟨hfit₁, hid₁, hpos₁⟩⟩
      · next hfit₁ =>
          obtain ⟨bytes, -, hnew⟩ := Option.bind_eq_some_iff.mp hrest
          obtain ⟨newBlock, -, heq⟩ := Option.bind_eq_some_iff.mp hnew
          cases heq
          exact .inr ⟨hfit, hstored.fresh newBlock, .inr ⟨hfit₁, _, hstored.length_le, rfl⟩⟩

theorem write_stored {id : Nat} {block : BufferBlock} {heap : Mem} {data : Bytes} (hid : b.block = some id)
    (hblock : blocks[id]? = some block) (h : b.write blocks heap data = some (blocks', b')) :
    Stored blocks blocks' id (b.puts block (.write heap data)) := by
  simp only [write, Option.bind_eq_bind] at h
  obtain ⟨⟨blocks₁, b₁⟩, hensure, hrest⟩ := Option.bind_eq_some_iff.mp h
  obtain ⟨id₁, hid₁, hrest⟩ := Option.bind_eq_some_iff.mp hrest
  obtain ⟨block₁, hblock₁, hrest⟩ := Option.bind_eq_some_iff.mp hrest
  obtain ⟨block₂, hin, heq⟩ := Option.bind_eq_some_iff.mp hrest
  cases heq
  rcases ensureWritable_spec hid hblock hensure with ⟨hfit, rfl, rfl⟩ | ⟨hfit, hstored, hroom⟩
  · rw [hid] at hid₁
    cases hid₁
    rw [puts, if_pos hfit]
    exact Stored.copyIn hblock₁ hin
  · rw [puts, if_neg hfit]
    rcases hroom with ⟨hfit₁, hsame, hpos⟩ | ⟨hfit₁, n, hn, hnew⟩
    · rw [hsame] at hid₁
      cases hid₁
      rw [if_pos hfit₁, ← hpos]
      exact hstored.trans (Stored.copyIn hblock₁ hin)
    · rw [hnew] at hid₁
      cases hid₁
      rw [if_neg hfit₁, List.append_nil]
      exact hstored.set_fresh hn block₂

theorem read_blocks {size : UInt64} (h : b.read blocks size = some (blocks', b')) : blocks' = blocks := by
  simp only [read, Option.bind_eq_bind] at h
  obtain ⟨id, -, hrest⟩ := Option.bind_eq_some_iff.mp h
  obtain ⟨block, -, hrest⟩ := Option.bind_eq_some_iff.mp hrest
  obtain ⟨bytes, -, heq⟩ := Option.bind_eq_some_iff.mp hrest
  cases heq
  rfl

theorem apply_stored {id : Nat} {block : BufferBlock} {op : Buffer.Op} (hid : b.block = some id)
    (hblock : blocks[id]? = some block) (h : b.apply blocks op = some (blocks', b')) :
    Stored blocks blocks' id (b.puts block op) := by
  cases op with
  | write heap data => exact write_stored hid hblock h
  | compact => exact (compact_spec hid hblock h).1
  | read size =>
      rw [read_blocks h]
      exact Stored.refl blocks id
  | skip n | retreat n | clear | reset =>
      cases h
      exact Stored.refl blocks id

theorem apply_stored_none {op : Buffer.Op} (hnone : (b.view blocks).block = none)
    (h : b.apply blocks op = some (blocks', b')) (id : Nat) : Stored blocks blocks' id [] := by
  cases op with
  | write heap data =>
      simp only [apply, write, Option.bind_eq_bind] at h
      obtain ⟨⟨blocks₁, b₁⟩, hensure, hrest⟩ := Option.bind_eq_some_iff.mp h
      obtain ⟨id₁, hid₁, hrest⟩ := Option.bind_eq_some_iff.mp hrest
      obtain ⟨block₁, hblock₁, hrest⟩ := Option.bind_eq_some_iff.mp hrest
      obtain ⟨block₂, hin, heq⟩ := Option.bind_eq_some_iff.mp hrest
      cases heq
      cases hid : b.block with
      | none =>
          simp only [ensureWritable, hid, Option.some.injEq, Prod.mk.injEq] at hensure
          obtain ⟨rfl, rfl⟩ := hensure
          cases hid₁
          exact ((Stored.refl blocks id).fresh _).set_fresh (Nat.le_refl _) block₂
      | some k =>
          have hdangling : blocks[k]? = none := by
            simpa [view, hid] using hnone
          simp only [ensureWritable, hid, hdangling, Option.bind_eq_bind, Option.bind_none] at hensure
          cases hensure
  | compact =>
      simp only [apply, compact] at h
      split at h
      · obtain ⟨k, hid, hrest⟩ := Option.bind_eq_some_iff.mp h
        have hdangling : blocks[k]? = none := by
          simpa [view, hid] using hnone
        simp only [hdangling, Option.bind_eq_bind, Option.bind_none] at hrest
        cases hrest
      · cases h
        exact Stored.refl blocks id
  | read size =>
      rw [read_blocks h]
      exact Stored.refl blocks id
  | skip n | retreat n | clear | reset =>
      cases h
      exact Stored.refl blocks id

section View

theorem view_some {id : Nat} {block : BufferBlock} (hid : b.block = some id) (hblock : blocks[id]? = some block) :
    b.view blocks = ⟨some block, b.readPos, b.writePos⟩ := by
  rw [view, hid, Option.bind_some, hblock]

theorem view_set {id : Nat} {block : BufferBlock} (hblock : blocks[id]? = some block) (block' : BufferBlock)
    (readPos writePos : UInt64) :
    view (blocks.set id block') ⟨some id, readPos, writePos⟩ = ⟨some block', readPos, writePos⟩ := by
  have hlt : id < blocks.length := (List.getElem?_eq_some_iff.mp hblock).1
  exact view_some rfl (List.getElem?_set_self hlt)

theorem view_fresh (block : BufferBlock) (readPos writePos : UInt64) :
    view (blocks ++ [block]) ⟨some blocks.length, readPos, writePos⟩ = ⟨some block, readPos, writePos⟩ :=
  view_some rfl List.getElem?_concat_length

theorem compact_view (h : b.compact blocks = some (blocks', b')) :
    (b.view blocks).compact = some (b'.view blocks') := by
  rw [compact] at h
  rw [Buffer.compact]
  by_cases hpos : 0 < b.readPos
  · have hview : 0 < (b.view blocks).readPos := hpos
    rw [if_pos hpos] at h
    obtain ⟨id, hid, hrest⟩ := Option.bind_eq_some_iff.mp h
    obtain ⟨block, hblock, hrest⟩ := Option.bind_eq_some_iff.mp hrest
    obtain ⟨bytes, hout, hrest⟩ := Option.bind_eq_some_iff.mp hrest
    obtain ⟨block', hin, heq⟩ := Option.bind_eq_some_iff.mp hrest
    cases heq
    have hout' : block.copyOut b.readPos (Buffer.readable ⟨some block, b.readPos, b.writePos⟩) = some bytes := hout
    rw [if_pos hview, view_some hid hblock, hid, view_set hblock]
    simp only [Option.bind_eq_bind, Option.bind_some, hout', hin]
    rfl
  · have hview : ¬0 < (b.view blocks).readPos := hpos
    rw [if_neg hpos] at h
    cases h
    rw [if_neg hview]

theorem ensureWritable_view {heap : Mem} {size : UInt64} (h : b.ensureWritable blocks heap size = some (blocks', b')) :
    (b.view blocks).ensureWritable heap size = some (b'.view blocks') := by
  cases hid : b.block with
  | none =>
      simp only [ensureWritable, hid, Option.some.injEq, Prod.mk.injEq] at h
      obtain ⟨rfl, rfl⟩ := h
      rw [view_fresh]
      simp [Buffer.ensureWritable, view, hid]
  | some id =>
      simp only [ensureWritable, hid, Option.bind_eq_bind] at h
      obtain ⟨block, hblock, hrest⟩ := Option.bind_eq_some_iff.mp h
      have hwritable : (b.view blocks).writable = block.capacity - b.writePos := by
        rw [view_some hid hblock]
        rfl
      have hensure : (b.view blocks).ensureWritable heap size =
          if size ≤ (b.view blocks).writable then some (b.view blocks)
          else (b.view blocks).compact.bind fun c =>
            if size ≤ c.writable then some c
            else c.block.bind fun block =>
              (block.copyOut 0 c.writePos).bind fun bytes =>
                ((BufferBlock.new heap (max (block.capacity * 2) (c.writePos + size))).copyIn 0 bytes).bind
                  fun newBlock => some { c with block := some newBlock } := by
        rw [view_some hid hblock]
        rfl
      rw [hensure, hwritable]
      split at hrest
      · next hfit =>
          cases hrest
          rw [if_pos hfit]
      · next hfit =>
          obtain ⟨⟨blocks₁, b₁⟩, hcompact, hrest⟩ := Option.bind_eq_some_iff.mp hrest
          obtain ⟨block₁, hblock₁, hrest⟩ := Option.bind_eq_some_iff.mp hrest
          have hid₁ := (compact_spec hid hblock hcompact).2.1
          rw [if_neg hfit, compact_view hcompact, Option.bind_some, view_some hid₁ hblock₁]
          split at hrest
          · next hfit₁ =>
              cases hrest
              have hfit' : size ≤ Buffer.writable ⟨some block₁, b₁.readPos, b₁.writePos⟩ := hfit₁
              rw [if_pos hfit', view_some hid₁ hblock₁]
          · next hfit₁ =>
              obtain ⟨bytes, hout, hrest⟩ := Option.bind_eq_some_iff.mp hrest
              obtain ⟨newBlock, hin, heq⟩ := Option.bind_eq_some_iff.mp hrest
              cases heq
              have hfit' : ¬size ≤ Buffer.writable ⟨some block₁, b₁.readPos, b₁.writePos⟩ := hfit₁
              rw [if_neg hfit', view_fresh, Option.bind_some]
              simp only [hout, Option.bind_some, hin]

/-- Each call does with the block of the store what it does with a block of its own. -/
theorem apply_view {op : Buffer.Op} (h : b.apply blocks op = some (blocks', b')) :
    ∃ out, (b.view blocks).apply op = some (b'.view blocks', out) := by
  cases op with
  | write heap data =>
      obtain ⟨⟨blocks₁, b₁⟩, hensure, hrest⟩ := Option.bind_eq_some_iff.mp h
      obtain ⟨id, hid, hrest⟩ := Option.bind_eq_some_iff.mp hrest
      obtain ⟨block, hblock, hrest⟩ := Option.bind_eq_some_iff.mp hrest
      obtain ⟨block', hin, heq⟩ := Option.bind_eq_some_iff.mp hrest
      cases heq
      refine ⟨none, ?_⟩
      simp only [Buffer.apply, Buffer.write, Option.bind_eq_bind, ensureWritable_view hensure, Option.bind_some,
        view_some hid hblock, hin, hid, view_set hblock, Option.map_some]
  | read size =>
      obtain ⟨id, hid, hrest⟩ := Option.bind_eq_some_iff.mp h
      obtain ⟨block, hblock, hrest⟩ := Option.bind_eq_some_iff.mp hrest
      obtain ⟨bytes, hout, heq⟩ := Option.bind_eq_some_iff.mp hrest
      cases heq
      have hout' : block.copyOut b.readPos (min size (Buffer.readable ⟨some block, b.readPos, b.writePos⟩)) =
          some bytes := hout
      refine ⟨some (min size b.readable, bytes), ?_⟩
      rw [view_some hid hblock]
      simp only [Buffer.apply, Buffer.read, Option.bind_eq_bind, Option.bind_some, hout', Option.map_some]
      rw [view, hid, Option.bind_some, hblock]
      rfl
  | compact =>
      refine ⟨none, ?_⟩
      rw [Buffer.apply, compact_view h]
      rfl
  | skip n | retreat n | clear | reset =>
      cases h
      exact ⟨none, rfl⟩

end View

end BufferRef

structure Copies where
  blocks : List BufferBlock
  own : BufferRef
  copy : BufferRef

namespace Copies

def of (others : List BufferBlock) (b : Buffer) : Copies :=
  let ref : BufferRef := ⟨b.block.map fun _ => others.length, b.readPos, b.writePos⟩
  ⟨others ++ b.block.toList, ref, ref⟩

def step (s : Copies) (op : Buffer.Op) : Option Copies :=
  (s.own.apply s.blocks op).map fun r => { s with blocks := r.1, own := r.2 }

def kept (s : Copies) : Option Bytes := s.copy.content s.blocks

/-- Where the call copies into the block of the copy, it puts no other byte in the place of one that can
be read there. -/
def Spares (s : Copies) (op : Buffer.Op) : Prop :=
  s.own.block = s.copy.block → ∀ block ∈ (s.copy.view s.blocks).block, ∀ i byte,
    s.copy.readPos.toNat ≤ i → i < s.copy.readPos.toNat + s.copy.readable.toNat →
      lastByte (s.own.puts block op) i = some byte → block.data[i]? = some byte

def Valid (s : Copies) : Prop := ∀ id ∈ s.copy.block, id < s.blocks.length

variable {s t : Copies} {op : Buffer.Op}

theorem view_of (others : List BufferBlock) (b : Buffer) : (of others b).copy.view (of others b).blocks = b := by
  obtain ⟨block, readPos, writePos⟩ := b
  cases block with
  | none => rfl
  | some block => exact BufferRef.view_fresh block readPos writePos

theorem valid_of (others : List BufferBlock) (b : Buffer) : (of others b).Valid := by
  intro id hid
  obtain ⟨block, hblock, rfl⟩ := Option.map_eq_some_iff.mp hid
  simp only [of, hblock, Option.toList_some, List.length_append, List.length_singleton]
  exact Nat.lt_succ_self _

theorem step_cases (h : s.step op = some t) :
    ∃ blocks own, s.own.apply s.blocks op = some (blocks, own) ∧ t = ⟨blocks, own, s.copy⟩ := by
  obtain ⟨⟨blocks, own⟩, happly, rfl⟩ := Option.map_eq_some_iff.mp h
  exact ⟨blocks, own, happly, rfl⟩

theorem step_block (h : s.step op = some t) {id : Nat} {block : BufferBlock} (hblock : s.blocks[id]? = some block) :
    ∃ block', t.blocks[id]? = some block' ∧ ∀ i : Nat,
      block'.data[i]? =
        (if s.own.block = some id then lastByte (s.own.puts block op) i else none).or block.data[i]? := by
  obtain ⟨blocks, own, happly, rfl⟩ := step_cases h
  by_cases hshared : s.own.block = some id
  · obtain ⟨block', hblock', -, hdata⟩ := BufferRef.apply_stored hshared hblock happly id block hblock
    refine ⟨block', hblock', fun i => ?_⟩
    rw [hdata, if_pos rfl, if_pos hshared]
  · simp only [if_neg hshared]
    cases hview : (s.own.view s.blocks).block with
    | none =>
        obtain ⟨block', hblock', -, hdata⟩ := BufferRef.apply_stored_none hview happly id id block hblock
        refine ⟨block', hblock', fun i => ?_⟩
        rw [hdata, if_pos rfl]
        rfl
    | some other =>
        -- the call copies into the block of another number
        obtain ⟨k, hk, hother⟩ := Option.bind_eq_some_iff.mp hview
        obtain ⟨block', hblock', -, hdata⟩ := BufferRef.apply_stored hk hother happly id block hblock
        refine ⟨block', hblock', fun i => ?_⟩
        rw [hdata, if_neg]
        rintro rfl
        exact hshared hk

theorem Valid.step (hv : s.Valid) (h : s.step op = some t) : t.Valid := by
  intro id hid
  obtain ⟨blocks, own, -, rfl⟩ := step_cases h
  have hlt := hv id hid
  obtain ⟨block', hblock', -⟩ := step_block h (List.getElem?_eq_getElem hlt)
  exact (List.getElem?_eq_some_iff.mp hblock').1

theorem or_eq_right_iff {α : Type} {x y : Option α} : x.or y = y ↔ ∀ a, x = some a → y = some a := by
  cases x with
  | none => simp
  | some a => simp [eq_comm]

theorem kept_step_iff (hv : s.Valid) (h : s.step op = some t) : t.kept = s.kept ↔ s.Spares op := by
  have hcopy : t.copy = s.copy := by
    obtain ⟨blocks, own, -, rfl⟩ := step_cases h
    rfl
  rw [kept, kept, hcopy, BufferRef.content, BufferRef.content, Spares]
  cases hid : s.copy.block with
  | none => simp [BufferRef.view, hid]
  | some id =>
      have hblock := List.getElem?_eq_getElem (hv id hid)
      obtain ⟨block', hblock', hdata⟩ := step_block h hblock
      rw [BufferRef.view_some hid hblock, BufferRef.view_some hid hblock']
      simp only [Option.map_some, Option.some.injEq, take_drop_eq_iff, hdata, or_eq_right_iff, Option.mem_def,
        forall_eq']
      constructor
      · intro hsame hshared i byte hlow hhigh hput
        apply hsame i hlow hhigh
        rw [if_pos hshared]
        exact hput
      · intro hspares i hlow hhigh byte hput
        by_cases hshared : s.own.block = some id
        · rw [if_pos hshared] at hput
          exact hspares hshared i byte hlow hhigh hput
        · rw [if_neg hshared] at hput
          cases hput

end Copies

/-- The bytes that can be read from a copy of a buffer stay as they are in a run of calls on the buffer,
if and only if no call puts another byte in their place: the two share their block. -/
theorem copy_kept_iff (others : List BufferBlock) (b : Buffer) (ops : List Buffer.Op) (t : Copies)
    (h : run Copies.step (.of others b) ops = some t) :
    Throughout Copies.step (fun s => s.kept = (Copies.of others b).kept) (.of others b) ops ↔
      EachStep Copies.step Copies.Spares (.of others b) ops := by
  apply throughout_iff (I := Copies.Valid) (P := fun s => s.kept = (Copies.of others b).kept) _ _
    (Copies.valid_of others b) rfl h
  · intro _ _ _ hv hs
    exact hv.step hs
  · intro _ _ _ hv hP hs
    rw [← hP]
    exact Copies.kept_step_iff hv hs

def twoBytes : Buffer := ⟨some ⟨[1, 2, 0, 0], 4, rfl⟩, 0, 2⟩

/-- A write behind the bytes is not seen by the copy. -/
theorem copy_kept_appended :
    ∃ t, run Copies.step (.of [] twoBytes) [.skip 1, .write (fun _ => 0) [3]] = some t ∧
      t.own.content t.blocks = some [2, 3] ∧ t.kept = some [1, 2] := by
  have hskip : (Copies.of [] twoBytes).Spares (.skip 1) := by
    intro _ block _ i byte _ _ hput
    cases hput
  have hwrite : ∀ t, (Copies.of [] twoBytes).step (.skip 1) = some t → t.Spares (.write (fun _ => 0) [3]) := by
    rintro t ⟨⟩ _ block hblock i byte _ hi hput
    cases hblock
    have hi : i < 2 := hi
    rw [show lastByte _ i = none from ?_] at hput
    · cases hput
    · interval_cases i <;> rfl
  have hC : EachStep Copies.step Copies.Spares (.of [] twoBytes) [.skip 1, .write (fun _ => 0) [3]] :=
    (eachStep_cons rfl).mpr ⟨hskip, (eachStep_cons rfl).mpr ⟨hwrite _ rfl, eachStep_nil⟩⟩
  exact ⟨_, rfl, rfl, (copy_kept_iff [] twoBytes _ _ rfl).mpr hC _ _ List.prefix_rfl rfl⟩

/-- A write after `clear` is. -/
theorem copy_not_kept :
    (Copies.of [] twoBytes).kept = some [1, 2] ∧
      ∃ t, run Copies.step (.of [] twoBytes) [.clear, .write (fun _ => 0) [9]] = some t ∧ t.kept = some [9, 2] := by
  exact ⟨rfl, _, rfl, rfl⟩

end CoroRpc.Net
