import CoroRpc.Net.Buffer

namespace CoroRpc.Net

open Memory

namespace Buffer

def ofString (heap : Mem) (str : Bytes) : Option Buffer :=
  (ofCapacity heap (UInt64.ofNat str.length)).write heap str

inductive Reachable : Buffer → Prop
  | default : Reachable {}
  | ofCapacity (heap : Mem) (capacity : UInt64) : Reachable (.ofCapacity heap capacity)
  | apply {b b' : Buffer} {op : Op} {out : Option (UInt64 × Bytes)} (h : Reachable b) (hfit : b.Fits op)
      (hop : b.apply op = some (b', out)) : Reachable b'

def content (b : Buffer) : Bytes :=
  match b.block with
  | none => []
  | some block => (block.data.drop b.readPos.toNat).take b.readable.toNat

theorem min_zero (n : UInt64) : min n 0 = 0 := by
  apply UInt64.toNat_inj.mp
  rw [UInt64.toNat_min]
  exact Nat.min_zero _

theorem skip_default (n : UInt64) : ({} : Buffer).skip n = {} := by
  show ({ readPos := 0 + min n 0 } : Buffer) = {}
  rw [min_zero]
  rfl

theorem retreat_default (n : UInt64) : ({} : Buffer).retreat n = {} := by
  show ({ readPos := 0 - min n 0 } : Buffer) = {}
  rw [min_zero]
  rfl

theorem Reachable.cases {b : Buffer} (h : b.Reachable) :
    b = {} ∨ ∃ q block free, b.Represents q block free := by
  induction h with
  | default => exact .inl rfl
  | ofCapacity heap capacity => exact .inr ⟨_, _, _, represents_ofCapacity heap capacity⟩
  | @apply b b' op out _ hfit hop ih =>
      rcases ih with rfl | ⟨q, block, free, hr⟩
      · cases op with
        | write heap data =>
            have hsize : data.length < 2 ^ 64 := by
              have hsum := hfit.2
              omega
            obtain ⟨b'', block, free, hwrite, hr⟩ := represents_write_default heap hsize
            simp only [Buffer.apply, hwrite, Option.map_some, Option.some.injEq, Prod.mk.injEq] at hop
            exact .inr ⟨_, block, free, hop.1 ▸ hr⟩
        | read size => cases hop
        | skip n =>
            cases hop
            exact .inl (skip_default n)
        | retreat n =>
            cases hop
            exact .inl (retreat_default n)
        | clear | reset | compact =>
            cases hop
            exact .inl rfl
      · obtain ⟨b'', block', free', happly, -, hr'⟩ := hr.apply hfit
        rw [happly] at hop
        cases hop
        exact .inr ⟨_, block', free', hr'⟩

structure Sound (b : Buffer) : Prop where
  copyOut : ∀ block ∈ b.block, block.copyOut b.readPos b.readable = some b.content
  length : b.content.length = b.readable.toNat

theorem Represents.copyOut {b : Buffer} {q : ByteQueue} {block : BufferBlock} {free : Bytes}
    (h : b.Represents q block free) : block.copyOut b.readPos b.readable = some q.content :=
  BufferBlock.copyOut_eq h.data_eq h.readPos_eq h.toNat_readable

theorem Represents.content_eq {b : Buffer} {q : ByteQueue} {block : BufferBlock} {free : Bytes}
    (h : b.Represents q block free) : b.content = q.content := by
  have hout := h.copyOut
  rw [BufferBlock.copyOut] at hout
  split at hout
  · rw [content, h.block_eq]
    exact Option.some.inj hout
  · cases hout

theorem Represents.sound {b : Buffer} {q : ByteQueue} {block : BufferBlock} {free : Bytes}
    (h : b.Represents q block free) : b.Sound := by
  constructor
  · rintro _ hblock
    rw [h.block_eq] at hblock
    cases hblock
    rw [h.copyOut, h.content_eq]
  · rw [h.content_eq, h.toNat_readable]

theorem Reachable.sound {b : Buffer} (h : b.Reachable) : b.Sound := by
  rcases h.cases with rfl | ⟨q, block, free, hr⟩
  · exact ⟨nofun, rfl⟩
  · exact hr.sound

theorem Sound.empty {b : Buffer} (h : b.Sound) (hnone : b.block = none) : b.content = [] ∧ ¬0 < b.readable := by
  have hcontent : b.content = [] := by
    rw [content, hnone]
  refine ⟨hcontent, ?_⟩
  rw [UInt64.lt_iff_toNat_lt, ← h.length, hcontent]
  exact Nat.lt_irrefl 0

end Buffer

inductive ChainFault
  | nullBlock
  | outOfBlock
  | lengthError
  deriving DecidableEq

structure Iovec where
  base : BufferBlock
  off : UInt64
  len : UInt64

def Iovec.bytes (v : Iovec) : Option Bytes := v.base.copyOut v.off v.len

structure BufferChain where
  buffers : List Buffer := []

namespace BufferChain

def append (c : BufferChain) (b : Buffer) : BufferChain := ⟨c.buffers ++ [b]⟩

def appendString (heap : Mem) (c : BufferChain) (str : Bytes) : Option BufferChain :=
  (Buffer.ofString heap str).map c.append

def totalSize (c : BufferChain) : UInt64 := c.buffers.foldl (fun total b => total + b.readable) 0

def appendTo (result : Bytes) (b : Buffer) : Except ChainFault Bytes :=
  match b.block with
  | none => .error .nullBlock
  | some block =>
      match block.copyOut b.readPos b.readable with
      | none => .error .outOfBlock
      | some bytes =>
          if result.length + bytes.length < 2 ^ 63 then .ok (result ++ bytes) else .error .lengthError

def toStringLoop : List Buffer → Bytes → Except ChainFault Bytes
  | [], result => .ok result
  | b :: bs, result => appendTo result b >>= toStringLoop bs

def toString (c : BufferChain) : Except ChainFault Bytes :=
  if c.totalSize.toNat < 2 ^ 63 then toStringLoop c.buffers [] else .error .lengthError

def toIovecLoop : List Buffer → Option (List Iovec)
  | [] => some []
  | b :: bs =>
      if 0 < b.readable then do
        let block ← b.block
        let vecs ← toIovecLoop bs
        some (⟨block, b.readPos, b.readable⟩ :: vecs)
      else toIovecLoop bs

def toIovec (c : BufferChain) : Option (List Iovec) := toIovecLoop c.buffers

def content (c : BufferChain) : Bytes := (c.buffers.map Buffer.content).flatten

/-- The three views of a chain are there and they agree. -/
def Agrees (c : BufferChain) : Prop :=
  ∃ str vecs segments, c.toString = .ok str ∧ c.toIovec = some vecs ∧ vecs.mapM Iovec.bytes = some segments ∧
    str = segments.flatten ∧ str = c.content ∧ str.length = c.totalSize.toNat

inductive Item
  | buffer (b : Buffer) (h : b.Reachable)
  | string (heap : Mem) (str : Bytes) (h : str.length < 2 ^ 63)

def appendItem (c : BufferChain) : Item → Option BufferChain
  | .buffer b _ => some (c.append b)
  | .string heap str _ => c.appendString heap str

def build : List Item → BufferChain → Option BufferChain
  | [], c => some c
  | item :: items, c => c.appendItem item >>= build items

namespace Item

def content : Item → Bytes
  | .buffer b _ => b.content
  | .string _ str _ => str

/-- A buffer has a block once it was made with a capacity or written to. -/
def HasBlock : Item → Prop
  | .buffer b _ => b.block ≠ none
  | .string _ _ _ => True

end Item

theorem ofString_spec (heap : Mem) {str : Bytes} (hs : str.length < 2 ^ 63) :
    ∃ b, Buffer.ofString heap str = some b ∧ b.Sound ∧ b.block ≠ none ∧ b.content = str := by
  have hword : (UInt64.ofNat str.length).toNat = str.length := by
    apply UInt64.toNat_ofNat_of_lt'
    have hsize : UInt64.size = 2 ^ 64 := rfl
    omega
  have hfit : (Buffer.ofCapacity heap (UInt64.ofNat str.length)).Fits (.write heap str) := by
    constructor
    · show (UInt64.ofNat str.length).toNat * 2 < 2 ^ 64
      omega
    · show 0 + str.length < 2 ^ 64
      omega
  obtain ⟨b, block, free, hwrite, -, hr⟩ := (Buffer.represents_ofCapacity heap _).write heap hfit
  refine ⟨b, hwrite, hr.sound, ?_, ?_⟩
  · rw [hr.block_eq]
    exact Option.some_ne_none block
  · rw [hr.content_eq]
    split <;> rfl

structure Stands (item : Item) (b : Buffer) : Prop where
  sound : b.Sound
  block : b.block ≠ none ↔ item.HasBlock
  content : b.content = item.content

theorem appendItem_spec (c : BufferChain) (item : Item) :
    ∃ b, c.appendItem item = some (c.append b) ∧ Stands item b := by
  cases item with
  | buffer b h => exact ⟨b, rfl, h.sound, Iff.rfl, rfl⟩
  | string heap str h =>
      obtain ⟨b, hb, hsound, hblock, hcontent⟩ := ofString_spec heap h
      refine ⟨b, ?_, hsound, iff_of_true hblock trivial, hcontent⟩
      rw [appendItem, appendString, hb]
      rfl

theorem build_spec (items : List Item) (c : BufferChain) :
    ∃ bs, build items c = some ⟨c.buffers ++ bs⟩ ∧ List.Forall₂ Stands items bs := by
  induction items generalizing c with
  | nil => exact ⟨[], by rw [build, List.append_nil], .nil⟩
  | cons item items ih =>
      obtain ⟨b, hb, hstands⟩ := c.appendItem_spec item
      obtain ⟨bs, hbs, hrest⟩ := ih (c.append b)
      refine ⟨b :: bs, ?_, .cons hstands hrest⟩
      rw [build, hb, Option.bind_eq_bind, Option.bind_some, hbs, append, List.append_assoc, List.singleton_append]

theorem stands_all {items : List Item} {bs : List Buffer} (h : List.Forall₂ Stands items bs) :
    (∀ b ∈ bs, b.Sound) ∧ ((∀ b ∈ bs, b.block ≠ none) ↔ ∀ item ∈ items, item.HasBlock) ∧
      bs.map Buffer.content = items.map Item.content := by
  induction h with
  | nil => simp
  | cons h _ ih =>
      obtain ⟨hsound, hblocks, hcontent⟩ := ih
      refine ⟨List.forall_mem_cons.mpr ⟨h.sound, hsound⟩, ?_, ?_⟩
      · rw [List.forall_mem_cons, List.forall_mem_cons, h.block, hblocks]
      · rw [List.map_cons, List.map_cons, h.content, hcontent]

section Traversals

variable {bs : List Buffer}

theorem appendTo_ok {b : Buffer} (hb : b.Sound) (hblock : b.block ≠ none) {result : Bytes}
    (hlen : result.length + b.content.length < 2 ^ 63) : appendTo result b = .ok (result ++ b.content) := by
  obtain ⟨block, hsome⟩ := Option.ne_none_iff_exists'.mp hblock
  have hout := hb.copyOut block hsome
  simp only [appendTo, hsome, hout, if_pos hlen]

theorem appendTo_inv {b : Buffer} (hb : b.Sound) {result str : Bytes} (h : appendTo result b = .ok str) :
    b.block ≠ none ∧ str = result ++ b.content ∧ str.length < 2 ^ 63 := by
  cases hblock : b.block with
  | none =>
      rw [appendTo, hblock] at h
      cases h
  | some block =>
      have hout := hb.copyOut block hblock
      simp only [appendTo, hblock, hout] at h
      split at h
      · next hlen =>
          cases h
          refine ⟨Option.some_ne_none block, rfl, ?_⟩
          rw [List.length_append]
          exact hlen
      · cases h

theorem toStringLoop_ok (hs : ∀ b ∈ bs, b.Sound) (hblock : ∀ b ∈ bs, b.block ≠ none) (result : Bytes)
    (hlen : result.length + (bs.map Buffer.content).flatten.length < 2 ^ 63) :
    toStringLoop bs result = .ok (result ++ (bs.map Buffer.content).flatten) := by
  induction bs generalizing result with
  | nil => simp [toStringLoop]
  | cons b bs ih =>
      rw [List.map_cons, List.flatten_cons, List.length_append] at hlen
      have happend := appendTo_ok (hs b List.mem_cons_self) (hblock b List.mem_cons_self)
        (show result.length + b.content.length < 2 ^ 63 by omega)
      have hrest := ih (fun c hc => hs c (List.mem_cons_of_mem b hc))
        (fun c hc => hblock c (List.mem_cons_of_mem b hc))
        (result ++ b.content) (by rw [List.length_append]; omega)
      rw [toStringLoop, happend]
      show toStringLoop bs (result ++ b.content) = _
      rw [hrest, List.map_cons, List.flatten_cons, List.append_assoc]

theorem toStringLoop_inv (hs : ∀ b ∈ bs, b.Sound) {result str : Bytes} (hresult : result.length < 2 ^ 63)
    (h : toStringLoop bs result = .ok str) :
    (∀ b ∈ bs, b.block ≠ none) ∧ str = result ++ (bs.map Buffer.content).flatten ∧ str.length < 2 ^ 63 := by
  induction bs generalizing result with
  | nil =>
      cases h
      exact ⟨by simp, (List.append_nil str).symm, hresult⟩
  | cons b bs ih =>
      rw [toStringLoop] at h
      cases happend : appendTo result b with
      | error e =>
          rw [happend] at h
          cases h
      | ok next =>
          rw [happend] at h
          obtain ⟨hblock, rfl, hlen⟩ := appendTo_inv (hs b List.mem_cons_self) happend
          obtain ⟨hblocks, hstr, hlen⟩ := ih (fun c hc => hs c (List.mem_cons_of_mem b hc)) hlen h
          refine ⟨List.forall_mem_cons.mpr ⟨hblock, hblocks⟩, ?_, hlen⟩
          rw [hstr, List.map_cons, List.flatten_cons, List.append_assoc]

theorem toNat_totalSize (hs : ∀ b ∈ bs, b.Sound) (total : UInt64) :
    (bs.foldl (fun total b => total + b.readable) total).toNat =
      (total.toNat + (bs.map Buffer.content).flatten.length) % 2 ^ 64 := by
  induction bs generalizing total with
  | nil =>
      have hlt := total.toNat_lt
      simp only [List.foldl_nil, List.map_nil, List.flatten_nil, List.length_nil, Nat.add_zero]
      omega
  | cons b bs ih =>
      have hlength := (hs b List.mem_cons_self).length
      rw [List.foldl_cons, ih fun c hc => hs c (List.mem_cons_of_mem b hc), List.map_cons, List.flatten_cons,
        List.length_append, UInt64.toNat_add, hlength]
      omega

/-- The empty buffers that are left out have nothing to add. -/
theorem toIovecLoop_spec (hs : ∀ b ∈ bs, b.Sound) :
    ∃ vecs segments, toIovecLoop bs = some vecs ∧ vecs.mapM Iovec.bytes = some segments ∧
      segments.flatten = (bs.map Buffer.content).flatten := by
  induction bs with
  | nil => exact ⟨[], [], rfl, rfl, rfl⟩
  | cons b bs ih =>
      obtain ⟨vecs, segments, hvecs, hsegments, hflat⟩ := ih fun c hc => hs c (List.mem_cons_of_mem b hc)
      have hb := hs b List.mem_cons_self
      by_cases hpos : 0 < b.readable
      · obtain ⟨block, hblock⟩ : ∃ block, b.block = some block :=
          Option.ne_none_iff_exists'.mp fun hnone => (hb.empty hnone).2 hpos
        have hbytes : Iovec.bytes ⟨block, b.readPos, b.readable⟩ = some b.content := hb.copyOut block hblock
        refine ⟨⟨block, b.readPos, b.readable⟩ :: vecs, b.content :: segments, ?_, ?_, ?_⟩
        · simp [toIovecLoop, hpos, hblock, hvecs]
        · simp [List.mapM_cons, hbytes, hsegments]
        · rw [List.flatten_cons, hflat, List.map_cons, List.flatten_cons]
      · have hempty : b.content = [] := by
          apply List.eq_nil_of_length_eq_zero
          rw [UInt64.lt_iff_toNat_lt, ← hb.length] at hpos
          exact Nat.eq_zero_of_not_pos hpos
        refine ⟨vecs, segments, ?_, hsegments, ?_⟩
        · rw [toIovecLoop, if_neg hpos, hvecs]
        · rw [hflat, List.map_cons, List.flatten_cons, hempty, List.nil_append]

theorem agrees_iff (hs : ∀ b ∈ bs, b.Sound) :
    Agrees ⟨bs⟩ ↔ (∀ b ∈ bs, b.block ≠ none) ∧ (bs.map Buffer.content).flatten.length < 2 ^ 63 := by
  have htotal := toNat_totalSize hs 0
  rw [UInt64.toNat_zero, Nat.zero_add] at htotal
  constructor
  · rintro ⟨str, vecs, segments, hstring, -, -, -, -, -⟩
    rw [toString] at hstring
    split at hstring
    · have hnil : ([] : Bytes).length < 2 ^ 63 := Nat.two_pow_pos 63
      obtain ⟨hblock, hstr, hlen⟩ := toStringLoop_inv hs hnil hstring
      rw [hstr] at hlen
      exact ⟨hblock, hlen⟩
    · cases hstring
  · rintro ⟨hblock, hlen⟩
    obtain ⟨vecs, segments, hvecs, hsegments, hflat⟩ := toIovecLoop_spec hs
    have hsize : (totalSize ⟨bs⟩).toNat = (bs.map Buffer.content).flatten.length := by
      rw [totalSize, htotal]
      omega
    refine ⟨(bs.map Buffer.content).flatten, vecs, segments, ?_, hvecs, hsegments, hflat.symm, rfl, hsize.symm⟩
    have hok := toStringLoop_ok hs hblock [] (by rw [List.length_nil, Nat.zero_add]; exact hlen)
    rw [toString, hsize, if_pos hlen, hok, List.nil_append]

end Traversals

end BufferChain

/-- The views of a chain agree exactly when each buffer in it has a block and a string can hold all the
bytes. A buffer that was made without a capacity and never written to has none. -/
theorem chain_views_iff (items : List BufferChain.Item) :
    ∃ c, BufferChain.build items {} = some c ∧
      (c.Agrees ↔ (∀ item ∈ items, item.HasBlock) ∧ (items.map (·.content.length)).sum < 2 ^ 63) := by
  obtain ⟨bs, hbuild, hstands⟩ := BufferChain.build_spec items {}
  refine ⟨_, hbuild, ?_⟩
  obtain ⟨hsound, hblocks, hcontent⟩ := BufferChain.stands_all hstands
  rw [List.nil_append, BufferChain.agrees_iff hsound, hblocks, hcontent, List.length_flatten, List.map_map]
  rfl

/-- A chain with a buffer that was only constructed. -/
theorem chain_null_block :
    BufferChain.build [.buffer {} .default] {} = some ⟨[{}]⟩ ∧
      BufferChain.toString ⟨[{}]⟩ = .error .nullBlock ∧ ¬BufferChain.Agrees ⟨[{}]⟩ := by
  refine ⟨rfl, rfl, ?_⟩
  rintro ⟨str, vecs, segments, hstring, -⟩
  cases hstring

end CoroRpc.Net
