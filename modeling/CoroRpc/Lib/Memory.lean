import CoroRpc.Lib.Words

namespace CoroRpc.Memory

-- What a pointer sees: the byte at every offset from it, inside or outside the object it points to.
abbrev Mem := Nat → UInt8

def slice (mem : Mem) (off len : Nat) : Bytes := (List.range len).map fun i => mem (off + i)

def Holds (mem : Mem) (off : Nat) (bs : Bytes) : Prop := slice mem off bs.length = bs

def ofList (bs : Bytes) (beyond : Mem) : Mem :=
  fun i => if h : i < bs.length then bs[i] else beyond (i - bs.length)

@[simp] theorem length_slice (mem : Mem) (off len : Nat) : (slice mem off len).length = len := by
  simp [slice]

@[simp] theorem slice_zero (mem : Mem) (off : Nat) : slice mem off 0 = [] := rfl

theorem slice_add (mem : Mem) (off a b : Nat) :
    slice mem off (a + b) = slice mem off a ++ slice mem (off + a) b := by
  simp [slice, List.range_add, Function.comp_def, Nat.add_assoc]

theorem holds_append {mem : Mem} {off : Nat} {bs cs : Bytes} :
    Holds mem off (bs ++ cs) ↔ Holds mem off bs ∧ Holds mem (off + bs.length) cs := by
  rw [Holds]
  rw [List.length_append, slice_add]
  constructor
  · intro h
    exact List.append_inj h (length_slice _ _ _)
  · rintro ⟨hb, hc⟩
    rw [hb, hc]

theorem Holds.slice_eq {mem : Mem} {off len : Nat} {bs : Bytes} (h : Holds mem off bs)
    (hl : bs.length = len) : slice mem off len = bs := by
  rw [← hl]
  exact h

theorem Holds.byte_eq {mem : Mem} {off : Nat} {b : UInt8} (h : Holds mem off [b]) : mem off = b := by
  simpa [Holds, slice] using h

theorem Holds.take {mem : Mem} {off : Nat} {bs : Bytes} (h : Holds mem off bs) (n : Nat) :
    Holds mem off (bs.take n) := by
  rw [← List.take_append_drop n bs] at h
  exact (holds_append.mp h).1

theorem holds_ofList (bs cs : Bytes) (beyond : Mem) : Holds (ofList (bs ++ cs) beyond) 0 bs := by
  apply List.ext_getElem
  · simp
  · intro i hi hb
    have hlt : i < bs.length + cs.length := by omega
    simp [slice, ofList, hlt, List.getElem_append_left hb]

def store (buf : Bytes) (off : Nat) (bs : Bytes) : Bytes :=
  buf.take off ++ bs ++ buf.drop (off + bs.length)

theorem store_zero (buf bs : Bytes) : store buf 0 bs = bs ++ buf.drop bs.length := by
  simp [store]

theorem store_append (front back bs : Bytes) :
    store (front ++ back) front.length bs = front ++ bs ++ back.drop bs.length := by
  simp [store, List.drop_append]

theorem length_store {buf bs : Bytes} {off : Nat} (h : off + bs.length ≤ buf.length) :
    (store buf off bs).length = buf.length := by
  rw [store, List.length_append, List.length_append, List.length_take, List.length_drop]
  omega

theorem take_store {buf : Bytes} {off : Nat} (h : off ≤ buf.length) (bs : Bytes) :
    (store buf off bs).take off = buf.take off := by
  rw [store, List.append_assoc, List.take_append_of_le_length (by rw [List.length_take]; omega), List.take_take,
    Nat.min_self]

theorem take_store_add {buf bs : Bytes} {off : Nat} (h : off ≤ buf.length) :
    (store buf off bs).take (off + bs.length) = buf.take off ++ bs := by
  apply List.take_left'
  rw [List.length_append, List.length_take, Nat.min_eq_left h]

theorem getElem?_store {buf bs : Bytes} {off : Nat} (h : off + bs.length ≤ buf.length) (i : Nat) :
    (store buf off bs)[i]? = if off ≤ i ∧ i < off + bs.length then bs[i - off]? else buf[i]? := by
  have hfront : (buf.take off).length = off := by
    rw [List.length_take]
    omega
  rw [store, List.append_assoc]
  by_cases hbefore : i < off
  · rw [if_neg (by omega), List.getElem?_append_left (by omega), List.getElem?_take_of_lt hbefore]
  · rw [List.getElem?_append_right (by omega), hfront]
    by_cases hin : i < off + bs.length
    · rw [if_pos ⟨by omega, hin⟩, List.getElem?_append_left (by omega)]
    · rw [if_neg (by omega), List.getElem?_append_right (by omega), List.getElem?_drop]
      congr 1
      omega

structure Put where
  off : Nat
  bytes : Bytes

def Put.byteAt (p : Put) (i : Nat) : Option UInt8 := if p.off ≤ i then p.bytes[i - p.off]? else none

/-- What the last of the copies that reach a place puts there. -/
def lastByte : List Put → Nat → Option UInt8
  | [], _ => none
  | p :: ps, i => (lastByte ps i).or (p.byteAt i)

theorem lastByte_append (ps qs : List Put) (i : Nat) :
    lastByte (ps ++ qs) i = (lastByte qs i).or (lastByte ps i) := by
  induction ps with
  | nil => simp [lastByte]
  | cons p ps ih => rw [List.cons_append, lastByte, ih, lastByte, Option.or_assoc]

theorem getElem?_put {buf bs : Bytes} {off : Nat} (h : off + bs.length ≤ buf.length) (i : Nat) :
    (store buf off bs)[i]? = (lastByte [⟨off, bs⟩] i).or buf[i]? := by
  rw [getElem?_store h, lastByte, lastByte, Option.none_or, Put.byteAt]
  by_cases hoff : off ≤ i
  · by_cases hin : i < off + bs.length
    · have hlt : i - off < bs.length := by omega
      rw [if_pos ⟨hoff, hin⟩, if_pos hoff, List.getElem?_eq_getElem hlt, Option.some_or]
    · have hge : bs.length ≤ i - off := by omega
      rw [if_neg (by omega), if_pos hoff, List.getElem?_eq_none hge, Option.none_or]
  · rw [if_neg (by omega), if_neg hoff, Option.none_or]

theorem take_drop_eq_iff {α : Type} {xs ys : List α} {off len : Nat} :
    (xs.drop off).take len = (ys.drop off).take len ↔ ∀ i, off ≤ i → i < off + len → xs[i]? = ys[i]? := by
  constructor
  · intro h i hoff hlen
    have hi := congrArg (·[i - off]?) h
    simp only [List.getElem?_take_of_lt (show i - off < len by omega), List.getElem?_drop] at hi
    rwa [show off + (i - off) = i by omega] at hi
  · intro h
    apply List.ext_getElem?
    intro j
    by_cases hj : j < len
    · rw [List.getElem?_take_of_lt hj, List.getElem?_take_of_lt hj, List.getElem?_drop, List.getElem?_drop]
      exact h _ (by omega) (by omega)
    · rw [List.getElem?_take_eq_none (Nat.not_lt.mp hj), List.getElem?_take_eq_none (Nat.not_lt.mp hj)]

def resize (buf : Bytes) (size : Nat) : Bytes := buf.take size ++ List.replicate (size - buf.length) 0

@[simp] theorem length_resize (buf : Bytes) (size : Nat) : (resize buf size).length = size := by
  simp only [resize, List.length_append, List.length_take, List.length_replicate]
  omega

theorem resize_of_le {buf : Bytes} {size : Nat} (h : size ≤ buf.length) : resize buf size = buf.take size := by
  rw [resize, Nat.sub_eq_zero_of_le h, List.replicate_zero, List.append_nil]

theorem take_resize {buf : Bytes} {n size : Nat} (hn : n ≤ buf.length) (hs : n ≤ size) :
    (resize buf size).take n = buf.take n := by
  rw [resize, List.take_append_of_le_length (by rw [List.length_take]; exact le_min hs hn), List.take_take,
    Nat.min_eq_left hs]

def grow (buf : Bytes) (size : Nat) : Bytes := buf ++ List.replicate (size - buf.length) 0

theorem length_grow (buf : Bytes) (size : Nat) : (grow buf size).length = max buf.length size := by
  rw [grow, List.length_append, List.length_replicate]
  omega

theorem take_grow {buf : Bytes} {n : Nat} (h : n ≤ buf.length) (size : Nat) : (grow buf size).take n = buf.take n :=
  List.take_append_of_le_length h

theorem slice_ofList {bs : Bytes} {off len : Nat} (h : off + len ≤ bs.length) (beyond : Mem) :
    slice (ofList bs beyond) off len = (bs.drop off).take len := by
  apply List.ext_getElem
  · rw [length_slice, List.length_take, List.length_drop]
    omega
  · intro i hi hi'
    rw [length_slice] at hi
    have hlt : off + i < bs.length := by omega
    simp [slice, ofList, hlt]

def loadWord (w n : Nat) (mem : Mem) (off : Nat) : BitVec w := Words.ofBytes w (slice mem off n)

theorem loadWord_eq {w n : Nat} {mem : Mem} {off : Nat} {v : BitVec w} (hw : w ≤ 8 * n)
    (h : Holds mem off (Words.toBytes n v)) : loadWord w n mem off = v := by
  rw [loadWord, h.slice_eq (Words.length_toBytes n v), Words.ofBytes_toBytes hw]

end CoroRpc.Memory
