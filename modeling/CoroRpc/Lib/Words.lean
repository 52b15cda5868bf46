import Mathlib.Data.List.Basic
import Mathlib.Data.Nat.Bitwise
import Mathlib.Tactic.IntervalCases

abbrev CoroRpc.Bytes := List UInt8

namespace CoroRpc.Words

def byte {w : Nat} (v : BitVec w) (i : Nat) : UInt8 := UInt8.ofBitVec (v.extractLsb' (8 * i) 8)

def toBytes {w : Nat} (n : Nat) (v : BitVec w) : Bytes := (List.range n).map (byte v)

def ofBytes (w : Nat) : Bytes → BitVec w
  | [] => 0#w
  | b :: bs => b.toBitVec.setWidth w ||| (ofBytes w bs <<< 8)

@[simp] theorem length_toBytes {w : Nat} (n : Nat) (v : BitVec w) : (toBytes n v).length = n := by
  simp [toBytes]

theorem getLsbD_byte {w : Nat} (v : BitVec w) (i j : Nat) :
    (byte v i).toBitVec.getLsbD j = (decide (j < 8) && v.getLsbD (8 * i + j)) := by
  simp [byte, BitVec.getLsbD_extractLsb']

theorem getLsbD_ofBytes (w : Nat) (bs : Bytes) (i : Nat) :
    (ofBytes w bs).getLsbD i =
      (decide (i < w) && (bs.getD (i / 8) 0).toBitVec.getLsbD (i % 8)) := by
  induction bs generalizing i with
  | nil => simp [ofBytes]
  | cons b bs ih =>
      rw [ofBytes, BitVec.getLsbD_or, BitVec.getLsbD_setWidth, BitVec.getLsbD_shiftLeft]
      by_cases hi : i < 8
      · have hd : i / 8 = 0 := by omega
        have hm : i % 8 = i := by omega
        simp [hi, hd, hm]
      · have hd : i / 8 = (i - 8) / 8 + 1 := by omega
        have hm : i % 8 = (i - 8) % 8 := by omega
        have hb : b.toBitVec.getLsbD i = false := BitVec.getLsbD_of_ge _ _ (by omega)
        rw [ih, hd, hm, List.getD_cons_succ, hb]
        by_cases hw : i < w
        · have hw' : i - 8 < w := by omega
          simp [hi, hw, hw']
        · simp [hw]

theorem ofBytes_toBytes {w n : Nat} (h : w ≤ 8 * n) (v : BitVec w) :
    ofBytes w (toBytes n v) = v := by
  apply BitVec.eq_of_getLsbD_eq
  intro i hi
  have hn : i / 8 < n := by omega
  have hg : (toBytes n v).getD (i / 8) 0 = byte v (i / 8) := by
    simp [toBytes, List.getD, hn]
  rw [getLsbD_ofBytes, hg, getLsbD_byte]
  have hm : i % 8 < 8 := Nat.mod_lt _ (by decide)
  simp [hi, hm, Nat.div_add_mod]

def shiftByte {w : Nat} (v : BitVec w) (i : Nat) : UInt8 :=
  UInt8.ofBitVec ((v.sshiftRight (8 * i) &&& 0xFF#w).setWidth 8)

theorem shiftByte_eq_byte {w : Nat} (v : BitVec w) (i : Nat) (h : 8 * i + 8 ≤ w) :
    shiftByte v i = byte v i := by
  apply UInt8.toBitVec_inj.mp
  apply BitVec.eq_of_getLsbD_eq
  intro j hj
  have hw : j < w := by omega
  have hjw : 8 * i + j < w := by omega
  have hm : (0xFF#w).getLsbD j = true := by
    rw [BitVec.getLsbD_ofNat]
    have ht : Nat.testBit 255 j = true := by
      interval_cases j <;> rfl
    simp [hw, ht]
  have hs : (shiftByte v i).toBitVec.getLsbD j =
      (decide (j < 8) && ((v.sshiftRight (8 * i)).getLsbD j && (0xFF#w).getLsbD j)) := by
    rw [shiftByte, UInt8.toBitVec_ofBitVec, BitVec.getLsbD_setWidth, BitVec.getLsbD_and]
  rw [hs, hm, BitVec.getLsbD_sshiftRight, getLsbD_byte, if_pos hjw]
  simp [Nat.not_le.mpr hw]

theorem byte_signExtend {w v : Nat} (x : BitVec w) (i : Nat) (h : 8 * i + 8 ≤ w) (hw : w ≤ v) :
    byte (x.signExtend v) i = byte x i := by
  apply UInt8.toBitVec_inj.mp
  apply BitVec.eq_of_getLsbD_eq
  intro j hj
  have hlt : 8 * i + j < w := by omega
  have hlv : 8 * i + j < v := by omega
  rw [getLsbD_byte, getLsbD_byte, BitVec.getLsbD_signExtend]
  simp only [hlt, hlv, decide_true, Bool.true_and, if_true]

def orBytes (w : Nat) (f : Nat → UInt8) (n : Nat) : BitVec w :=
  (List.range n).foldl (fun v i => v ||| ((f i).toBitVec.setWidth w <<< (8 * i))) 0#w

theorem getLsbD_orBytes (w : Nat) (f : Nat → UInt8) (n i : Nat) :
    (orBytes w f n).getLsbD i =
      (decide (i < w) && decide (i < 8 * n) && (f (i / 8)).toBitVec.getLsbD (i % 8)) := by
  induction n with
  | zero => simp [orBytes]
  | succ n ih =>
      have hstep : orBytes w f (n + 1) =
          orBytes w f n ||| ((f n).toBitVec.setWidth w <<< (8 * n)) := by
        simp [orBytes, List.range_succ]
      rw [hstep, BitVec.getLsbD_or, ih, BitVec.getLsbD_shiftLeft, BitVec.getLsbD_setWidth]
      by_cases hlow : i < 8 * n
      · have hnext : i < 8 * (n + 1) := by omega
        simp [hlow, hnext]
      · by_cases htop : i < 8 * (n + 1)
        · have hd : i / 8 = n := by omega
          have hm : i % 8 = i - 8 * n := by omega
          by_cases hw : i < w
          · have hw' : i - 8 * n < w := by omega
            simp [hlow, htop, hd, hm, hw, hw']
          · simp [hw]
        · have hb : (f n).toBitVec.getLsbD (i - 8 * n) = false := BitVec.getLsbD_of_ge _ _ (by omega)
          simp [hlow, htop, hb]

theorem setWidth_orBytes {w v : Nat} (f : Nat → UInt8) (n : Nat) (h : v ≤ w) :
    (orBytes w f n).setWidth v = orBytes v f n := by
  apply BitVec.eq_of_getLsbD_eq
  intro i hi
  have hw : i < w := by omega
  simp only [BitVec.getLsbD_setWidth, getLsbD_orBytes, hi, hw, decide_true, Bool.true_and]

theorem orBytes_byte {w n : Nat} (h : w ≤ 8 * n) (v : BitVec w) (f : Nat → UInt8)
    (hf : ∀ i < n, f i = byte v i) : orBytes w f n = v := by
  apply BitVec.eq_of_getLsbD_eq
  intro i hi
  have hn : i < 8 * n := by omega
  have hm : i % 8 < 8 := Nat.mod_lt _ (by decide)
  rw [getLsbD_orBytes, hf (i / 8) (by omega), getLsbD_byte]
  simp [hi, hn, hm, Nat.div_add_mod]

theorem byte_orBytes {w n : Nat} (f : Nat → UInt8) {i : Nat} (hi : i < n) (hw : 8 * i + 8 ≤ w) :
    byte (orBytes w f n) i = f i := by
  apply UInt8.toBitVec_inj.mp
  apply BitVec.eq_of_getLsbD_eq
  intro j hj
  have hd : (8 * i + j) / 8 = i := by omega
  have hm : (8 * i + j) % 8 = j := by omega
  have hlt : 8 * i + j < w := by omega
  have hn : 8 * i + j < 8 * n := by omega
  rw [getLsbD_byte, getLsbD_orBytes, hd, hm]
  simp [hj, hlt, hn]

end CoroRpc.Words
