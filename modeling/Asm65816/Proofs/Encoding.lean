import Asm65816.Encoding

namespace Asm65816

def ofLittleEndian : List UInt8 → Nat
  | [] => 0
  | b :: bs => b.toNat + 0x100 * ofLittleEndian bs

def byteRange : Nat → Int
  | 0 => 1
  | n + 1 => 0x100 * byteRange n

theorem byteRange_pos (n : Nat) : 0 < byteRange n := by
  induction n with
  | zero => decide
  | succ n ih =>
    rw [byteRange]
    omega

theorem emod_byteRange_succ (n : Nat) (v : Int) :
    v % byteRange (n + 1) = v % 0x100 + 0x100 * (v / 0x100 % byteRange n) := by
  have hq : v / byteRange (n + 1) = v / 0x100 / byteRange n := by
    rw [byteRange, Int.ediv_ediv_of_nonneg (by decide)]
  have h₁ := Int.mul_ediv_add_emod v (byteRange (n + 1))
  have h₂ := Int.mul_ediv_add_emod (v / 0x100) (byteRange n)
  rw [hq, byteRange, Int.mul_assoc] at h₁
  rw [byteRange]
  omega

theorem toNat_lowByte (v : Int) : ((UInt8.ofNat (v % 0x100).toNat).toNat : Int) = v % 0x100 := by
  rw [UInt8.toNat_ofNat']
  omega

theorem ofLittleEndian_littleEndian (n : Nat) (v : Int) :
    (ofLittleEndian (littleEndian n v) : Int) = v % byteRange n := by
  induction n generalizing v with
  | zero => exact (Int.emod_one v).symm
  | succ n ih =>
    have hb := toNat_lowByte v
    rw [littleEndian, ofLittleEndian, emod_byteRange_succ, ← ih]
    omega

theorem ofLittleEndian_of_lt {n : Nat} {v : Int} (h : 0 ≤ v) (hv : v < byteRange n) :
    (ofLittleEndian (littleEndian n v) : Int) = v := by
  rw [ofLittleEndian_littleEndian, Int.emod_eq_of_lt h hv]

theorem Encoding.bytes_of_length_le {e : Encoding} (h : 0 < e.length) (h' : e.length ≤ 4) :
    e.bytes = e.opcode :: littleEndian (e.length - 1) e.value :=
  bytes_of_length (Nat.succ_pred_eq_of_pos h).symm (by omega)

theorem ofLittleEndian_eq_zero {bytes : List UInt8} :
    ofLittleEndian bytes = 0 ↔ ∀ b ∈ bytes, b = 0 := by
  induction bytes with
  | nil => simp [ofLittleEndian]
  | cons b bs ih =>
    have hb : b.toNat = 0 ↔ b = 0 := ⟨fun h ↦ UInt8.toNat_inj.1 h, fun h ↦ by rw [h]; rfl⟩
    have hs : ofLittleEndian (b :: bs) = 0 ↔ b.toNat = 0 ∧ ofLittleEndian bs = 0 := by
      rw [ofLittleEndian]
      omega
    rw [hs, hb, ih, List.forall_mem_cons]

end Asm65816
