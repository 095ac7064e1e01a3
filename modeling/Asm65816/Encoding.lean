import Asm65816.Text

namespace Asm65816

def littleEndian : Nat → Int → List UInt8
  | 0, _ => []
  | n + 1, v => UInt8.ofNat (v % 0x100).toNat :: littleEndian n (v / 0x100)

@[simp] theorem length_littleEndian (n : Nat) (v : Int) : (littleEndian n v).length = n := by
  induction n generalizing v with
  | zero => rfl
  | succ n ih => simp [littleEndian, ih]

theorem take_littleEndian {k n : Nat} (h : k ≤ n) (v : Int) :
    (littleEndian n v).take k = littleEndian k v := by
  induction k generalizing n v with
  | zero => rfl
  | succ k ih =>
    cases n with
    | zero => omega
    | succ n => simp [littleEndian, ih (Nat.le_of_succ_le_succ h)]

structure Encoding where
  opcode : UInt8
  value : Int
  length : Nat
  deriving DecidableEq

namespace Encoding

/-- The opcode, then the operand; there are four bytes of operand and no more. -/
def bytes (e : Encoding) : List UInt8 := (e.opcode :: littleEndian 4 e.value).take e.length

def dump (e : Encoding) : String := " ".intercalate (e.bytes.map Text.hexByte)

theorem length_bytes {e : Encoding} (h : e.length ≤ 5) : e.bytes.length = e.length := by
  simp [bytes, h]

theorem bytes_of_length {e : Encoding} {n : Nat} (h : e.length = n + 1) (hn : n ≤ 4) :
    e.bytes = e.opcode :: littleEndian n e.value := by
  simp [bytes, h, take_littleEndian hn]

end Encoding

end Asm65816
