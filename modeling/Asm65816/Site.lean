namespace Asm65816

/-- A program is read twice: first to find out where its labels stand, then to settle its bytes. -/
inductive Pass
  | first
  | final
  deriving DecidableEq

structure Site where
  pass : Pass
  address : UInt32
  unit : UInt32
  deriving DecidableEq

namespace Site

def ofAddress (pass : Pass) (address : UInt32) : Site := ⟨pass, address, 1⟩

def withUnit (s : Site) (unit : UInt32) : Site := { s with unit := max unit 1 }

def pc (s : Site) : Int := (s.address.toNat / max s.unit.toNat 1 : Nat)

/-- On the final pass, three zero bytes behind the opcode tell that the first pass had no value
for the operand. An operand whose value is zero looks the same. -/
def isForward (s : Site) (memory : UInt32 → UInt8) : Bool :=
  s.pass = .final && memory (s.address + 1) = 0 && memory (s.address + 2) = 0 &&
    memory (s.address + 3) = 0

theorem isForward_iff {s : Site} {memory : UInt32 → UInt8} :
    s.isForward memory = true ↔ s.pass = .final ∧ memory (s.address + 1) = 0 ∧
      memory (s.address + 2) = 0 ∧ memory (s.address + 3) = 0 := by
  simp [isForward, and_assoc]

theorem pc_ofAddress (pass : Pass) (address : UInt32) :
    (ofAddress pass address).pc = address.toNat := by
  simp [pc, ofAddress]

end Site

end Asm65816
