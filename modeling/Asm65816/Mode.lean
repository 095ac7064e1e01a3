namespace Asm65816

inductive Mode
  | implied
  | immediate8
  | immediate16
  | direct
  | absolute
  | long
  | directX
  | directY
  | absoluteX
  | absoluteY
  | longX
  | indirect
  | indirectY
  | absoluteIndirect
  | absoluteIndirectLong
  | indexedIndirect
  | absoluteIndexedIndirect
  | indirectLong
  | indirectLongY
  | stackRelative
  | stackRelativeIndirectY
  | relative
  | relativeLong
  | blockMove
  deriving DecidableEq

namespace Mode

def operandBytes : Mode → Nat
  | implied => 0
  | immediate8 | direct | directX | directY | indirect | indirectY | indexedIndirect
  | indirectLong | indirectLongY | stackRelative | stackRelativeIndirectY | relative => 1
  | immediate16 | absolute | absoluteX | absoluteY | absoluteIndirect | absoluteIndirectLong
  | absoluteIndexedIndirect | relativeLong | blockMove => 2
  | long | longX => 3

def length (m : Mode) : Nat := m.operandBytes + 1

def wider? : Mode → Option Mode
  | direct => some absolute
  | absolute => some long
  | indirect => some absoluteIndirect
  | indirectLong => some absoluteIndirectLong
  | indexedIndirect => some absoluteIndexedIndirect
  | _ => none

def spelling : Mode → String
  | implied => "implied"
  | immediate8 => "#imm8"
  | immediate16 => "#imm16"
  | direct => "dp"
  | absolute => "abs"
  | long => "long"
  | directX => "dp,x"
  | directY => "dp,y"
  | absoluteX => "abs,x"
  | absoluteY => "abs,y"
  | longX => "long,x"
  | indirect => "(dp)"
  | indirectY => "(dp),y"
  | absoluteIndirect => "(abs)"
  | absoluteIndirectLong => "[abs]"
  | indexedIndirect => "(dp,x)"
  | absoluteIndexedIndirect => "(abs,x)"
  | indirectLong => "[dp]"
  | indirectLongY => "[dp],y"
  | stackRelative => "sr,s"
  | stackRelativeIndirectY => "(sr,s),y"
  | relative => "rel8"
  | relativeLong => "rel16"
  | blockMove => "src,dst"

instance : ToString Mode := ⟨spelling⟩

theorem length_pos (m : Mode) : 0 < m.length := Nat.succ_pos _

theorem length_le_four (m : Mode) : m.length ≤ 4 := by cases m <;> decide

theorem length_of_wider? {m w : Mode} (h : m.wider? = some w) : w.length = m.length + 1 := by
  cases m <;> simp only [wider?, Option.some.injEq, reduceCtorEq] at h <;> subst h <;> rfl

end Mode

end Asm65816
