import Asm65816.Fault
import Asm65816.Operand
import Asm65816.Site

namespace Asm65816.Operand

structure Sized where
  value : Int
  width : Option Width
  deriving DecidableEq

namespace Sized

def fixed (s : Sized) (mode : Mode) (d : Domain) : Except Fault Operand :=
  (d.check s.value).map fun v ↦ ⟨mode, v, s.width, false⟩

def nearOrFar (s : Sized) (near far : Mode) : Except Fault Operand :=
  (Domain.absolute.check s.value).map fun v ↦ ⟨if 0xFF < v then far else near, v, s.width, false⟩

def immediate (s : Sized) (base : Mode) : Except Fault Operand :=
  let mode : Mode := if base = .immediate8 then .immediate8 else .immediate16
  let width := if base = .immediate8 then some .byte else s.width
  match width with
  | some .byte =>
    (Domain.constant8.check s.value).map fun v ↦ ⟨mode, Width.byte.truncate v, width, false⟩
  | some .word | none =>
    (Domain.constant16.check s.value).map fun v ↦ ⟨mode, Width.word.truncate v, width, false⟩
  | some .long => .error .longImmediate

def domain : Width → Domain
  | .byte => .directPage
  | .word => .absolute
  | .long => .absoluteLong

def address (s : Sized) : Except Fault Int := do
  let v ← Domain.address.check s.value
  match s.width with
  | some w => (domain w).check v
  | none => return v

end Sized

structure Address where
  value : Int
  width : Option Width
  forward : Bool
  wide : Bool
  deriving DecidableEq

namespace Address

/-- Where no width is forced, an address that may still move is given room for the widest form: one
that had no value on the first pass, and on the first pass any zero, which may stand for none. -/
def ofSized (site : Site) (memory : UInt32 → UInt8) (s : Sized) : Except Fault Address :=
  s.address.map fun v ↦
    let forward := site.isForward memory
    ⟨v, s.width, forward, s.width = none ∧ (forward ∨ site.pass = .first ∧ v = 0)⟩

def plain (a : Address) : Mode :=
  match a.width with
  | some .byte => .direct
  | some .word => .absolute
  | some .long => .long
  | none =>
    if a.wide ∨ 0xFFFF < a.value then .long
    else if 0xFF < a.value then .absolute
    else .direct

def indexedX (a : Address) : Mode :=
  if a.wide ∨ a.width = some .long ∨ 0xFFFF < a.value then .longX
  else if a.width = some .word ∨ 0xFF < a.value then .absoluteX
  else .directX

def indexedY (a : Address) : Except Fault Mode :=
  if a.width = some .long then .error .longIndexedY
  else (Domain.absolute.check a.value).map fun v ↦
    if a.wide ∨ a.width = some .word ∨ 0xFF < v then .absoluteY else .directY

def onStack (a : Address) : Except Fault Mode :=
  (Domain.stackOffset.check a.value).map fun _ ↦ .stackRelative

def toOperand (a : Address) (mode : Mode) : Operand := ⟨mode, a.value, a.width, a.forward⟩

end Address

end Asm65816.Operand
