import Asm65816.Encoding
import Asm65816.InstructionSet
import Asm65816.Operand.Grammar

namespace Asm65816

def nop : UInt8 := 0xEA

/-- Holds the place of an opcode on the first pass when there is none for the mode. -/
def placeholder : UInt8 := 0xFF

/-- A jump or a call ahead was given room for its long form. When its target turns out to need the
absolute form only, an instruction that does nothing fills the room. -/
def Operand.isPadded (m : Mnemonic) (o : Operand) : Bool :=
  (m = .jmp || m = .jsr) && o.forward && o.width.isNone && o.mode = .long && o.value ≤ 0xFFFF

namespace InstructionSet

open MonadExcept

variable (set : InstructionSet)

def choose (pass : Pass) (e : Entry) (mode : Mode) : Except Fault (UInt8 × Mode) :=
  match set.select? e.mnemonic mode, pass with
  | some row, _ => .ok row
  | none, .first => .ok (placeholder, mode)
  | none, .final => .error (.unsupportedMode e.name mode)

/-- Joins a mnemonic with its operand. An immediate operand that was forced to a byte is shorter
than its mode. -/
def join (pass : Pass) (e : Entry) (o : Operand) : Except Fault Encoding :=
  if o.isPadded e.mnemonic then
    (set.choose pass e .absolute).map fun (opcode, _) ↦
      ⟨opcode, o.value + 0x10000 * nop.toNat, 4⟩
  else
    (set.choose pass e o.mode).map fun (opcode, mode) ↦
      ⟨opcode, o.value, if mode = .immediate16 ∧ o.width = some .byte then 2 else mode.length⟩

variable {σ : Type} [TokenSource σ]

def operand (site : Site) (eval : Expr.Evaluator σ) (memory : UInt32 → UInt8) (name : String) :
    EStateM Fault σ (Entry × Operand) := do
  match set.lookup? name with
  | none => throw (.unknownMnemonic name)
  | some e => return (e, ← Operand.Grammar.parse site eval memory e.base e.width)

def encode (site : Site) (eval : Expr.Evaluator σ) (memory : UInt32 → UInt8) (name : String) :
    EStateM Fault σ Encoding := do
  let (e, o) ← set.operand site eval memory name
  ofExcept (set.join site.pass e o)

end InstructionSet

end Asm65816
