import Asm65816.Mode
import Asm65816.Text
import Asm65816.Width

namespace Asm65816

/-- What stands behind a mnemonic: an addressing mode with its value, the width that was forced on
it, and whether its value was missing on the first pass. -/
structure Operand where
  mode : Mode
  value : Int
  width : Option Width
  forward : Bool
  deriving DecidableEq

namespace Operand

def describe (o : Operand) : String :=
  let width := o.width.elim "" fun w ↦ "." ++ toString w.bits
  let forward := if o.forward then " fwd" else ""
  let value := Text.hexadecimal (o.value % 0x10000000000000000).toNat
  o.mode.spelling ++ "($" ++ value ++ ")" ++ width ++ forward

end Operand

end Asm65816
