import Asm65816.Fault
import Asm65816.Site
import Asm65816.Width

namespace Asm65816

inductive Branch
  | short
  | long
  deriving DecidableEq

namespace Branch

def mode : Branch → Mode
  | short => .relative
  | long => .relativeLong

def displacements : Branch → Domain
  | short => .branch
  | long => .longBranch

def constants : Branch → Domain
  | short => .constant8
  | long => .constant16

def width : Branch → Width
  | short => .byte
  | long => .word

/-- The operand of a branch to a target: the distance from the next instruction. The first pass
does not know its addresses yet and leaves the target as it is. -/
def operand (b : Branch) (site : Site) (target : Int) : Except Fault Int :=
  match site.pass with
  | .first => .ok target
  | .final =>
    (b.displacements.check (target - (site.pc + b.mode.length))).map b.width.truncate

theorem operand_first {site : Site} (h : site.pass = .first) (b : Branch) (target : Int) :
    b.operand site target = .ok target := by simp [operand, h]

theorem operand_final {site : Site} (h : site.pass = .final) (b : Branch) (target : Int) :
    b.operand site target =
      (b.displacements.check (target - (site.pc + b.mode.length))).map b.width.truncate := by
  simp [operand, h]

end Branch

end Asm65816
