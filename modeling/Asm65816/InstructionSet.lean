import Asm65816.Mnemonic
import Asm65816.Text
import Asm65816.Width

namespace Asm65816

structure Instruction where
  name : String
  mnemonic : Mnemonic
  base : Mode
  deriving DecidableEq

structure Alias where
  name : String
  mnemonic : Mnemonic
  width : Width
  deriving DecidableEq

structure Entry where
  name : String
  mnemonic : Mnemonic
  base : Mode
  width : Option Width
  deriving DecidableEq

def Instruction.entry (i : Instruction) : Entry := ⟨i.name, i.mnemonic, i.base, none⟩

/-- An alias takes the base mode from the first instruction of its mnemonic. -/
def Alias.entry (instructions : List Instruction) (a : Alias) : Entry :=
  let base := (instructions.find? (·.mnemonic = a.mnemonic)).elim .implied Instruction.base
  ⟨a.name, a.mnemonic, base, some a.width⟩

/-- The names that can be written, the first of equal ones being the one that counts, and the
meaning of each opcode in turn. -/
structure InstructionSet where
  entries : List Entry
  rows : List (Mnemonic × Mode)

namespace InstructionSet

/-- Aliases hide instructions of the same name, and a later name hides an earlier one. -/
def ofLists (instructions : List Instruction) (aliases : List Alias)
    (rows : List (Mnemonic × Mode)) : InstructionSet :=
  ⟨(aliases.map (·.entry instructions)).reverse ++
    (instructions.map Instruction.entry).reverse, rows⟩

variable (set : InstructionSet)

def lookup? (name : String) : Option Entry := set.entries.find? (·.name = Text.fold name)

/-- The opcode of an instruction in just this mode: the place of its first row. -/
def opcode? (m : Mnemonic) (mode : Mode) : Option UInt8 :=
  (set.rows.idxOf? (m, mode)).map UInt8.ofNat

/-- The opcode of an instruction in a mode, or else in the next wider one, with the mode that was
found. -/
def select? (m : Mnemonic) (mode : Mode) : Option (UInt8 × Mode) :=
  ((set.opcode? m mode).map (·, mode)).or
    (mode.wider?.bind fun wider ↦ (set.opcode? m wider).map (·, wider))

end InstructionSet

end Asm65816
