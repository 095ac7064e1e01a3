namespace Asm65816

inductive Domain
  | constant8
  | constant16
  | branch
  | longBranch
  | blockSource
  | blockDestination
  | address
  | directPage
  | absolute
  | absoluteLong
  | stackOffset
  deriving DecidableEq

namespace Domain

def least : Domain → Int
  | constant8 | branch => -0x80
  | constant16 | longBranch => -0x8000
  | blockSource | blockDestination | address | directPage | absolute | absoluteLong
  | stackOffset => 0

def greatest : Domain → Int
  | branch => 0x7F
  | longBranch => 0x7FFF
  | constant8 | blockSource | blockDestination | directPage | stackOffset => 0xFF
  | constant16 | absolute => 0xFFFF
  | address | absoluteLong => 0xFFFFFF

def Holds (d : Domain) (v : Int) : Prop := d.least ≤ v ∧ v ≤ d.greatest

instance (d : Domain) (v : Int) : Decidable (d.Holds v) := inferInstanceAs (Decidable (_ ∧ _))

def name : Domain → String
  | constant8 => "8-bit constant"
  | constant16 => "16-bit constant"
  | branch => "Relative branch"
  | longBranch => "Relative long branch"
  | blockSource => "Block move source address"
  | blockDestination => "Block move destination address"
  | address => "Address"
  | directPage => "Direct-page address"
  | absolute => "Absolute address"
  | absoluteLong => "Absolute long address"
  | stackOffset => "Stack offset"

end Domain

end Asm65816
