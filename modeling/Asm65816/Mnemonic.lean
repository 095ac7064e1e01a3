import Asm65816.Mode

namespace Asm65816

inductive Mnemonic
  | adc | and | asl | bcc | bcs | beq | bit | bmi | bne | bpl | bra | brk | brl | bvc | bvs | clc
  | cld | cli | clv | cmp | cop | cpx | cpy | dec | dex | dey | eor | inc | inx | iny | jmp | jsr
  | lda | ldx | ldy | lsr | mvn | mvp | nop | ora | pea | pei | per | pha | phb | phd | phk | php
  | phx | phy | pla | plb | pld | plp | plx | ply | rep | rol | ror | rti | rtl | rts | sbc | sec
  | sed | sei | sep | sta | stp | stx | sty | stz | tax | tay | tcd | tcs | tdc | trb | tsb | tsc
  | tsx | txa | txs | txy | tya | tyx | wai | wdm | xba | xce
  deriving DecidableEq

namespace Mnemonic

def all : List Mnemonic :=
  [adc, and, asl, bcc, bcs, beq, bit, bmi, bne, bpl, bra, brk, brl, bvc, bvs, clc, cld, cli, clv,
  cmp, cop, cpx, cpy, dec, dex, dey, eor, inc, inx, iny, jmp, jsr, lda, ldx, ldy, lsr, mvn, mvp,
  nop, ora, pea, pei, per, pha, phb, phd, phk, php, phx, phy, pla, plb, pld, plp, plx, ply, rep,
  rol, ror, rti, rtl, rts, sbc, sec, sed, sei, sep, sta, stp, stx, sty, stz, tax, tay, tcd, tcs,
  tdc, trb, tsb, tsc, tsx, txa, txs, txy, tya, tyx, wai, wdm, xba, xce]

def name : Mnemonic → String
  | adc => "adc" | and => "and" | asl => "asl" | bcc => "bcc" | bcs => "bcs" | beq => "beq"
  | bit => "bit" | bmi => "bmi" | bne => "bne" | bpl => "bpl" | bra => "bra" | brk => "brk"
  | brl => "brl" | bvc => "bvc" | bvs => "bvs" | clc => "clc" | cld => "cld" | cli => "cli"
  | clv => "clv" | cmp => "cmp" | cop => "cop" | cpx => "cpx" | cpy => "cpy" | dec => "dec"
  | dex => "dex" | dey => "dey" | eor => "eor" | inc => "inc" | inx => "inx" | iny => "iny"
  | jmp => "jmp" | jsr => "jsr" | lda => "lda" | ldx => "ldx" | ldy => "ldy" | lsr => "lsr"
  | mvn => "mvn" | mvp => "mvp" | nop => "nop" | ora => "ora" | pea => "pea" | pei => "pei"
  | per => "per" | pha => "pha" | phb => "phb" | phd => "phd" | phk => "phk" | php => "php"
  | phx => "phx" | phy => "phy" | pla => "pla" | plb => "plb" | pld => "pld" | plp => "plp"
  | plx => "plx" | ply => "ply" | rep => "rep" | rol => "rol" | ror => "ror" | rti => "rti"
  | rtl => "rtl" | rts => "rts" | sbc => "sbc" | sec => "sec" | sed => "sed" | sei => "sei"
  | sep => "sep" | sta => "sta" | stp => "stp" | stx => "stx" | sty => "sty" | stz => "stz"
  | tax => "tax" | tay => "tay" | tcd => "tcd" | tcs => "tcs" | tdc => "tdc" | trb => "trb"
  | tsb => "tsb" | tsc => "tsc" | tsx => "tsx" | txa => "txa" | txs => "txs" | txy => "txy"
  | tya => "tya" | tyx => "tyx" | wai => "wai" | wdm => "wdm" | xba => "xba" | xce => "xce"

/-- The mode of an instruction that is written without an operand. It also tells how an operand is
to be written. -/
def base : Mnemonic → Mode
  | bcc | bcs | beq | bmi | bne | bpl | bra | bvc | bvs => .relative
  | brl | per => .relativeLong
  | mvn | mvp => .blockMove
  | cop | rep | sep | wdm => .immediate8
  | _ => .implied

theorem mem_all (m : Mnemonic) : m ∈ all := by cases m <;> decide

end Mnemonic

end Asm65816
