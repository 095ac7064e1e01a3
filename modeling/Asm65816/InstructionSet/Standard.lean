import Asm65816.InstructionSet

namespace Asm65816.InstructionSet

/-- What each opcode means: the high digit of the opcode picks a block of sixteen, the low digit an
instruction of the block. -/
def opcodes : List (Mnemonic × Mode) :=
  List.flatten [
    [(.brk, .implied), (.ora, .indexedIndirect), (.cop, .immediate8), (.ora, .stackRelative),
    (.tsb, .direct), (.ora, .direct), (.asl, .direct), (.ora, .indirectLong), (.php, .implied),
    (.ora, .immediate16), (.asl, .implied), (.phd, .implied), (.tsb, .absolute),
    (.ora, .absolute), (.asl, .absolute), (.ora, .long)],
    [(.bpl, .relative), (.ora, .indirectY), (.ora, .indirect), (.ora, .stackRelativeIndirectY),
    (.trb, .direct), (.ora, .directX), (.asl, .directX), (.ora, .indirectLongY), (.clc, .implied),
    (.ora, .absoluteY), (.inc, .implied), (.tcs, .implied), (.trb, .absolute), (.ora, .absoluteX),
    (.asl, .absoluteX), (.ora, .longX)],
    [(.jsr, .absolute), (.and, .indexedIndirect), (.jsr, .long), (.and, .stackRelative),
    (.bit, .direct), (.and, .direct), (.rol, .direct), (.and, .indirectLong), (.plp, .implied),
    (.and, .immediate16), (.rol, .implied), (.pld, .implied), (.bit, .absolute),
    (.and, .absolute), (.rol, .absolute), (.and, .long)],
    [(.bmi, .relative), (.and, .indirectY), (.and, .indirect), (.and, .stackRelativeIndirectY),
    (.bit, .directX), (.and, .directX), (.rol, .directX), (.and, .indirectLongY),
    (.sec, .implied), (.and, .absoluteY), (.dec, .implied), (.tsc, .implied), (.bit, .absoluteX),
    (.and, .absoluteX), (.rol, .absoluteX), (.and, .longX)],
    [(.rti, .implied), (.eor, .indexedIndirect), (.wdm, .immediate8), (.eor, .stackRelative),
    (.mvp, .blockMove), (.eor, .direct), (.lsr, .direct), (.eor, .indirectLong), (.pha, .implied),
    (.eor, .immediate16), (.lsr, .implied), (.phk, .implied), (.jmp, .absolute),
    (.eor, .absolute), (.lsr, .absolute), (.eor, .long)],
    [(.bvc, .relative), (.eor, .indirectY), (.eor, .indirect), (.eor, .stackRelativeIndirectY),
    (.mvn, .blockMove), (.eor, .directX), (.lsr, .directX), (.eor, .indirectLongY),
    (.cli, .implied), (.eor, .absoluteY), (.phy, .implied), (.tcd, .implied), (.jmp, .long),
    (.eor, .absoluteX), (.lsr, .absoluteX), (.eor, .longX)],
    [(.rts, .implied), (.adc, .indexedIndirect), (.per, .relativeLong), (.adc, .stackRelative),
    (.stz, .direct), (.adc, .direct), (.ror, .direct), (.adc, .indirectLong), (.pla, .implied),
    (.adc, .immediate16), (.ror, .implied), (.rtl, .implied), (.jmp, .absoluteIndirect),
    (.adc, .absolute), (.ror, .absolute), (.adc, .long)],
    [(.bvs, .relative), (.adc, .indirectY), (.adc, .indirect), (.adc, .stackRelativeIndirectY),
    (.stz, .directX), (.adc, .directX), (.ror, .directX), (.adc, .indirectLongY),
    (.sei, .implied), (.adc, .absoluteY), (.ply, .implied), (.tdc, .implied),
    (.jmp, .absoluteIndexedIndirect), (.adc, .absoluteX), (.ror, .absoluteX), (.adc, .longX)],
    [(.bra, .relative), (.sta, .indexedIndirect), (.brl, .relativeLong), (.sta, .stackRelative),
    (.sty, .direct), (.sta, .direct), (.stx, .direct), (.sta, .indirectLong), (.dey, .implied),
    (.bit, .immediate16), (.txa, .implied), (.phb, .implied), (.sty, .absolute),
    (.sta, .absolute), (.stx, .absolute), (.sta, .long)],
    [(.bcc, .relative), (.sta, .indirectY), (.sta, .indirect), (.sta, .stackRelativeIndirectY),
    (.sty, .directX), (.sta, .directX), (.stx, .directY), (.sta, .indirectLongY),
    (.tya, .implied), (.sta, .absoluteY), (.txs, .implied), (.txy, .implied), (.stz, .absolute),
    (.sta, .absoluteX), (.stz, .absoluteX), (.sta, .longX)],
    [(.ldy, .immediate16), (.lda, .indexedIndirect), (.ldx, .immediate16), (.lda, .stackRelative),
    (.ldy, .direct), (.lda, .direct), (.ldx, .direct), (.lda, .indirectLong), (.tay, .implied),
    (.lda, .immediate16), (.tax, .implied), (.plb, .implied), (.ldy, .absolute),
    (.lda, .absolute), (.ldx, .absolute), (.lda, .long)],
    [(.bcs, .relative), (.lda, .indirectY), (.lda, .indirect), (.lda, .stackRelativeIndirectY),
    (.ldy, .directX), (.lda, .directX), (.ldx, .directY), (.lda, .indirectLongY),
    (.clv, .implied), (.lda, .absoluteY), (.tsx, .implied), (.tyx, .implied), (.ldy, .absoluteX),
    (.lda, .absoluteX), (.ldx, .absoluteY), (.lda, .longX)],
    [(.cpy, .immediate16), (.cmp, .indexedIndirect), (.rep, .immediate8), (.cmp, .stackRelative),
    (.cpy, .direct), (.cmp, .direct), (.dec, .direct), (.cmp, .indirectLong), (.iny, .implied),
    (.cmp, .immediate16), (.dex, .implied), (.wai, .implied), (.cpy, .absolute),
    (.cmp, .absolute), (.dec, .absolute), (.cmp, .long)],
    [(.bne, .relative), (.cmp, .indirectY), (.cmp, .indirect), (.cmp, .stackRelativeIndirectY),
    (.pei, .indirect), (.cmp, .directX), (.dec, .directX), (.cmp, .indirectLongY),
    (.cld, .implied), (.cmp, .absoluteY), (.phx, .implied), (.stp, .implied),
    (.jmp, .absoluteIndirectLong), (.cmp, .absoluteX), (.dec, .absoluteX), (.cmp, .longX)],
    [(.cpx, .immediate16), (.sbc, .indexedIndirect), (.sep, .immediate8), (.sbc, .stackRelative),
    (.cpx, .direct), (.sbc, .direct), (.inc, .direct), (.sbc, .indirectLong), (.inx, .implied),
    (.sbc, .immediate16), (.nop, .implied), (.xba, .implied), (.cpx, .absolute),
    (.sbc, .absolute), (.inc, .absolute), (.sbc, .long)],
    [(.beq, .relative), (.sbc, .indirectY), (.sbc, .indirect), (.sbc, .stackRelativeIndirectY),
    (.pea, .absolute), (.sbc, .directX), (.inc, .directX), (.sbc, .indirectLongY),
    (.sed, .implied), (.sbc, .absoluteY), (.plx, .implied), (.xce, .implied),
    (.jsr, .absoluteIndexedIndirect), (.sbc, .absoluteX), (.inc, .absoluteX), (.sbc, .longX)]]

def instructions : List Instruction := Mnemonic.all.map fun m ↦ ⟨m.name, m, m.base⟩

def aliases : List Alias := [⟨"jml", .jmp, .long⟩, ⟨"jsl", .jsr, .long⟩]

def standard : InstructionSet := ofLists instructions aliases opcodes

theorem length_opcodes : opcodes.length = 256 := by decide +kernel

end Asm65816.InstructionSet
