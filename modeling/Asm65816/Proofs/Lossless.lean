import Asm65816.InstructionSet.Standard
import Asm65816.Proofs.Assembly.Visit
import Asm65816.Proofs.Operand.Capacity

namespace Asm65816.InstructionSet

open Operand TokenSource

section

variable {σ : Type} [TokenSource σ] {set : InstructionSet} {site : Site}
variable {eval : Expr.Evaluator σ} {memory : UInt32 → UInt8} {name : String} {s r : σ}
variable {en : Encoding}

/-- The line of a name is a branch to a target. -/
def Aims (set : InstructionSet) (name : String) (s : σ) : Prop :=
  ∃ e, set.lookup? name = some e ∧ Operand.Aims e.base e.width s

theorem lt_byteRange_of_encode (h : (set.encode site eval memory name).run s = .ok en r)
    (hp : site.pass = .final ∨ ¬set.Aims name s) :
    0 ≤ en.value ∧ en.value < byteRange (en.length - 1) := by
  obtain ⟨e, o, ho, hj⟩ := run_encode_eq_ok.1 h
  obtain ⟨hl, hparse⟩ := run_operand_eq_ok.1 ho
  refine lt_byteRange_of_join (hasRoom_of_run_parse hparse ?_) hj
  exact hp.imp_right fun hn ha ↦ hn ⟨e, hl, ha⟩

/-- An instruction has all the bytes of its operand, and no operand is cut off. Only a branch to a
target, on the first pass, may have a value that it has no room for, and then it has the low bytes
of that. -/
theorem bytes_of_encode (h : (set.encode site eval memory name).run s = .ok en r) :
    (1 ≤ en.length ∧ en.length ≤ 4 ∧ en.bytes.length = en.length) ∧
      en.bytes = en.opcode :: littleEndian (en.length - 1) en.value ∧
      (ofLittleEndian en.bytes.tail : Int) = en.value % byteRange (en.length - 1) ∧
      (site.pass = .final ∨ ¬set.Aims name s →
        0 ≤ en.value ∧ en.value < byteRange (en.length - 1) ∧
          (ofLittleEndian en.bytes.tail : Int) = en.value) := by
  obtain ⟨_, _, -, hj⟩ := run_encode_eq_ok.1 h
  obtain ⟨hpos, hle⟩ := length_of_join hj
  have hbytes := Encoding.bytes_of_length_le hpos hle
  have htail : (ofLittleEndian en.bytes.tail : Int) = en.value % byteRange (en.length - 1) := by
    rw [hbytes, List.tail_cons, ofLittleEndian_littleEndian]
  refine ⟨⟨hpos, hle, Encoding.length_bytes (by omega)⟩, hbytes, htail, fun hp ↦ ?_⟩
  obtain ⟨h0, hlt⟩ := lt_byteRange_of_encode h hp
  exact ⟨h0, hlt, by rw [htail, Int.emod_eq_of_lt h0 hlt]⟩

end

/-- The bytes that fill up a jump count for its value. -/
theorem bytes_of_encode_padded :
    ∃ en r, (standard.encode (.ofAddress .final 0x8000) (Expr.sum fun _ ↦ none) (fun _ ↦ 0)
        "jmp").run (⟨[⟨.number, "$1234", 5⟩], 10⟩ : Line) = .ok en r ∧
      en.bytes = [0x4C, 0x34, 0x12, 0xEA] ∧ en.value = 0xEA1234 ∧
      (ofLittleEndian en.bytes.tail : Int) = en.value := by
  have hrun : Assembly.Visit.result? ((standard.encode (.ofAddress .final 0x8000)
      (Expr.sum fun _ ↦ none) (fun _ ↦ 0) "jmp").run (⟨[⟨.number, "$1234", 5⟩], 10⟩ : Line)) =
        some ⟨0x4C, 0xEA1234, 4⟩ := by
    decide +kernel
  obtain ⟨r, h⟩ := Assembly.Visit.result?_eq_some_iff.1 hrun
  obtain ⟨-, -, -, hlossless⟩ := bytes_of_encode h
  exact ⟨_, r, h, by decide, rfl, (hlossless (.inl rfl)).2.2⟩

end Asm65816.InstructionSet
