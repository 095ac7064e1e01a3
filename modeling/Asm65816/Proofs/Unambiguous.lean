import Asm65816.Proofs.InstructionSet
import Asm65816.Proofs.Lossless

namespace Asm65816.InstructionSet

open Operand TokenSource

/-- What a line has the processor do: an instruction, the mode that its operand is encoded in, the
value of the operand, and whether an instruction that does nothing fills up its room. -/
structure Meaning where
  mnemonic : Mnemonic
  mode : Mode
  value : Int
  padded : Bool
  deriving DecidableEq

section

variable {σ σ' : Type} [TokenSource σ] [TokenSource σ'] {set : InstructionSet} {site site' : Site}
variable {eval : Expr.Evaluator σ} {eval' : Expr.Evaluator σ'} {memory memory' : UInt32 → UInt8}
variable {name name' : String} {s r : σ} {s' r' : σ'} {en en' : Encoding}

def meaning? (set : InstructionSet) (site : Site) (eval : Expr.Evaluator σ)
    (memory : UInt32 → UInt8) (name : String) (s : σ) : Option Meaning :=
  match (set.operand site eval memory name).run s with
  | .ok (e, o) _ =>
    (set.select? e.mnemonic (o.requested e.mnemonic)).map fun row ↦
      ⟨e.mnemonic, row.2, o.value, o.isPadded e.mnemonic⟩
  | .error .. => none

theorem meaning?_of_operand {e : Entry} {o : Operand} {row : UInt8 × Mode}
    (ho : (set.operand site eval memory name).run s = .ok (e, o) r)
    (hs : set.select? e.mnemonic (o.requested e.mnemonic) = some row) :
    set.meaning? site eval memory name s =
      some ⟨e.mnemonic, row.2, o.value, o.isPadded e.mnemonic⟩ := by
  simp only [meaning?, ho, hs, Option.map_some]

theorem exists_row_of_encode (hp : site.pass = .final)
    (h : (set.encode site eval memory name).run s = .ok en r) :
    ∃ e o row, (set.operand site eval memory name).run s = .ok (e, o) r ∧
      set.select? e.mnemonic (o.requested e.mnemonic) = some row ∧
      set.opcode? e.mnemonic row.2 = some row.1 ∧ en = o.encoding e.mnemonic row := by
  obtain ⟨e, o, ho, hj⟩ := run_encode_eq_ok.1 h
  rw [hp] at hj
  obtain ⟨row, hrow, rfl⟩ := join_eq_ok.1 hj
  have hs := choose_final_eq_ok.1 hrow
  exact ⟨e, o, row, ho, hs, opcode?_of_select? hs, rfl⟩

/-- Bytes are emitted for one encoding only: its operand is not cut off, and there are as many
bytes as its length says. -/
theorem eq_of_bytes_eq (hp : site.pass = .final) (hp' : site'.pass = .final)
    (h : (set.encode site eval memory name).run s = .ok en r)
    (h' : (set.encode site' eval' memory' name').run s' = .ok en' r')
    (hb : en.bytes = en'.bytes) : en = en' := by
  obtain ⟨_, _, -, hj⟩ := run_encode_eq_ok.1 h
  obtain ⟨_, _, -, hj'⟩ := run_encode_eq_ok.1 h'
  obtain ⟨hpos, hle⟩ := length_of_join hj
  obtain ⟨hpos', hle'⟩ := length_of_join hj'
  obtain ⟨h0, hlt⟩ := lt_byteRange_of_encode h (.inl hp)
  obtain ⟨h0', hlt'⟩ := lt_byteRange_of_encode h' (.inl hp')
  have hlength : en.length = en'.length := by
    rw [← Encoding.length_bytes (e := en) (by omega), hb, Encoding.length_bytes (by omega)]
  rw [Encoding.bytes_of_length_le hpos hle, Encoding.bytes_of_length_le hpos' hle'] at hb
  obtain ⟨hopcode, hvalue⟩ := List.cons.inj hb
  have hvalue : en.value = en'.value := by
    rw [← ofLittleEndian_of_lt h0 hlt, hvalue, ofLittleEndian_of_lt h0' hlt']
  cases en
  cases en'
  cases hopcode
  cases hvalue
  cases hlength
  rfl

end

section

variable {m : Mnemonic} {o o' : Operand} {row : UInt8 × Mode}

theorem mode_of_padded (hpad : o.isPadded m = true)
    (hs : standard.select? m (o.requested m) = some row) : row.2 = .absolute := by
  have hopcode : standard.opcode? m .absolute ≠ none := by
    rcases (isPadded_eq_true.1 hpad).1 with rfl | rfl <;> decide +kernel
  rw [requested, if_pos hpad] at hs
  rcases select?_eq_some.1 hs with ⟨-, hm⟩ | ⟨hn, -, -⟩
  · exact hm
  · exact absurd hn hopcode

theorem isPadded_of_encoding_eq (hpad : o.isPadded m = true)
    (hs : standard.select? m (o.requested m) = some row)
    (h : o.encoding m row = o'.encoding m row) : o'.isPadded m = true := by
  have hlength : (o.encoding m row).length = 4 := by rw [encoding, if_pos hpad]
  cases hpad' : o'.isPadded m with
  | true => rfl
  | false =>
    rw [h, encoding, if_neg (by simp [hpad']), mode_of_padded hpad hs] at hlength
    cases hlength

theorem value_of_encoding_eq (hpad : o.isPadded m = o'.isPadded m)
    (h : o.encoding m row = o'.encoding m row) : o.value = o'.value := by
  have hvalue := congrArg Encoding.value h
  unfold encoding at hvalue
  rw [hpad] at hvalue
  split at hvalue
  · have hvalue : o.value + 0xEA0000 = o'.value + 0xEA0000 := hvalue
    omega
  · exact hvalue

end

/-- Lines that are assembled into the same bytes mean the same. -/
theorem meaning?_of_bytes_eq {σ σ' : Type} [TokenSource σ] [TokenSource σ'] {site site' : Site}
    {eval : Expr.Evaluator σ} {eval' : Expr.Evaluator σ'} {memory memory' : UInt32 → UInt8}
    {name name' : String} {s r : σ} {s' r' : σ'} {en en' : Encoding}
    (hp : site.pass = .final) (hp' : site'.pass = .final)
    (h : (standard.encode site eval memory name).run s = .ok en r)
    (h' : (standard.encode site' eval' memory' name').run s' = .ok en' r')
    (hb : en.bytes = en'.bytes) :
    en = en' ∧ ∃ x, standard.meaning? site eval memory name s = some x ∧
      standard.meaning? site' eval' memory' name' s' = some x := by
  obtain rfl := eq_of_bytes_eq hp hp' h h' hb
  refine ⟨rfl, ?_⟩
  obtain ⟨e, o, row, ho, hs, hc, hen⟩ := exists_row_of_encode hp h
  obtain ⟨e', o', row', ho', hs', hc', hen'⟩ := exists_row_of_encode hp' h'
  have hopcode : row.1 = row'.1 := by
    rw [← opcode_encoding (m := e.mnemonic) (o := o), ← hen, hen', opcode_encoding]
  have hrow := row_of_opcode? hc
  rw [hopcode, row_of_opcode? hc'] at hrow
  obtain ⟨hm, hmode⟩ := Prod.mk.inj (Option.some.inj hrow)
  obtain rfl : row = row' := Prod.ext hopcode hmode.symm
  rw [hm] at hs' hen'
  have heq : o.encoding e.mnemonic row = o'.encoding e.mnemonic row := hen.symm.trans hen'
  have hpad : o.isPadded e.mnemonic = o'.isPadded e.mnemonic :=
    Bool.eq_iff_iff.2 ⟨fun hpad ↦ isPadded_of_encoding_eq hpad hs heq,
      fun hpad ↦ isPadded_of_encoding_eq hpad hs' heq.symm⟩
  refine ⟨_, meaning?_of_operand ho hs, ?_⟩
  rw [meaning?_of_operand ho' (by rw [hm]; exact hs'), hm, hpad, value_of_encoding_eq hpad heq]

/-- A long jump in a name of its own has the bytes of a jump that is marked as long. -/
theorem meaning?_of_jml :
    ∃ x, standard.meaning? (.ofAddress .final 0x8000) (Expr.sum fun _ ↦ none) (fun _ ↦ 0) "jml"
        (⟨[⟨.number, "$1234", 5⟩], 10⟩ : Line) = some x ∧
      standard.meaning? (.ofAddress .final 0xC000) (Expr.sum fun _ ↦ some 0x1234) (fun _ ↦ 0xFF)
        "JMP" (⟨[⟨.symbol, ">", 6⟩, ⟨.identifier, "there", 7⟩], 12⟩ : Line) = some x := by
  have hrun : Assembly.Visit.result? ((standard.encode (.ofAddress .final 0x8000)
      (Expr.sum fun _ ↦ none) (fun _ ↦ 0) "jml").run (⟨[⟨.number, "$1234", 5⟩], 10⟩ : Line)) =
        some ⟨0x5C, 0x1234, 4⟩ := by
    decide +kernel
  have hrun' : Assembly.Visit.result? ((standard.encode (.ofAddress .final 0xC000)
      (Expr.sum fun _ ↦ some 0x1234) (fun _ ↦ 0xFF) "JMP").run
        (⟨[⟨.symbol, ">", 6⟩, ⟨.identifier, "there", 7⟩], 12⟩ : Line)) =
          some ⟨0x5C, 0x1234, 4⟩ := by
    decide +kernel
  obtain ⟨r, h⟩ := Assembly.Visit.result?_eq_some_iff.1 hrun
  obtain ⟨r', h'⟩ := Assembly.Visit.result?_eq_some_iff.1 hrun'
  exact (meaning?_of_bytes_eq rfl rfl h h' rfl).2

end Asm65816.InstructionSet
