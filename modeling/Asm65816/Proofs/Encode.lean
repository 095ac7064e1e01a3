import Asm65816.Encode
import Asm65816.Proofs.Operand.Form

namespace Asm65816

def InstructionSet.lengthIn (width : Option Width) (mode : Mode) : Nat :=
  if mode = .immediate16 ∧ width = some .byte then 2 else mode.length

namespace Operand

def requested (m : Mnemonic) (o : Operand) : Mode := if o.isPadded m then .absolute else o.mode

def encoding (m : Mnemonic) (o : Operand) (row : UInt8 × Mode) : Encoding :=
  if o.isPadded m then ⟨row.1, o.value + 0x10000 * nop.toNat, 4⟩
  else ⟨row.1, o.value, InstructionSet.lengthIn o.width row.2⟩

end Operand

namespace InstructionSet

open TokenSource Operand Grammar

variable {set : InstructionSet} {pass : Pass} {m : Mnemonic} {mode : Mode} {row : UInt8 × Mode}
variable {e : Entry} {o o' : Operand} {en en' : Encoding}

theorem select?_eq_some :
    set.select? m mode = some row ↔
      set.opcode? m mode = some row.1 ∧ row.2 = mode ∨
        set.opcode? m mode = none ∧ mode.wider? = some row.2 ∧
          set.opcode? m row.2 = some row.1 := by
  obtain ⟨c, w⟩ := row
  unfold select?
  cases set.opcode? m mode with
  | some d => simp [eq_comm]
  | none =>
    cases mode.wider? with
    | none => simp
    | some w' =>
      simp only [Option.map_none, Option.none_or, Option.bind_some, Option.map_eq_some_iff,
        Prod.mk.injEq, reduceCtorEq, false_and, false_or, true_and, Option.some.injEq]
      constructor
      · intro h
        obtain ⟨d, hd, rfl, rfl⟩ := h
        exact ⟨rfl, hd⟩
      · intro h
        obtain ⟨rfl, hc⟩ := h
        exact ⟨c, hc, rfl, rfl⟩

theorem opcode?_of_select? (h : set.select? m mode = some row) :
    set.opcode? m row.2 = some row.1 := by
  rcases select?_eq_some.1 h with ⟨hc, hm⟩ | ⟨-, -, hc⟩
  · rw [hm]
    exact hc
  · exact hc

theorem select?_of_wider?_none (hm : mode.wider? = none) (h : set.select? m mode = some row) :
    row.2 = mode := by
  rcases select?_eq_some.1 h with ⟨-, h⟩ | ⟨-, h, -⟩
  · exact h
  · rw [hm] at h
    cases h

theorem choose_final_eq_ok : set.choose .final e mode = .ok row ↔
    set.select? e.mnemonic mode = some row := by
  unfold choose
  cases set.select? e.mnemonic mode <;> simp

theorem choose_first : set.choose .first e mode =
    .ok ((set.select? e.mnemonic mode).getD (placeholder, mode)) := by
  unfold choose
  cases set.select? e.mnemonic mode <;> rfl

theorem choose_eq_ok : set.choose pass e mode = .ok row ↔
    set.select? e.mnemonic mode = some row ∨
      set.select? e.mnemonic mode = none ∧ pass = .first ∧ row = (placeholder, mode) := by
  unfold choose
  cases set.select? e.mnemonic mode with
  | some row' => simp
  | none => cases pass <;> simp [eq_comm]

theorem choose_eq_error {f : Fault} : set.choose pass e mode = .error f ↔
    set.select? e.mnemonic mode = none ∧ pass = .final ∧ f = .unsupportedMode e.name mode := by
  unfold choose
  cases set.select? e.mnemonic mode with
  | some row => simp
  | none => cases pass <;> simp [eq_comm]

theorem choose_first_of_final (h : set.choose .final e mode = .ok row) :
    set.choose .first e mode = .ok row := by
  rw [choose_first, choose_final_eq_ok.1 h]
  rfl

theorem choose_mode (hm : mode.wider? = none) (h : set.choose pass e mode = .ok row) :
    row.2 = mode := by
  rcases choose_eq_ok.1 h with hs | ⟨-, -, rfl⟩
  · exact select?_of_wider?_none hm hs
  · rfl

theorem choose_mode_or (h : set.choose pass e mode = .ok row) :
    row.2 = mode ∨ mode.wider? = some row.2 := by
  rcases choose_eq_ok.1 h with hs | ⟨-, -, rfl⟩
  · rcases select?_eq_some.1 hs with ⟨-, hm⟩ | ⟨-, hm, -⟩
    · exact .inl hm
    · exact .inr hm
  · exact .inl rfl

theorem ne_immediate16_of_wider? {m m' : Mode} (h : m.wider? = some m') :
    m ≠ .immediate16 ∧ m' ≠ .immediate16 := by
  cases m <;> cases h <;> decide

theorem join_eq :
    set.join pass e o =
      (set.choose pass e (o.requested e.mnemonic)).map (o.encoding e.mnemonic) := by
  unfold join requested encoding
  cases o.isPadded e.mnemonic <;> rfl

theorem join_of_padded (h : o.isPadded e.mnemonic = true) :
    set.join pass e o = .ok en ↔
      ∃ row, set.choose pass e .absolute = .ok row ∧
        en = ⟨row.1, o.value + 0x10000 * nop.toNat, 4⟩ := by
  unfold join
  rw [if_pos h]
  cases set.choose pass e .absolute <;> simp [Except.map, eq_comm]

theorem join_of_not_padded (h : o.isPadded e.mnemonic = false) :
    set.join pass e o = .ok en ↔
      ∃ row, set.choose pass e o.mode = .ok row ∧
        en = ⟨row.1, o.value, lengthIn o.width row.2⟩ := by
  unfold join
  rw [if_neg (by simp [h])]
  cases set.choose pass e o.mode <;> simp [Except.map, eq_comm, lengthIn]

theorem join_eq_ok : set.join pass e o = .ok en ↔
    ∃ row, set.choose pass e (o.requested e.mnemonic) = .ok row ∧
      en = o.encoding e.mnemonic row := by
  rw [join_eq]
  cases set.choose pass e (o.requested e.mnemonic) <;> simp [Except.map, eq_comm]

theorem join_eq_error {f : Fault} : set.join pass e o = .error f ↔
    set.choose pass e (o.requested e.mnemonic) = .error f := by
  rw [join_eq]
  cases set.choose pass e (o.requested e.mnemonic) <;> simp [Except.map]

theorem opcode_encoding : (o.encoding m row).opcode = row.1 := by
  unfold encoding
  split <;> rfl

theorem opcode?_of_join (h : set.join pass e o = .ok en) :
    (pass = .first ∧ en.opcode = placeholder) ∨
      ∃ mode, set.opcode? e.mnemonic mode = some en.opcode := by
  obtain ⟨row, hc, rfl⟩ := join_eq_ok.1 h
  rw [opcode_encoding]
  rcases choose_eq_ok.1 hc with hs | ⟨-, hp, rfl⟩
  · exact .inr ⟨_, opcode?_of_select? hs⟩
  · exact .inl ⟨hp, rfl⟩

theorem lengthIn_pos (width : Option Width) (mode : Mode) : 0 < lengthIn width mode := by
  unfold lengthIn
  split
  · decide
  · exact mode.length_pos

theorem lengthIn_le_four (width : Option Width) (mode : Mode) : lengthIn width mode ≤ 4 := by
  unfold lengthIn
  split
  · decide
  · exact mode.length_le_four

theorem length_of_join (h : set.join pass e o = .ok en) : 0 < en.length ∧ en.length ≤ 4 := by
  cases hp : o.isPadded e.mnemonic with
  | true =>
    obtain ⟨row, -, rfl⟩ := (join_of_padded hp).1 h
    exact ⟨Nat.zero_lt_succ 3, Nat.le_refl 4⟩
  | false =>
    obtain ⟨row, -, rfl⟩ := (join_of_not_padded hp).1 h
    exact ⟨lengthIn_pos .., lengthIn_le_four ..⟩

theorem isPadded_eq_true : o.isPadded m = true ↔
    (m = .jmp ∨ m = .jsr) ∧ o.forward = true ∧ o.width = none ∧ o.mode = .long ∧
      o.value ≤ 0xFFFF := by
  simp [isPadded, and_assoc]

theorem isPadded_of_mode (h : o.mode ≠ .long) : o.isPadded m = false :=
  Bool.eq_false_iff.2 fun hp ↦ h (isPadded_eq_true.1 hp).2.2.2.1

theorem isPadded_of_width (h : o.width ≠ none) : o.isPadded m = false :=
  Bool.eq_false_iff.2 fun hp ↦ h (isPadded_eq_true.1 hp).2.2.1

theorem isPadded_of_forward (h : o.forward = false) : o.isPadded m = false := by
  refine Bool.eq_false_iff.2 fun hp ↦ ?_
  have hf := (isPadded_eq_true.1 hp).2.1
  rw [h] at hf
  cases hf

/-- Operands of one mode make instructions of one length, whatever their values. The width matters
to an immediate operand only. -/
theorem length_join_passes (hm : o.mode = o'.mode)
    (hw : o.mode = .immediate16 → o.width = o'.width) (ho : o.isPadded e.mnemonic = false)
    (ho' : o'.isPadded e.mnemonic = false) (h : set.join .first e o = .ok en)
    (h' : set.join .final e o' = .ok en') : en.length = en'.length := by
  obtain ⟨row', hr', rfl⟩ := (join_of_not_padded ho').1 h'
  obtain ⟨row, hr, rfl⟩ := (join_of_not_padded ho).1 h
  rw [hm, choose_first_of_final hr'] at hr
  cases hr
  change lengthIn o.width row'.2 = lengthIn o'.width row'.2
  by_cases hi : row'.2 = .immediate16
  · have hmode : o.mode = .immediate16 := by
      rw [hm]
      rcases choose_mode_or hr' with h | h
      · rw [← h, hi]
      · exact absurd hi (ne_immediate16_of_wider? h).2
    rw [hw hmode]
  · simp [lengthIn, hi]

section

variable {σ : Type} [TokenSource σ] {site : Site} {eval : Expr.Evaluator σ}
variable {memory : UInt32 → UInt8} {name : String} {s r : σ} {f : Fault}

theorem run_operand_eq_ok :
    (set.operand site eval memory name).run s = .ok (e, o) r ↔
      set.lookup? name = some e ∧ (parse site eval memory e.base e.width).run s = .ok o r := by
  unfold operand
  cases hl : set.lookup? name with
  | none => simp
  | some e' =>
    simp only [Option.some.injEq]
    constructor
    · intro h
      obtain ⟨o', ho', heq⟩ := run_return_eq_ok.1 h
      cases heq
      exact ⟨rfl, ho'⟩
    · intro h'
      obtain ⟨rfl, ho⟩ := h'
      exact run_return_eq_ok.2 ⟨o, ho, rfl⟩

theorem run_encode_eq_ok :
    (set.encode site eval memory name).run s = .ok en r ↔
      ∃ e o, (set.operand site eval memory name).run s = .ok (e, o) r ∧
        set.join site.pass e o = .ok en := by
  unfold encode
  simp only [run_bind_eq_ok, run_ofExcept_eq_ok]
  constructor
  · intro h
    obtain ⟨⟨e, o⟩, q, ho, hj, rfl⟩ := h
    exact ⟨e, o, ho, hj⟩
  · intro h
    obtain ⟨e, o, ho, hj⟩ := h
    exact ⟨(e, o), r, ho, hj, rfl⟩

theorem run_encode_of_operand (h : (set.operand site eval memory name).run s = .ok (e, o) r) :
    (set.encode site eval memory name).run s =
      (ofExcept (set.join site.pass e o) : EStateM Fault σ Encoding).run r := by
  unfold encode
  rw [EStateM.run_bind, h]

theorem run_operand_eq_error :
    (set.operand site eval memory name).run s = .error f r ↔
      set.lookup? name = none ∧ f = .unknownMnemonic name ∧ r = s ∨
        ∃ e, set.lookup? name = some e ∧
          (parse site eval memory e.base e.width).run s = .error f r := by
  unfold operand
  cases hl : set.lookup? name with
  | none => simp [eq_comm]
  | some e =>
    simp only [reduceCtorEq, false_and, false_or, Option.some.injEq]
    rw [run_bind_eq_error]
    constructor
    · intro h
      obtain h | ⟨o, t, -, ⟨⟩⟩ := h
      exact ⟨e, rfl, h⟩
    · intro h'
      obtain ⟨_, rfl, h⟩ := h'
      exact .inl h

theorem run_encode_eq_error :
    (set.encode site eval memory name).run s = .error f r ↔
      (set.operand site eval memory name).run s = .error f r ∨
        ∃ e o, (set.operand site eval memory name).run s = .ok (e, o) r ∧
          set.join site.pass e o = .error f := by
  unfold encode
  simp only [run_bind_eq_error, run_ofExcept_eq_error]
  refine or_congr_right ?_
  constructor
  · intro h
    obtain ⟨⟨e, o⟩, q, ho, hj, rfl⟩ := h
    exact ⟨e, o, ho, hj⟩
  · intro h
    obtain ⟨e, o, ho, hj⟩ := h
    exact ⟨(e, o), r, ho, hj, rfl⟩

theorem run_encode_of_parse (hl : set.lookup? name = some e)
    (h : (parse site eval memory e.base e.width).run s = .ok o r)
    (hj : set.join site.pass e o = .ok en) :
    (set.encode site eval memory name).run s = .ok en r :=
  run_encode_eq_ok.2 ⟨e, o, run_operand_eq_ok.2 ⟨hl, h⟩, hj⟩

theorem run_encode_of_parse_error (hl : set.lookup? name = some e)
    (h : (parse site eval memory e.base e.width).run s = .error f r) :
    (set.encode site eval memory name).run s = .error f r :=
  run_encode_eq_error.2 (.inl (run_operand_eq_error.2 (.inr ⟨e, hl, h⟩)))

theorem run_encode_of_unknown (hl : set.lookup? name = none) :
    (set.encode site eval memory name).run s = .error (.unknownMnemonic name) s :=
  run_encode_eq_error.2 (.inl (run_operand_eq_error.2 (.inl ⟨hl, rfl, rfl⟩)))

theorem exists_parse_of_encode (hl : set.lookup? name = some e)
    (h : (set.encode site eval memory name).run s = .ok en r) :
    ∃ o, (parse site eval memory e.base e.width).run s = .ok o r ∧
      set.join site.pass e o = .ok en := by
  obtain ⟨e', o, ho, hj⟩ := run_encode_eq_ok.1 h
  obtain ⟨hl', ho⟩ := run_operand_eq_ok.1 ho
  rw [hl] at hl'
  cases hl'
  exact ⟨o, ho, hj⟩

end

end InstructionSet

end Asm65816
