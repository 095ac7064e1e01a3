import Asm65816.Proofs.Encoding
import Asm65816.Proofs.Forced

namespace Asm65816

/-- A negative number of a width is read back from its low bits. -/
theorem Width.bmod_truncate {w : Width} {v : Int} (h : -w.size ≤ 2 * v) (hv : v < 0) :
    Int.bmod (w.truncate v) w.size.toNat = v := by
  have hsize : (w.size.toNat : Int) = w.size := Int.toNat_of_nonneg (Int.le_of_lt w.size_pos)
  have hmod : Int.bmod (v % w.size.toNat) w.size.toNat = Int.bmod v w.size.toNat := Int.emod_bmod ..
  rw [hsize] at hmod
  rw [Width.truncate, hmod]
  exact Int.bmod_eq_of_le (by omega) (by omega)

theorem ofLittleEndian_truncate (w : Width) (v : Int) :
    (ofLittleEndian (littleEndian (w.bits / 8) (w.truncate v)) : Int) = w.truncate v := by
  have hsize : byteRange (w.bits / 8) = w.size := by cases w <;> rfl
  exact ofLittleEndian_of_lt (w.truncate_nonneg v) (hsize ▸ w.truncate_lt v)

theorem Encoding.drop_bytes_truncate (en : Encoding) {w : Width} {v : Int}
    (hlength : en.length = w.bits / 8 + 1) (hv : en.value = w.truncate v) :
    (en.bytes.drop 1).length = w.bits / 8 ∧
      (ofLittleEndian (en.bytes.drop 1) : Int) = w.truncate v := by
  have hbytes : en.bytes = en.opcode :: littleEndian (w.bits / 8) en.value :=
    Encoding.bytes_of_length hlength (by cases w <;> decide)
  rw [hbytes, List.drop_one, List.tail_cons, hv]
  exact ⟨length_littleEndian .., ofLittleEndian_truncate w v⟩

namespace Operand

open InstructionSet TokenSource Grammar

/-- A constant of some width is read behind a mnemonic. Signed and unsigned numbers of that width
are taken, and their low bits are kept; all other numbers are refused. The bytes tell the number,
with a sign if it has one. -/
structure TakesConstant {σ : Type} [TokenSource σ] (set : InstructionSet) (site : Site)
    (eval : Expr.Evaluator σ) (memory : UInt32 → UInt8) (name : String) (e : Entry) (s : σ)
    (w : Width) (d : Domain) (v : Int) : Prop where
  accepted : (∃ o r, (parse site eval memory e.base e.width).run s = .ok o r) ↔ d.Holds v
  kept : ∀ o r, (parse site eval memory e.base e.width).run s = .ok o r → o.value = v % w.size
  refused : ¬d.Holds v →
    ∃ r, (parse site eval memory e.base e.width).run s = .error (.outOfRange d v) r
  emitted : ∀ en r, (set.encode site eval memory name).run s = .ok en r →
    (en.bytes.drop 1).length = w.bits / 8 ∧
      (0 ≤ v → (ofLittleEndian (en.bytes.drop 1) : Int) = v) ∧
      (v < 0 → Int.bmod (ofLittleEndian (en.bytes.drop 1)) w.size.toNat = v)

def constantMode (base : Mode) : Mode := if base = .immediate8 then .immediate8 else .immediate16

theorem wider?_constantMode (base : Mode) : (constantMode base).wider? = none := by
  unfold constantMode
  split <;> rfl

theorem lengthIn_constantMode (base : Mode) : lengthIn (some .byte) (constantMode base) = 2 := by
  unfold constantMode
  split <;> rfl

section

variable {σ : Type} [TokenSource σ] [LawfulTokenSource σ] {set : InstructionSet} {site : Site}
variable {eval : Expr.Evaluator σ} {name : String} {s : σ} {e : Entry}
variable {base m : Mode} {suffix width : Option Width} {w : Width} {d : Domain} {v : Int}

theorem immediate_eq_byte (h : base = .immediate8 ∨ width = some .byte) :
    (Sized.mk v width).immediate base = (Domain.constant8.check v).map fun v ↦
      ⟨constantMode base, Width.byte.truncate v, some .byte, false⟩ := by
  unfold Sized.immediate constantMode
  by_cases hb : base = .immediate8
  · simp only [hb, if_true]
  · simp only [hb, if_false, h.resolve_left hb]

theorem immediate_eq_word (hb : base ≠ .immediate8) (h : width = some .word ∨ width = none) :
    (Sized.mk v width).immediate base = (Domain.constant16.check v).map fun v ↦
      ⟨.immediate16, Width.word.truncate v, width, false⟩ := by
  unfold Sized.immediate
  rcases h with rfl | rfl <;> simp only [hb, if_false]

/-- A number that is held to its range and cut down to its width is a constant of that width. -/
theorem takesConstant_of_settle (memory : UInt32 → UInt8) (hl : set.lookup? name = some e)
    (h : Phrase site eval e.base s suffix .immediate none v)
    (hs : (Sized.mk v (suffix.or e.width)).immediate e.base =
      (d.check v).map fun v ↦ ⟨m, w.truncate v, width, false⟩)
    (hm : m.wider? = none) (hlength : lengthIn width m = w.bits / 8 + 1)
    (hd : d.Holds v → -w.size ≤ 2 * v ∧ v < w.size) :
    TakesConstant set site eval memory name e s w d v := by
  have hok (hv : d.Holds v) : ∃ r, (parse site eval memory e.base e.width).run s =
      .ok ⟨m, w.truncate v, width, false⟩ r := by
    rw [Domain.check_of_holds hv] at hs
    exact h.exists_run_parse_of_settle hs
  have herror (hv : ¬d.Holds v) :
      ∃ r, (parse site eval memory e.base e.width).run s = .error (.outOfRange d v) r := by
    rw [Domain.check_of_not_holds hv] at hs
    exact h.exists_run_parse_of_settle_error hs
  have hunique {o : Operand} {r : σ}
      (ho : (parse site eval memory e.base e.width).run s = .ok o r) :
      d.Holds v ∧ o = ⟨m, w.truncate v, width, false⟩ := by
    have hsettle : (Sized.mk v (suffix.or e.width)).immediate e.base = .ok o :=
      h.settle_of_run_parse ho
    rw [hs] at hsettle
    obtain ⟨u, hu, rfl⟩ := map_eq_ok.1 hsettle
    obtain ⟨hv, rfl⟩ := Domain.check_eq_ok_iff.1 hu
    exact ⟨hv, rfl⟩
  refine ⟨⟨?_, fun hv ↦ ⟨_, hok hv⟩⟩, ?_, herror, ?_⟩
  · intro h'
    obtain ⟨o, r, ho⟩ := h'
    exact (hunique ho).1
  · intro o r ho
    rw [(hunique ho).2]
    rfl
  · intro en r hen
    obtain ⟨o, ho, hj⟩ := exists_parse_of_encode hl hen
    obtain ⟨hv, rfl⟩ := hunique ho
    obtain ⟨hlow, hhigh⟩ := hd hv
    obtain ⟨row, hrow, rfl⟩ := (join_of_not_padded (isPadded_of_forward rfl)).1 hj
    have hen : lengthIn width row.2 = w.bits / 8 + 1 := by
      rw [choose_mode hm hrow]
      exact hlength
    obtain ⟨hcount, hbytes⟩ :=
      Encoding.drop_bytes_truncate ⟨row.1, w.truncate v, lengthIn width row.2⟩ hen rfl
    rw [hbytes]
    exact ⟨hcount, fun hv ↦ Width.truncate_of_lt hv hhigh,
      fun hv ↦ Width.bmod_truncate hlow hv⟩

/-- An immediate operand is a byte where its instruction takes no more or where a width of one byte
is forced on it, and otherwise a word. There is no third width. -/
theorem takesConstant_immediate (memory : UInt32 → UInt8) (hl : set.lookup? name = some e)
    (h : Phrase site eval e.base s suffix .immediate none v) :
    (e.base = .immediate8 ∨ suffix.or e.width = some .byte →
        TakesConstant set site eval memory name e s .byte .constant8 v) ∧
      (e.base ≠ .immediate8 → suffix.or e.width = some .word ∨ suffix.or e.width = none →
        TakesConstant set site eval memory name e s .word .constant16 v) ∧
      (e.base ≠ .immediate8 → suffix.or e.width = some .long →
        ∃ r, (parse site eval memory e.base e.width).run s = .error .longImmediate r) := by
  refine ⟨fun hw ↦ ?_, fun hb hw ↦ ?_, fun hb hw ↦ ?_⟩
  · refine takesConstant_of_settle memory hl h (immediate_eq_byte hw) (wider?_constantMode _)
      (lengthIn_constantMode _) fun hv ↦ ?_
    obtain ⟨hlow, hhigh⟩ : -0x80 ≤ v ∧ v ≤ 0xFF := hv
    exact ⟨show -0x100 ≤ 2 * v by omega, show v < 0x100 by omega⟩
  · refine takesConstant_of_settle memory hl h (immediate_eq_word hb hw) rfl ?_ ?_
    · exact if_neg (by rcases hw with hw | hw <;> simp [hw])
    · intro hv
      obtain ⟨hlow, hhigh⟩ : -0x8000 ≤ v ∧ v ≤ 0xFFFF := hv
      exact ⟨show -0x10000 ≤ 2 * v by omega, show v < 0x10000 by omega⟩
  · refine h.exists_run_parse_of_settle_error ?_
    rw [hw]
    exact settle_immediate_long hb

def minusOne : Line :=
  ⟨[⟨.symbol, ".", 3⟩, ⟨.identifier, "b", 4⟩, ⟨.symbol, "#", 6⟩, ⟨.symbol, "-", 7⟩,
    ⟨.number, "1", 8⟩], 9⟩

theorem takesConstant_immediate_minusOne :
    ∃ o r, (parse (.ofAddress .final 0x8000) (Expr.sum fun _ ↦ none) (fun _ ↦ 0) .implied
      none).run minusOne = .ok o r ∧ o.value = 0xFF ∧
        ∀ en r, (standard.encode (.ofAddress .final 0x8000) (Expr.sum fun _ ↦ none) (fun _ ↦ 0)
          "lda").run minusOne = .ok en r →
            (en.bytes.drop 1).length = 1 ∧
              Int.bmod (ofLittleEndian (en.bytes.drop 1)) 0x100 = -1 := by
  have hl : standard.lookup? "lda" = some ⟨"lda", .lda, .implied, none⟩ := by decide +kernel
  have hsum : (Expr.sum fun _ ↦ none).run (⟨[⟨.symbol, "-", 7⟩, ⟨.number, "1", 8⟩], 9⟩ : Line) =
      .ok (-1) ⟨[.stop 9], 9⟩ :=
    Expr.run_sum_eq_ok.2 ⟨_, ⟨[], 9⟩, rfl, .term (.minus (by decide) (.number rfl (by decide))),
      ⟨rfl, rfl⟩, rfl⟩
  have h : Phrase (.ofAddress .final 0x8000) (Expr.sum fun _ ↦ none) .implied minusOne (some .byte)
      .immediate none (-1) :=
    ⟨by decide, _, _, _, _, .suffix (by decide) rfl (by decide), .symbol rfl (by decide) rfl,
      .bare (by decide), run_evaluate_of_ok hsum, rfl⟩
  obtain ⟨hbyte, -⟩ := takesConstant_immediate (fun _ ↦ 0) hl h
  obtain ⟨haccepted, hkept, -, hemitted⟩ := hbyte (.inr rfl)
  obtain ⟨o, r, ho⟩ := haccepted.2 (by decide)
  refine ⟨o, r, ho, hkept o r ho, fun en r hen ↦ ?_⟩
  obtain ⟨hlength, -, hvalue⟩ := hemitted en r hen
  exact ⟨hlength, hvalue (by decide)⟩

end

end Operand

end Asm65816
