import Asm65816.Proofs.Encode
import Asm65816.Proofs.Encoding
import Asm65816.Proofs.Operand.Accepted

namespace Asm65816

open Operand

variable {site : Site} {memory : UInt32 → UInt8} {base : Mode} {v : Int} {o : Operand} {f : Form}

theorem isForward_first (h : site.pass = .first) : site.isForward memory = false := by
  simp [Site.isForward, h]

theorem isWide_first (h : site.pass = .first) : isWide site memory v ↔ v = 0 := by
  simp [isWide, isForward_first h, h]

theorem isWide_final (h : site.pass = .final) :
    isWide site memory v ↔ site.isForward memory = true := by
  simp [isWide, h]

theorem operandBytes_rung_long : (f.rung .long).operandBytes = 3 := by cases f <;> rfl

theorem length_rung_long : (f.rung .long).length = 4 := congrArg (· + 1) operandBytes_rung_long

theorem wider?_rung_long : (f.rung .long).wider? = none := by cases f <;> rfl

theorem lt_byteRange_rung (h : Domain.address.Holds v) :
    v < byteRange (f.rung (.ofAddress v)).operandBytes := by
  have hle : v ≤ 0xFFFFFF := h.2
  have h₁ : byteRange 1 = 0x100 := rfl
  have h₂ : byteRange 2 = 0x10000 := rfl
  have h₃ : byteRange 3 = 0x1000000 := rfl
  unfold Width.ofAddress
  by_cases hl : 0xFFFF < v
  · rw [if_pos hl, operandBytes_rung_long, h₃]
    omega
  · rw [if_neg hl]
    by_cases hw : 0xFF < v
    · have hb : (f.rung .word).operandBytes = 2 := by cases f <;> rfl
      rw [if_pos hw, hb, h₂]
      omega
    · have hb : (f.rung .byte).operandBytes = 1 := by cases f <;> rfl
      rw [if_neg hw, hb, h₁]
      omega

theorem lengthIn_none (mode : Mode) : InstructionSet.lengthIn none mode = mode.length := by
  simp [InstructionSet.lengthIn]

theorem byteRange_le_of_wider? {m m' : Mode} (h : m.wider? = some m') :
    byteRange m.operandBytes ≤ byteRange m'.operandBytes := by
  have hl : m'.operandBytes = m.operandBytes + 1 := Nat.succ.inj (Mode.length_of_wider? h)
  have hpos := byteRange_pos m.operandBytes
  rw [hl, byteRange]
  omega

namespace Operand

open Grammar

variable {z : Int} {w : Option Width}

theorem lt_byteRange_of_domain {w : Width} (hf : f = .plain ∨ f = .indexedX)
    (h : (Sized.domain w).Holds z) : 0 ≤ z ∧ z < byteRange (f.rung w).operandBytes := by
  have hle : (Sized.domain w).greatest < byteRange (f.rung w).operandBytes := by
    rcases hf with rfl | rfl <;> cases w <;> decide
  have hleast : (Sized.domain w).least = 0 := by cases w <;> rfl
  exact ⟨hleast ▸ h.1, Int.lt_of_le_of_lt h.2 hle⟩

def Fits (o : Operand) (z : Int) : Prop :=
  o.value = z ∧ 0 ≤ z ∧ z < byteRange o.mode.operandBytes ∧ o.mode.isBare = true

theorem fits_of_settle_direct (hf : f = .plain ∨ f = .indexedX)
    (ho : f.settle site memory base ⟨z, w⟩ = .ok o) : Fits o z := by
  have hb : o.mode.isBare = true := Mode.isBare_of_isDirect (isDirect_of_settle hf ho)
  cases w with
  | some w =>
    obtain ⟨hm, -, hval, hd⟩ := mode_of_settle_direct hf ho
    obtain ⟨h0, hlt⟩ := lt_byteRange_of_domain hf hd
    exact ⟨hval, h0, hm ▸ hlt, hb⟩
  | none =>
    obtain ⟨ha, rfl⟩ := (settle_direct_none hf).1 ho
    refine ⟨rfl, ha.1, ?_, hb⟩
    split
    · have hle : z ≤ 0xFFFFFF := ha.2
      have h₃ : byteRange 3 = 0x1000000 := rfl
      rw [operandBytes_rung_long, h₃]
      omega
    · exact lt_byteRange_rung ha

theorem fits_of_settle_indexedY (ho : Form.indexedY.settle site memory base ⟨z, w⟩ = .ok o) :
    Fits o z := by
  have hb : o.mode.isBare = true := Mode.isBare_of_isIndexedY (isIndexedY_of_settle ho)
  obtain ⟨a, ha, -, hv, rfl⟩ := settle_indexedY_eq_ok.1 ho
  obtain ⟨-, -, rfl⟩ := Address.ofSized_eq_ok.1 ha
  refine ⟨rfl, hv.1, ?_, hb⟩
  simp only [Address.toOperand]
  split
  · have hle : z ≤ 0xFFFF := hv.2
    have h₂ : byteRange Mode.absoluteY.operandBytes = 0x10000 := rfl
    rw [h₂]
    omega
  · next hn =>
    have h₁ : byteRange Mode.directY.operandBytes = 0x100 := rfl
    rw [h₁]
    simp only [not_or] at hn
    omega

theorem fits_of_settle (hf : f = .plain ∨ f = .indexedX ∨ f = .indexedY)
    (ho : f.settle site memory base ⟨z, w⟩ = .ok o) : Fits o z := by
  rcases hf with hf | hf | rfl
  · exact fits_of_settle_direct (.inl hf) ho
  · exact fits_of_settle_direct (.inr hf) ho
  · exact fits_of_settle_indexedY ho

def HasRoom (o : Operand) : Prop :=
  0 ≤ o.value ∧ o.value < byteRange (InstructionSet.lengthIn o.width o.mode - 1)

theorem lengthIn_sub_one {m : Mode} (hm : m ≠ .immediate16) :
    InstructionSet.lengthIn w m - 1 = m.operandBytes := by
  rw [InstructionSet.lengthIn, if_neg fun h ↦ hm h.1, Mode.length, Nat.add_sub_cancel]

theorem hasRoom_of_operandBytes (hm : o.mode ≠ .immediate16) (h : 0 ≤ o.value)
    (hlt : o.value < byteRange o.mode.operandBytes) : o.HasRoom :=
  ⟨h, by rw [lengthIn_sub_one hm]; exact hlt⟩

theorem hasRoom_of_fits (h : Fits o z) : o.HasRoom := by
  obtain ⟨rfl, h0, hlt, hb⟩ := h
  refine hasRoom_of_operandBytes ?_ h0 hlt
  intro hm
  rw [hm] at hb
  cases hb

theorem hasRoom_of_branch {b : Branch} {d : Int} (hm : o.mode = b.mode)
    (hv : o.value = b.width.truncate d) : o.HasRoom := by
  have hsize : b.width.size = byteRange b.mode.operandBytes := by cases b <;> rfl
  refine hasRoom_of_operandBytes ?_ ?_ ?_
  · rw [hm]
    cases b <;> decide
  · rw [hv]
    exact Width.truncate_nonneg ..
  · rw [hv, hm, ← hsize]
    exact Width.truncate_lt ..

theorem hasRoom_of_immediate {z : Sized}
    (hm : o.mode = if base = .immediate8 then .immediate8 else .immediate16)
    (hw : o.width = Form.immediate.width base z.width)
    (hv : o.value = Form.immediate.value site base z) (ha : z.IsImmediate base) : o.HasRoom := by
  have hroom {w : Width} (hsize : byteRange (InstructionSet.lengthIn o.width o.mode - 1) = w.size)
      (hv : o.value = w.truncate z.value) : o.HasRoom := by
    refine ⟨hv ▸ Width.truncate_nonneg .., ?_⟩
    rw [hsize, hv]
    exact Width.truncate_lt ..
  simp only [Form.value, Form.width] at hv hw
  unfold Sized.IsImmediate at ha
  by_cases hb : base = .immediate8
  · simp only [hb, if_true] at hm hv hw
    exact hroom (w := .byte) (by rw [hm, hw]; rfl) hv
  · simp only [hb, if_false] at hm hv hw ha
    cases hz : z.width with
    | none =>
      rw [hz] at hv hw
      exact hroom (w := .word) (by rw [hm, hw]; rfl) hv
    | some w =>
      rw [hz] at hv hw ha
      cases w with
      | byte => exact hroom (w := .byte) (by rw [hm, hw]; rfl) hv
      | word => exact hroom (w := .word) (by rw [hm, hw]; rfl) hv
      | long => cases ha

theorem hasRoom_of_settle_fixed {m : Mode} {z : Sized} {d : Domain} (hf : f.fixed? base = some m)
    (h : f.settle site memory base z = .ok o) (hv : o.value = z.value) (hd : d.Holds z.value)
    (hbyte : d.least = 0 ∧ d.greatest = 0xFF) (hm : m.operandBytes = 1) : o.HasRoom := by
  obtain ⟨rfl, -⟩ := mode_of_settle_fixed hf h
  have hle : z.value ≤ 0xFF := hbyte.2 ▸ hd.2
  refine hasRoom_of_operandBytes ?_ ?_ ?_
  · intro h16
    rw [h16] at hm
    cases hm
  · rw [hv, ← hbyte.1]
    exact hd.1
  · rw [hv, hm]
    exact Int.lt_of_le_of_lt hle (by decide)

theorem hasRoom_of_settle_nearFar {near far : Mode} {z : Sized}
    (hf : f.nearFar? = some (near, far)) (h : f.settle site memory base z = .ok o)
    (hv : o.value = z.value) (hd : Domain.absolute.Holds z.value) : o.HasRoom := by
  obtain ⟨hm, -⟩ := mode_of_settle_nearFar hf h
  have hbytes : near.operandBytes = 1 ∧ far.operandBytes = 2 ∧ near ≠ .immediate16 ∧
      far ≠ .immediate16 := by
    cases f <;> cases hf <;> decide
  have hle : z.value ≤ 0xFFFF := hd.2
  have h₁ : byteRange 1 = 0x100 := rfl
  have h₂ : byteRange 2 = 0x10000 := rfl
  refine hasRoom_of_operandBytes ?_ (hv ▸ hd.1) ?_
  · rw [hm]
    split
    · exact hbytes.2.2.2
    · exact hbytes.2.2.1
  · rw [hv, hm]
    split
    · rw [hbytes.2.1, h₂]
      omega
    · rw [hbytes.1, h₁]
      omega

/-- Whatever a form settles to has room for its value, but for a target on the first pass. -/
theorem hasRoom_of_settle {z : Sized} (hp : ∀ b, f = .target b → site.pass = .final)
    (h : f.settle site memory base z = .ok o) : o.HasRoom := by
  have hv := value_of_settle hp h
  have ha := (exists_settle_iff hp).1 ⟨o, h⟩
  cases f with
  | target b => exact hasRoom_of_branch (mode_of_settle_fixed rfl h).1 hv
  | distance b => exact hasRoom_of_branch (mode_of_settle_fixed rfl h).1 hv
  | immediate =>
    exact hasRoom_of_immediate (mode_of_settle_fixed rfl h).1 (mode_mem_family h).2 hv ha
  | plain => exact hasRoom_of_fits (fits_of_settle (.inl rfl) h)
  | indexedX => exact hasRoom_of_fits (fits_of_settle (.inr (.inl rfl)) h)
  | indexedY => exact hasRoom_of_fits (fits_of_settle (.inr (.inr rfl)) h)
  | onStack => exact hasRoom_of_settle_fixed rfl h hv ha.2 ⟨rfl, rfl⟩ rfl
  | indirect => exact hasRoom_of_settle_nearFar rfl h hv ha
  | indirectY => exact hasRoom_of_settle_fixed rfl h hv ha ⟨rfl, rfl⟩ rfl
  | indexedIndirect => exact hasRoom_of_settle_nearFar rfl h hv ha
  | stackIndirectY => exact hasRoom_of_settle_fixed rfl h hv ha ⟨rfl, rfl⟩ rfl
  | indirectLong => exact hasRoom_of_settle_nearFar rfl h hv ha
  | indirectLongY => exact hasRoom_of_settle_fixed rfl h hv ha ⟨rfl, rfl⟩ rfl

section

variable {σ : Type} [TokenSource σ] {eval : Expr.Evaluator σ} {width : Option Width} {t : Token}
variable {s r : σ}

/-- The operand is the target of a branch: it is there, and it is not marked as a distance. -/
def Aims (base : Mode) (width : Option Width) (s : σ) : Prop :=
  (base = .relative ∨ base = .relativeLong) ∧
    ∃ w t q, (suffix width).run s = .ok (w, t) q ∧ t.isStop = false ∧ t.isSymbol '#' = false

theorem base_of_target {b : Branch} (h : Opening.ofToken? base t = some (.target b)) :
    (base = .relative ∨ base = .relativeLong) ∧ t.isSymbol '#' = false := by
  by_cases h₁ : base = .relative
  · subst h₁
    refine ⟨.inl rfl, ?_⟩
    by_cases ht : t.isSymbol '#' = true
    · simp [Opening.ofToken?, ht] at h
    · exact Bool.eq_false_iff.2 ht
  by_cases h₂ : base = .relativeLong
  · subst h₂
    refine ⟨.inr rfl, ?_⟩
    by_cases ht : t.isSymbol '#' = true
    · simp [Opening.ofToken?, ht] at h
    · exact Bool.eq_false_iff.2 ht
  by_cases h₃ : base = .blockMove
  · subst h₃
    cases h
  rw [ofToken?_of_ne h₁ h₂ h₃] at h
  split at h
  · cases h
  · split at h
    · cases h
    · split at h <;> cases h

theorem hasRoom_of_run_blockMove (h : (blockMove site eval width t).run s = .ok o r) :
    o.HasRoom := by
  obtain ⟨z, q, z', -, -, -, -, ⟨hl, hl'⟩, ⟨hh, hh'⟩, rfl⟩ := run_blockMove_eq_ok.1 h
  have hl : 0 ≤ z.value := hl
  have hl' : z.value ≤ 0xFF := hl'
  have hh : 0 ≤ z'.value := hh
  have hh' : z'.value ≤ 0xFF := hh'
  have h₂ : byteRange Mode.blockMove.operandBytes = 0x10000 := rfl
  refine hasRoom_of_operandBytes (by simp) ?_ ?_
  · change 0 ≤ z.value + 0x100 * z'.value
    omega
  · change z.value + 0x100 * z'.value < byteRange Mode.blockMove.operandBytes
    rw [h₂]
    omega

theorem hasRoom_of_run_parse (h : (parse site eval memory base width).run s = .ok o r)
    (hp : site.pass = .final ∨ ¬Aims base width s) : o.HasRoom := by
  obtain ⟨w, t, q, hs, ⟨-, rfl, -⟩ | ⟨ht, p, hb, -⟩⟩ := run_parse_eq_ok.1 h
  · exact ⟨Int.le_refl 0, byteRange_pos _⟩
  · cases hx : Opening.ofToken? base t with
    | none =>
      obtain rfl := Opening.eq_blockMove_of_ofToken? hx
      exact hasRoom_of_run_blockMove hb
    | some x =>
      obtain ⟨z, q', f, -, hf, ho⟩ := (run_body_eq_ok hx).1 hb
      refine hasRoom_of_settle ?_ ho
      intro b hfb
      refine hp.resolve_right fun hn ↦ hn ?_
      have hxb : x = .target b := by rw [← yields_closing x _ _ _ hf, hfb]; rfl
      obtain ⟨hbase, hmark⟩ := base_of_target (hxb ▸ hx)
      exact ⟨hbase, w, t, q, hs, ht, hmark⟩

end

end Operand

namespace InstructionSet

variable {set : InstructionSet} {pass : Pass} {e : Entry} {en : Encoding}

theorem lt_byteRange_of_join (ho : o.HasRoom) (h : set.join pass e o = .ok en) :
    0 ≤ en.value ∧ en.value < byteRange (en.length - 1) := by
  obtain ⟨h0, hlt⟩ := ho
  cases hp : o.isPadded e.mnemonic with
  | true =>
    obtain ⟨row, -, rfl⟩ := (join_of_padded hp).1 h
    have hle := (isPadded_eq_true.1 hp).2.2.2.2
    have hnop : (nop.toNat : Int) = 0xEA := rfl
    have h₃ : byteRange (4 - 1) = 0x1000000 := rfl
    simp only [hnop, h₃]
    omega
  | false =>
    obtain ⟨⟨opcode, mode⟩, hc, rfl⟩ := (join_of_not_padded hp).1 h
    refine ⟨h0, ?_⟩
    rcases choose_mode_or hc with hm | hm
    · have hm : mode = o.mode := hm
      rw [hm]
      exact hlt
    · obtain ⟨hne, hne'⟩ := ne_immediate16_of_wider? hm
      rw [lengthIn_sub_one hne] at hlt
      simp only [lengthIn_sub_one hne']
      exact Int.lt_of_lt_of_le hlt (byteRange_le_of_wider? hm)

end InstructionSet

end Asm65816
