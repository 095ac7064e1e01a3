import Asm65816.Proofs.Operand.Form

namespace Asm65816

def Width.ofAddress (v : Int) : Width :=
  if 0xFFFF < v then .long else if 0xFF < v then .word else .byte

def Mode.isDirect : Mode → Bool
  | direct | absolute | long | directX | absoluteX | longX => true
  | _ => false

def Mode.isIndexedY : Mode → Bool
  | directY | absoluteY => true
  | _ => false

def Mode.isBare (m : Mode) : Bool := m.isDirect || m.isIndexedY

theorem Mode.isIndexedY_of_isDirect {m : Mode} : m.isDirect = true → m.isIndexedY = false := by
  cases m <;> decide

theorem Mode.isBare_of_isDirect {m : Mode} (h : m.isDirect = true) : m.isBare = true := by
  simp [isBare, h]

theorem Mode.isBare_of_isIndexedY {m : Mode} (h : m.isIndexedY = true) : m.isBare = true := by
  simp [isBare, h]

namespace Operand

open TokenSource Grammar

def Form.rung : Form → Width → Mode
  | indexedX, .byte => .directX
  | indexedX, .word => .absoluteX
  | indexedX, .long => .longX
  | _, .byte => .direct
  | _, .word => .absolute
  | _, .long => .long

def Form.fixed? (base : Mode) : Form → Option Mode
  | target b | distance b => some b.mode
  | immediate => some (if base = .immediate8 then .immediate8 else .immediate16)
  | onStack => some .stackRelative
  | indirectY => some .indirectY
  | stackIndirectY => some .stackRelativeIndirectY
  | indirectLongY => some .indirectLongY
  | _ => none

def Form.nearFar? : Form → Option (Mode × Mode)
  | indirect => some (.indirect, .absoluteIndirect)
  | indexedIndirect => some (.indexedIndirect, .absoluteIndexedIndirect)
  | indirectLong => some (.indirectLong, .absoluteIndirectLong)
  | _ => none

/-- Whether an address without a forced width is given room for its widest form. -/
def isWide (site : Site) (memory : UInt32 → UInt8) (v : Int) : Prop :=
  site.isForward memory = true ∨ site.pass = .first ∧ v = 0

instance (site : Site) (memory : UInt32 → UInt8) (v : Int) : Decidable (isWide site memory v) :=
  inferInstanceAs (Decidable (_ ∨ _))

section

variable {site : Site} {memory : UInt32 → UInt8} {base : Mode} {v : Int} {o : Operand} {f : Form}
variable {a : Address} {z : Sized} {w : Width}

theorem map_eq_ok {α β : Type} {x : Except Fault α} {g : α → β} {y : β} :
    x.map g = .ok y ↔ ∃ u, x = .ok u ∧ y = g u := by
  cases x <;> simp [Except.map, eq_comm (a := y)]

theorem bind_eq_ok {α β : Type} {x : Except Fault α} {g : α → Except Fault β} {y : β} :
    x.bind g = .ok y ↔ ∃ u, x = .ok u ∧ g u = .ok y := by
  cases x <;> simp [Except.bind]

theorem Sized.immediate_eq_ok (h : z.immediate base = .ok o) :
    o.mode = (if base = .immediate8 then .immediate8 else .immediate16) ∧
      o.width = if base = .immediate8 then some .byte else z.width := by
  unfold Sized.immediate at h
  by_cases hb : base = .immediate8
  · simp only [hb, if_true] at h ⊢
    obtain ⟨u, -, rfl⟩ := map_eq_ok.1 h
    exact ⟨rfl, rfl⟩
  · simp only [hb, if_false] at h ⊢
    split at h
    · next hw =>
      obtain ⟨u, -, rfl⟩ := map_eq_ok.1 h
      exact ⟨rfl, rfl⟩
    · obtain ⟨u, -, rfl⟩ := map_eq_ok.1 h
      exact ⟨rfl, rfl⟩
    · obtain ⟨u, -, rfl⟩ := map_eq_ok.1 h
      exact ⟨rfl, rfl⟩
    · cases h

theorem Sized.fixed_eq_ok {m : Mode} {d : Domain} (h : z.fixed m d = .ok o) :
    o.mode = m ∧ o.width = z.width := by
  obtain ⟨u, -, rfl⟩ := map_eq_ok.1 h
  exact ⟨rfl, rfl⟩

theorem Sized.nearOrFar_eq_ok {near far : Mode} (h : z.nearOrFar near far = .ok o) :
    o.mode = (if 0xFF < z.value then far else near) ∧ o.width = z.width := by
  obtain ⟨u, hu, rfl⟩ := map_eq_ok.1 h
  obtain ⟨-, rfl⟩ := Domain.check_eq_ok_iff.1 hu
  exact ⟨rfl, rfl⟩

theorem Sized.address_eq_ok :
    z.address = .ok v ↔
      Domain.address.Holds z.value ∧ (∀ w, z.width = some w → (Sized.domain w).Holds z.value) ∧
        v = z.value := by
  obtain ⟨u, width⟩ := z
  by_cases h : Domain.address.Holds u
  · cases width with
    | none =>
      have ha : (Sized.mk u none).address = .ok u := by
        rw [Sized.address, Domain.check_of_holds h]
        rfl
      rw [ha]
      constructor
      · intro hv
        cases hv
        exact ⟨h, fun w hw ↦ (by cases hw), rfl⟩
      · intro hv
        rw [hv.2.2]
    | some w =>
      have ha : (Sized.mk u (some w)).address = (Sized.domain w).check u := by
        rw [Sized.address, Domain.check_of_holds h]
        rfl
      rw [ha, Domain.check_eq_ok_iff]
      constructor
      · intro hv
        obtain ⟨hw, rfl⟩ := hv
        refine ⟨h, ?_, rfl⟩
        intro w' hw'
        cases hw'
        exact hw
      · intro hv
        obtain ⟨-, hw, rfl⟩ := hv
        exact ⟨hw w rfl, rfl⟩
  · have ha : (Sized.mk u width).address = .error (.outOfRange Domain.address u) := by
      rw [Sized.address, Domain.check_of_not_holds h]
      rfl
    rw [ha]
    simp only [reduceCtorEq, h, false_and]

theorem Address.ofSized_eq_ok :
    Address.ofSized site memory z = .ok a ↔
      Domain.address.Holds z.value ∧ (∀ w, z.width = some w → (Sized.domain w).Holds z.value) ∧
        a = ⟨z.value, z.width, site.isForward memory,
          decide (z.width = none ∧ isWide site memory z.value)⟩ := by
  have hm : Address.ofSized site memory z = .ok a ↔ ∃ v, z.address = .ok v ∧
      a = ⟨v, z.width, site.isForward memory, decide (z.width = none ∧ isWide site memory v)⟩ := by
    unfold Address.ofSized isWide
    cases z.address with
    | error e => simp [Except.map]
    | ok u =>
      constructor
      · intro h'
        cases h'
        exact ⟨u, rfl, rfl⟩
      · intro h'
        obtain ⟨_, ⟨⟩, rfl⟩ := h'
        rfl
  rw [hm]
  simp only [Sized.address_eq_ok]
  constructor
  · intro h'
    obtain ⟨v, ⟨h, hw, rfl⟩, ha⟩ := h'
    exact ⟨h, hw, ha⟩
  · intro h'
    obtain ⟨h, hw, ha⟩ := h'
    exact ⟨_, ⟨h, hw, rfl⟩, ha⟩

theorem Address.plain_eq_rung (h : a.width = none) :
    a.plain = Form.plain.rung (if a.wide then .long else .ofAddress a.value) := by
  unfold Address.plain Width.ofAddress
  rw [h]
  cases a.wide with
  | true => rfl
  | false =>
    by_cases hl : 0xFFFF < a.value
    · simp [hl, Form.rung]
    · by_cases hw : 0xFF < a.value <;> simp [hl, hw, Form.rung]

theorem Address.indexedX_eq_rung (h : a.width = none) :
    a.indexedX = Form.indexedX.rung (if a.wide then .long else .ofAddress a.value) := by
  unfold Address.indexedX Width.ofAddress
  rw [h]
  cases a.wide with
  | true => rfl
  | false =>
    by_cases hl : 0xFFFF < a.value
    · simp [hl, Form.rung]
    · by_cases hw : 0xFF < a.value <;> simp [hl, hw, Form.rung]

theorem Address.plain_of_width (h : a.width = some w) : a.plain = Form.plain.rung w := by
  unfold Address.plain
  rw [h]
  cases w <;> rfl

theorem Address.indexedX_of_width (h : a.width = some w) (hw : (Sized.domain w).Holds a.value)
    (hwide : a.wide = false) : a.indexedX = Form.indexedX.rung w := by
  have hle := hw.2
  unfold Address.indexedX
  rw [h, hwide]
  cases w with
  | long => rfl
  | word =>
    have hv : ¬0xFFFF < a.value := Int.not_lt.2 hle
    simp [hv, Form.rung]
  | byte =>
    have hv : a.value ≤ 0xFF := hle
    have hl : ¬0xFFFF < a.value := by omega
    simp [hl, Int.not_lt.2 hv, Form.rung]

theorem onStack_settle_eq_ok (h : Form.onStack.settle site memory base z = .ok o) :
    o.mode = .stackRelative ∧ o.width = z.width := by
  obtain ⟨a, ha, ho⟩ := bind_eq_ok.1 h
  obtain ⟨-, -, rfl⟩ := Address.ofSized_eq_ok.1 ha
  obtain ⟨m, hm, rfl⟩ := map_eq_ok.1 ho
  obtain ⟨u, -, rfl⟩ := map_eq_ok.1 hm
  exact ⟨rfl, rfl⟩

theorem mode_of_settle_fixed {m : Mode} (hf : f.fixed? base = some m)
    (h : f.settle site memory base z = .ok o) :
    o.mode = m ∧
      o.width = if f = .immediate ∧ base = .immediate8 then some .byte else z.width := by
  cases f with
  | target b =>
    cases hf
    obtain ⟨u, -, rfl⟩ := map_eq_ok.1 h
    exact ⟨rfl, rfl⟩
  | distance b =>
    cases hf
    obtain ⟨u, -, rfl⟩ := map_eq_ok.1 h
    exact ⟨rfl, rfl⟩
  | immediate =>
    cases hf
    simpa using Sized.immediate_eq_ok h
  | onStack =>
    cases hf
    exact onStack_settle_eq_ok h
  | indirectY =>
    cases hf
    exact Sized.fixed_eq_ok h
  | stackIndirectY =>
    cases hf
    exact Sized.fixed_eq_ok h
  | indirectLongY =>
    cases hf
    exact Sized.fixed_eq_ok h
  | _ => cases hf

theorem mode_of_settle_nearFar {near far : Mode} (hf : f.nearFar? = some (near, far))
    (h : f.settle site memory base z = .ok o) :
    o.mode = (if 0xFF < z.value then far else near) ∧ o.width = z.width := by
  cases f with
  | indirect => cases hf; exact Sized.nearOrFar_eq_ok h
  | indexedIndirect => cases hf; exact Sized.nearOrFar_eq_ok h
  | indirectLong => cases hf; exact Sized.nearOrFar_eq_ok h
  | _ => cases hf

theorem Form.cases (f : Form) (base : Mode) :
    (∃ m, f.fixed? base = some m) ∨ (∃ near far, f.nearFar? = some (near, far)) ∨
      f = .plain ∨ f = .indexedX ∨ f = .indexedY := by
  cases f <;> simp [Form.fixed?, Form.nearFar?]

/-- An address without a forced width is as wide as its value, unless it is given more room. -/
theorem settle_direct_none (hf : f = .plain ∨ f = .indexedX) :
    f.settle site memory base ⟨v, none⟩ = .ok o ↔
      Domain.address.Holds v ∧
        o = ⟨f.rung (if isWide site memory v then .long else .ofAddress v), v, none,
          site.isForward memory⟩ := by
  have hs : f.settle site memory base ⟨v, none⟩ = .ok o ↔
      ∃ a, Address.ofSized site memory ⟨v, none⟩ = .ok a ∧
        o = a.toOperand (f.rung (if a.wide then .long else .ofAddress a.value)) := by
    cases h : Address.ofSized site memory ⟨v, none⟩ with
    | error e => rcases hf with rfl | rfl <;> simp [Form.settle, h, Except.map]
    | ok a =>
      have hw : a.width = none := by rw [(Address.ofSized_eq_ok.1 h).2.2]
      have ho : f.settle site memory base ⟨v, none⟩ =
          .ok (a.toOperand (f.rung (if a.wide then .long else .ofAddress a.value))) := by
        rcases hf with rfl | rfl
        · rw [Form.settle, h, ← Address.plain_eq_rung hw]
          rfl
        · rw [Form.settle, h, ← Address.indexedX_eq_rung hw]
          rfl
      rw [ho]
      constructor
      · intro h'
        cases h'
        exact ⟨a, rfl, rfl⟩
      · intro h'
        obtain ⟨a', ha', rfl⟩ := h'
        cases ha'
        rfl
  rw [hs]
  simp only [Address.ofSized_eq_ok, reduceCtorEq, false_implies, implies_true, true_and]
  constructor
  · intro h'
    obtain ⟨a, ⟨h, rfl⟩, ho⟩ := h'
    exact ⟨h, by simpa [Address.toOperand] using ho⟩
  · intro h'
    obtain ⟨h, ho⟩ := h'
    exact ⟨_, ⟨h, rfl⟩, by simpa [Address.toOperand] using ho⟩

theorem value_of_settle_none (hf : f = .plain ∨ f = .indexedX)
    (h : f.settle site memory base ⟨v, none⟩ = .ok o) : o.value = v := by
  rw [((settle_direct_none hf).1 h).2]

theorem mode_of_settle_direct (hf : f = .plain ∨ f = .indexedX)
    (h : f.settle site memory base ⟨v, some w⟩ = .ok o) :
    o.mode = f.rung w ∧ o.width = some w ∧ o.value = v ∧ (Sized.domain w).Holds v := by
  cases ha : Address.ofSized site memory ⟨v, some w⟩ with
  | error e => rcases hf with rfl | rfl <;> simp [Form.settle, ha, Except.map] at h
  | ok a =>
    obtain ⟨-, hw, rfl⟩ := Address.ofSized_eq_ok.1 ha
    rcases hf with rfl | rfl
    · rw [Form.settle, ha] at h
      cases h
      exact ⟨Address.plain_of_width rfl, rfl, rfl, hw w rfl⟩
    · rw [Form.settle, ha] at h
      cases h
      exact ⟨Address.indexedX_of_width rfl (hw w rfl) (by simp), rfl, rfl, hw w rfl⟩

theorem Address.indexedY_eq_ok {m : Mode} :
    a.indexedY = .ok m ↔
      a.width ≠ some .long ∧ Domain.absolute.Holds a.value ∧
        m = if a.wide ∨ a.width = some .word ∨ 0xFF < a.value then .absoluteY else .directY := by
  unfold Address.indexedY
  by_cases hl : a.width = some .long
  · simp [hl]
  · rw [if_neg hl]
    by_cases h : Domain.absolute.Holds a.value
    · rw [Domain.check_of_holds h]
      constructor
      · intro h'
        cases h'
        exact ⟨hl, h, rfl⟩
      · intro h'
        obtain ⟨-, -, rfl⟩ := h'
        rfl
    · rw [Domain.check_of_not_holds h]
      simp [Except.map, h]

theorem settle_indexedY_eq_ok :
    Form.indexedY.settle site memory base z = .ok o ↔
      ∃ a, Address.ofSized site memory z = .ok a ∧ a.width ≠ some .long ∧
        Domain.absolute.Holds a.value ∧
        o = a.toOperand
          (if a.wide ∨ a.width = some .word ∨ 0xFF < a.value then .absoluteY else .directY) := by
  cases h : Address.ofSized site memory z with
  | error e => simp [Form.settle, h, Except.bind]
  | ok a =>
    have hs : Form.indexedY.settle site memory base z = .ok o ↔
        ∃ m, a.indexedY = .ok m ∧ o = a.toOperand m := by
      rw [Form.settle, h]
      change a.indexedY.map a.toOperand = .ok o ↔ _
      cases a.indexedY <;> simp [Except.map, eq_comm (a := o)]
    rw [hs]
    simp only [Address.indexedY_eq_ok]
    constructor
    · intro h'
      obtain ⟨m, ⟨hl, hv, rfl⟩, ho⟩ := h'
      exact ⟨a, rfl, hl, hv, ho⟩
    · intro h'
      obtain ⟨_, ⟨⟩, hl, hv, ho⟩ := h'
      exact ⟨_, ⟨hl, hv, rfl⟩, ho⟩

theorem settle_indexedY_none (h : Form.indexedY.settle site memory base ⟨v, none⟩ = .ok o) :
    Domain.absolute.Holds v ∧
      o = ⟨if isWide site memory v ∨ 0xFF < v then .absoluteY else .directY, v, none,
        site.isForward memory⟩ := by
  obtain ⟨a, ha, -, hv, rfl⟩ := settle_indexedY_eq_ok.1 h
  obtain ⟨-, -, rfl⟩ := Address.ofSized_eq_ok.1 ha
  exact ⟨hv, by simp [Address.toOperand]⟩

theorem mode_of_settle_indexedY (h : Form.indexedY.settle site memory base ⟨v, some w⟩ = .ok o) :
    o.mode = (if w = .byte then .directY else .absoluteY) ∧ o.width = some w := by
  obtain ⟨a, ha, hl, -, rfl⟩ := settle_indexedY_eq_ok.1 h
  obtain ⟨-, hw, rfl⟩ := Address.ofSized_eq_ok.1 ha
  refine ⟨?_, rfl⟩
  cases w with
  | long => exact absurd rfl hl
  | word => simp [Address.toOperand]
  | byte =>
    have hv : ¬0xFF < v := Int.not_lt.2 (hw .byte rfl).2
    simp [Address.toOperand, hv]

theorem Form.wider?_of_nearFar? {near far : Mode} (hf : f.nearFar? = some (near, far)) :
    near.wider? = some far ∧ far.wider? = none ∧ near ≠ .direct ∧ near ≠ .absolute := by
  cases f <;> cases hf <;> decide

theorem isBare_of_fixed? {m : Mode} (hf : f.fixed? base = some m)
    (h : f.settle site memory base z = .ok o) : o.mode.isBare = false := by
  rw [(mode_of_settle_fixed hf h).1]
  cases f with
  | target b => cases hf; cases b <;> rfl
  | distance b => cases hf; cases b <;> rfl
  | immediate =>
    cases hf
    split <;> rfl
  | onStack | indirectY | stackIndirectY | indirectLongY => cases hf; rfl
  | _ => cases hf

theorem isBare_of_nearFar? {near far : Mode} (hf : f.nearFar? = some (near, far))
    (h : f.settle site memory base z = .ok o) : o.mode.isBare = false := by
  rw [(mode_of_settle_nearFar hf h).1]
  cases f <;> cases hf <;> split <;> rfl

theorem isDirect_of_settle (hf : f = .plain ∨ f = .indexedX)
    (h : f.settle site memory base z = .ok o) : o.mode.isDirect = true := by
  have hrung {w : Width} : (f.rung w).isDirect = true := by
    rcases hf with rfl | rfl <;> cases w <;> rfl
  obtain ⟨v, _ | w⟩ := z
  · rw [((settle_direct_none hf).1 h).2]
    exact hrung
  · rw [(mode_of_settle_direct hf h).1]
    exact hrung

theorem isIndexedY_of_settle (h : Form.indexedY.settle site memory base z = .ok o) :
    o.mode.isIndexedY = true := by
  obtain ⟨a, -, -, -, rfl⟩ := settle_indexedY_eq_ok.1 h
  simp only [Address.toOperand]
  split <;> rfl

theorem isBare_of_settle (hf : f = .plain ∨ f = .indexedX ∨ f = .indexedY)
    (h : f.settle site memory base z = .ok o) : o.mode.isBare = true := by
  rw [← or_assoc] at hf
  rcases hf with hf | rfl
  · exact Mode.isBare_of_isDirect (isDirect_of_settle hf h)
  · exact Mode.isBare_of_isIndexedY (isIndexedY_of_settle h)

theorem form_of_isDirect (hm : o.mode.isDirect = true)
    (h : f.settle site memory base z = .ok o) : f = .plain ∨ f = .indexedX := by
  have hb : o.mode.isBare = true := Mode.isBare_of_isDirect hm
  rcases f.cases base with ⟨m, hf⟩ | ⟨near, far, hf⟩ | hf | hf | rfl
  · rw [isBare_of_fixed? hf h] at hb
    cases hb
  · rw [isBare_of_nearFar? hf h] at hb
    cases hb
  · exact .inl hf
  · exact .inr hf
  · have hy := isIndexedY_of_settle h
    rw [Mode.isIndexedY_of_isDirect hm] at hy
    cases hy

theorem form_of_isIndexedY (hm : o.mode.isIndexedY = true)
    (h : f.settle site memory base z = .ok o) : f = .indexedY := by
  have hb : o.mode.isBare = true := Mode.isBare_of_isIndexedY hm
  have hd (hf : f = .plain ∨ f = .indexedX) : f = .indexedY := by
    rw [Mode.isIndexedY_of_isDirect (isDirect_of_settle hf h)] at hm
    cases hm
  rcases f.cases base with ⟨m, hf⟩ | ⟨near, far, hf⟩ | hf | hf | hf
  · rw [isBare_of_fixed? hf h] at hb
    cases hb
  · rw [isBare_of_nearFar? hf h] at hb
    cases hb
  · exact hd (.inl hf)
  · exact hd (.inr hf)
  · exact hf

end

end Operand

end Asm65816
