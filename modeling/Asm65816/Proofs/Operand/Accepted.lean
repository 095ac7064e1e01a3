import Asm65816.Proofs.Operand.Reading

namespace Asm65816.Operand

open TokenSource Grammar

def Sized.InReach (z : Sized) : Prop :=
  Domain.address.Holds z.value ∧ ∀ w, z.width = some w → (Sized.domain w).Holds z.value

def Sized.IsImmediate (base : Mode) (z : Sized) : Prop :=
  if base = .immediate8 then Domain.constant8.Holds z.value
  else match z.width with
    | some .byte => Domain.constant8.Holds z.value
    | some .word | none => Domain.constant16.Holds z.value
    | some .long => False

def Form.Admits (site : Site) (base : Mode) (z : Sized) : Form → Prop
  | target b => b.displacements.Holds (z.value - (site.pc + b.mode.length))
  | distance b => b.constants.Holds z.value
  | immediate => z.IsImmediate base
  | plain | indexedX => z.InReach
  | indexedY => z.InReach ∧ z.width ≠ some .long ∧ Domain.absolute.Holds z.value
  | onStack => z.InReach ∧ Domain.stackOffset.Holds z.value
  | indirect | indexedIndirect | indirectLong => Domain.absolute.Holds z.value
  | indirectY | indirectLongY => Domain.directPage.Holds z.value
  | stackIndirectY => Domain.stackOffset.Holds z.value

def Form.family (base : Mode) (width : Option Width) : Form → List Mode
  | target b | distance b => [b.mode]
  | immediate => [if base = .immediate8 then .immediate8 else .immediate16]
  | plain => width.elim [.direct, .absolute, .long] ([plain.rung ·])
  | indexedX => width.elim [.directX, .absoluteX, .longX] ([indexedX.rung ·])
  | indexedY => width.elim [.directY, .absoluteY] fun w ↦
      [if w = .byte then .directY else .absoluteY]
  | onStack => [.stackRelative]
  | indirect => [.indirect, .absoluteIndirect]
  | indirectY => [.indirectY]
  | indexedIndirect => [.indexedIndirect, .absoluteIndexedIndirect]
  | stackIndirectY => [.stackRelativeIndirectY]
  | indirectLong => [.indirectLong, .absoluteIndirectLong]
  | indirectLongY => [.indirectLongY]

def Form.width (base : Mode) (width : Option Width) : Form → Option Width
  | immediate => if base = .immediate8 then some .byte else width
  | _ => width

/-- The value of an operand: a distance for a branch, and the low bits of a signed constant. -/
def Form.value (site : Site) (base : Mode) (z : Sized) : Form → Int
  | target b => b.width.truncate (z.value - (site.pc + b.mode.length))
  | distance b => b.width.truncate z.value
  | immediate => ((immediate.width base z.width).getD .word).truncate z.value
  | _ => z.value

def Reading.Admitted (site : Site) (base : Mode) : Reading → Prop
  | nothing _ => True
  | single f z => f.Admits site base z
  | move z z' => Domain.blockSource.Holds z.value ∧ Domain.blockDestination.Holds z'.value

def Reading.family (base : Mode) : Reading → List Mode
  | nothing _ => [base]
  | single f z => f.family base z.width
  | move _ _ => [.blockMove]

def Reading.width (base : Mode) : Reading → Option Width
  | nothing width => width
  | single f z => f.width base z.width
  | move _ z' => z'.width

def Reading.value (site : Site) (base : Mode) : Reading → Int
  | nothing _ => 0
  | single f z => f.value site base z
  | move z z' => z.value + 0x100 * z'.value

section

variable {site : Site} {memory : UInt32 → UInt8} {base : Mode} {width : Option Width}
variable {z : Sized} {o : Operand} {f : Form} {x : Reading} {b : Branch} {d : Domain} {m : Mode}

theorem exists_map_check_iff {v : Int} {g : Int → Operand} :
    (∃ o, (d.check v).map g = .ok o) ↔ d.Holds v := by
  simp only [map_eq_ok, Domain.check_eq_ok_iff]
  constructor
  · rintro ⟨o, u, ⟨h, -⟩, -⟩
    exact h
  · intro h
    exact ⟨g v, v, ⟨h, rfl⟩, rfl⟩

theorem exists_ofSized_iff {P : Address → Prop} :
    (∃ a, Address.ofSized site memory z = .ok a ∧ P a) ↔
      z.InReach ∧ P ⟨z.value, z.width, site.isForward memory,
        decide (z.width = none ∧ isWide site memory z.value)⟩ := by
  simp only [Address.ofSized_eq_ok]
  constructor
  · rintro ⟨_, ⟨h, hw, rfl⟩, hp⟩
    exact ⟨⟨h, hw⟩, hp⟩
  · rintro ⟨⟨h, hw⟩, hp⟩
    exact ⟨_, ⟨h, hw, rfl⟩, hp⟩

theorem settle_target_eq (hp : site.pass = .final) :
    (Form.target b).settle site memory base z =
      (b.displacements.check (z.value - (site.pc + b.mode.length))).map fun v ↦
        ⟨b.mode, b.width.truncate v, z.width, false⟩ := by
  rw [Form.settle, Branch.operand_final hp]
  cases b.displacements.check (z.value - (site.pc + b.mode.length)) <;> rfl

theorem exists_immediate_iff : (∃ o, z.immediate base = .ok o) ↔ z.IsImmediate base := by
  unfold Sized.immediate Sized.IsImmediate
  by_cases hb : base = .immediate8
  · simp only [hb, if_true]
    exact exists_map_check_iff
  · simp only [hb, if_false]
    cases z.width with
    | none => exact exists_map_check_iff
    | some w =>
      cases w with
      | byte => exact exists_map_check_iff
      | word => exact exists_map_check_iff
      | long => simp

theorem settle_onStack_eq_ok :
    Form.onStack.settle site memory base z = .ok o ↔
      ∃ a, Address.ofSized site memory z = .ok a ∧ Domain.stackOffset.Holds a.value ∧
        o = a.toOperand .stackRelative := by
  simp only [Form.settle, Address.onStack, bind_eq_ok, map_eq_ok, Domain.check_eq_ok_iff]
  constructor
  · rintro ⟨a, ha, _, ⟨_, ⟨hv, -⟩, rfl⟩, ho⟩
    exact ⟨a, ha, hv, ho⟩
  · rintro ⟨a, ha, hv, ho⟩
    exact ⟨a, ha, _, ⟨_, ⟨hv, rfl⟩, rfl⟩, ho⟩

/-- A form settles just for the values that it admits, a branch to a target on the final pass
only. -/
theorem exists_settle_iff (hp : ∀ b, f = .target b → site.pass = .final) :
    (∃ o, f.settle site memory base z = .ok o) ↔ f.Admits site base z := by
  have hplain {g : Address → Operand} :
      (∃ o, (Address.ofSized site memory z).map g = .ok o) ↔ z.InReach := by
    simp only [map_eq_ok]
    rw [exists_comm]
    simpa using exists_ofSized_iff (P := fun _ ↦ True)
  cases f with
  | target b =>
    rw [settle_target_eq (hp b rfl)]
    exact exists_map_check_iff
  | distance b => exact exists_map_check_iff
  | immediate => exact exists_immediate_iff
  | plain => exact hplain
  | indexedX => exact hplain
  | indexedY =>
    simp only [settle_indexedY_eq_ok]
    rw [exists_comm]
    simp only [exists_and_left, exists_eq, and_true]
    exact exists_ofSized_iff
  | onStack =>
    have hs : (∃ o, Form.onStack.settle site memory base z = .ok o) ↔
        ∃ a, Address.ofSized site memory z = .ok a ∧ Domain.stackOffset.Holds a.value := by
      simp only [settle_onStack_eq_ok]
      rw [exists_comm]
      simp only [exists_and_left, exists_eq, and_true]
    rw [hs]
    exact exists_ofSized_iff
  | indirect => exact exists_map_check_iff
  | indirectY => exact exists_map_check_iff
  | indexedIndirect => exact exists_map_check_iff
  | stackIndirectY => exact exists_map_check_iff
  | indirectLong => exact exists_map_check_iff
  | indirectLongY => exact exists_map_check_iff

theorem mode_mem_family_of_direct (hf : f = .plain ∨ f = .indexedX)
    (h : f.settle site memory base z = .ok o) :
    o.mode ∈ f.family base z.width ∧ o.width = f.width base z.width := by
  obtain ⟨v, width⟩ := z
  cases width with
  | none =>
    rw [((settle_direct_none hf).1 h).2]
    generalize (if isWide site memory v then Width.long else .ofAddress v) = w
    rcases hf with rfl | rfl <;> exact ⟨by cases w <;> simp [Form.family, Form.rung], rfl⟩
  | some w =>
    obtain ⟨hm, hw, -, -⟩ := mode_of_settle_direct hf h
    rcases hf with rfl | rfl <;> exact ⟨by simp [hm, Form.family], hw⟩

theorem mode_mem_family (h : f.settle site memory base z = .ok o) :
    o.mode ∈ f.family base z.width ∧ o.width = f.width base z.width := by
  obtain ⟨v, width⟩ := z
  rcases f.cases base with ⟨m, hf⟩ | ⟨near, far, hf⟩ | hf | hf | rfl
  · obtain ⟨hm, hw⟩ := mode_of_settle_fixed hf h
    cases f <;> cases hf <;> simp [hm, hw, Form.family, Form.width]
  · obtain ⟨hm, hw⟩ := mode_of_settle_nearFar hf h
    cases f <;> cases hf <;> simp only [hm, hw, Form.family, Form.width] <;> split <;> simp
  · exact mode_mem_family_of_direct (.inl hf) h
  · exact mode_mem_family_of_direct (.inr hf) h
  · cases width with
    | none =>
      rw [(settle_indexedY_none h).2]
      refine ⟨?_, rfl⟩
      change ite _ _ _ ∈ [Mode.directY, .absoluteY]
      split <;> simp
    | some w =>
      obtain ⟨hm, hw⟩ := mode_of_settle_indexedY h
      exact ⟨by simp [hm, Form.family], hw⟩

theorem value_of_immediate (h : z.immediate base = .ok o) :
    o.value = Form.immediate.value site base z := by
  unfold Sized.immediate at h
  by_cases hb : base = .immediate8
  · simp only [hb, if_true] at h
    obtain ⟨v, hv, rfl⟩ := map_eq_ok.1 h
    obtain ⟨-, rfl⟩ := Domain.check_eq_ok_iff.1 hv
    simp [Form.value, Form.width, hb]
  · simp only [hb, if_false] at h
    have hw : Form.immediate.width base z.width = z.width := if_neg hb
    simp only [Form.value, hw]
    cases hz : z.width with
    | none =>
      rw [hz] at h
      obtain ⟨v, hv, rfl⟩ := map_eq_ok.1 h
      obtain ⟨-, rfl⟩ := Domain.check_eq_ok_iff.1 hv
      rfl
    | some w =>
      rw [hz] at h
      cases w with
      | byte | word =>
        obtain ⟨v, hv, rfl⟩ := map_eq_ok.1 h
        obtain ⟨-, rfl⟩ := Domain.check_eq_ok_iff.1 hv
        rfl
      | long => cases h

theorem value_of_settle (hp : ∀ b, f = .target b → site.pass = .final)
    (h : f.settle site memory base z = .ok o) :
    o.value = f.value site base z := by
  have hcheck {d : Domain} {g : Int → Operand} {v : Int} (hg : (d.check v).map g = .ok o) :
      o = g v := by
    obtain ⟨u, hu, rfl⟩ := map_eq_ok.1 hg
    obtain ⟨-, rfl⟩ := Domain.check_eq_ok_iff.1 hu
    rfl
  have haddress {a : Address} (ha : Address.ofSized site memory z = .ok a) :
      a.value = z.value := by rw [(Address.ofSized_eq_ok.1 ha).2.2]
  cases f with
  | target b =>
    rw [settle_target_eq (hp b rfl)] at h
    rw [hcheck h]
    rfl
  | distance b =>
    rw [hcheck h]
    rfl
  | immediate => exact value_of_immediate h
  | plain | indexedX =>
    obtain ⟨a, ha, rfl⟩ := map_eq_ok.1 h
    exact haddress ha
  | indexedY =>
    obtain ⟨a, ha, -, -, rfl⟩ := settle_indexedY_eq_ok.1 h
    exact haddress ha
  | onStack =>
    obtain ⟨a, ha, -, rfl⟩ := settle_onStack_eq_ok.1 h
    exact haddress ha
  | _ =>
    rw [hcheck h]
    rfl

theorem exists_settle_reading_iff (hp : site.pass = .final) :
    (∃ o, x.settle site memory base = .ok o) ↔ x.Admitted site base := by
  cases x with
  | nothing width => exact ⟨fun _ ↦ trivial, fun _ ↦ ⟨_, rfl⟩⟩
  | single f z => exact exists_settle_iff fun _ _ ↦ hp
  | move z z' =>
    simp only [settle_move_eq_ok]
    simp [Reading.Admitted]

theorem settle_reading_eq_ok (hp : site.pass = .final)
    (h : x.settle site memory base = .ok o) :
    o.mode ∈ x.family base ∧ o.width = x.width base ∧ o.value = x.value site base := by
  cases x with
  | nothing width =>
    cases h
    exact ⟨List.mem_singleton_self base, rfl, rfl⟩
  | single f z =>
    obtain ⟨hm, hw⟩ := mode_mem_family h
    exact ⟨hm, hw, value_of_settle (fun _ _ ↦ hp) h⟩
  | move z z' =>
    obtain ⟨-, -, rfl⟩ := settle_move_eq_ok.1 h
    exact ⟨List.mem_singleton_self _, rfl, rfl⟩

end

section

variable {site : Site} {labels : String → Option Int} {memory : UInt32 → UInt8} {base : Mode}
variable {width : Option Width} {line : Line}

/-- The final pass accepts just the operands that are written as the base mode allows, with values
that their form admits. The mode, the width and the value of the operand are those of the form. -/
theorem run_parse_iff_written (hp : site.pass = .final) :
    ((∃ o r, (parse site (Expr.sum labels) memory base width).run line = .ok o r) ↔
      ∃ x, Written labels base width line.words x ∧ x.Admitted site base) ∧
    ∀ o r x, (parse site (Expr.sum labels) memory base width).run line = .ok o r →
      Written labels base width line.words x → x.Admitted site base →
      o.mode ∈ x.family base ∧ o.width = x.width base ∧ o.value = x.value site base := by
  refine ⟨⟨?_, ?_⟩, ?_⟩
  · rintro ⟨o, r, h⟩
    obtain ⟨x, hx, ho⟩ := exists_written hp h
    exact ⟨x, hx, (exists_settle_reading_iff hp).1 ⟨o, ho⟩⟩
  · rintro ⟨x, hx, ha⟩
    obtain ⟨o, ho⟩ := (exists_settle_reading_iff hp).2 ha
    obtain ⟨r, h⟩ := run_parse_of_written hx ho
    exact ⟨o, r, h⟩
  · intro o r x h hx ha
    obtain ⟨o', ho⟩ := (exists_settle_reading_iff hp).2 ha
    obtain ⟨r', h'⟩ := run_parse_of_written hx ho
    rw [h] at h'
    cases h'
    exact settle_reading_eq_ok hp ho

end

def lowByteIndexed : Line :=
  ⟨[⟨.symbol, "<", 4⟩, ⟨.number, "$1234", 5⟩, ⟨.symbol, ",", 10⟩, ⟨.identifier, "X", 11⟩], 12⟩

theorem run_parse_lowByteIndexed :
    ∃ o r, (parse (.ofAddress .final 0x8000) (Expr.sum fun _ ↦ none) (fun _ ↦ 0) .implied
      none).run lowByteIndexed = .ok o r ∧
        o.mode ∈ [Mode.directX] ∧ o.width = some .byte ∧ o.value = 0x34 := by
  have hx : Written (fun _ ↦ none) .implied none lowByteIndexed.words
      (.single .indexedX ⟨0x34, some .byte⟩) := by
    have hz : Quantity (fun _ ↦ none) Form.indexedX.opening.marks none
        [⟨.symbol, "<", 4⟩, ⟨.number, "$1234", 5⟩] ⟨0x34, some .byte⟩ :=
      .marked (v := 0x1234) List.mem_cons_self (by decide) (.term (.number rfl (by decide)))
    have hb : Spells Form.indexedX.behind [⟨.symbol, ",", 10⟩, ⟨.identifier, "X", 11⟩] :=
      .cons (by decide) (.cons (by decide) .nil)
    exact .plain (@Body.single _ _ _ .indexedX [] _ _ _ (by decide) .nil hz hb)
  have ha : (Reading.single .indexedX ⟨0x34, some .byte⟩).Admitted (.ofAddress .final 0x8000)
      .implied := ⟨by decide, fun w hw ↦ by cases hw; decide⟩
  have hfinal : (Site.ofAddress .final 0x8000).pass = .final := rfl
  obtain ⟨hiff, hmode⟩ := run_parse_iff_written hfinal
  obtain ⟨o, r, h⟩ := hiff.2 ⟨_, hx, ha⟩
  exact ⟨o, r, h, hmode o r _ h hx ha⟩

end Asm65816.Operand
