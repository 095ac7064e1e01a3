import Asm65816.Proofs.Operand.Capacity
import Asm65816.Proofs.Operand.Slack

namespace Asm65816

def Mode.Holds (m : Mode) (v : Int) : Prop := 0 ≤ v ∧ v < byteRange m.operandBytes

instance (m : Mode) (v : Int) : Decidable (m.Holds v) := inferInstanceAs (Decidable (_ ∧ _))

theorem Mode.Holds.domain {m : Mode} {v : Int} {d : Domain} (h : m.Holds v) (hd : d.least = 0)
    (hm : byteRange m.operandBytes ≤ d.greatest + 1) : d.Holds v := by
  obtain ⟨h0, hlt⟩ := h
  exact ⟨hd ▸ h0, by omega⟩

theorem Mode.Holds.address {m : Mode} {v : Int} (h : m.Holds v) : Domain.address.Holds v :=
  h.domain rfl (by cases m <;> decide)

namespace Operand

open TokenSource Grammar

def Form.isAddress : Form → Bool
  | target _ | distance _ | immediate => false
  | _ => true

def Form.modes (base : Mode) (width : Option Width) (f : Form) : List Mode :=
  if f = .indexedY ∧ width = some .long then [] else f.family base width

/-- An address that no width is forced on, plain or indexed by X or Y, is given all the room there
is where its value was missing. -/
def Form.GivenRoom (site : Site) (memory : UInt32 → UInt8) (width : Option Width) (f : Form) :
    Prop :=
  (f = .plain ∨ f = .indexedX ∨ f = .indexedY) ∧ width = none ∧ site.isForward memory = true

section

variable {site : Site} {memory : UInt32 → UInt8} {base : Mode} {v : Int} {w : Option Width}
variable {o : Operand} {f : Form} {m : Mode}

theorem ne_target_of_isAddress (hf : f.isAddress = true) (b : Branch) : f ≠ .target b := by
  rintro rfl
  cases hf

theorem mem_modes (h : f.settle site memory base ⟨v, w⟩ = .ok o) : o.mode ∈ f.modes base w := by
  unfold Form.modes
  rw [if_neg]
  · exact (mode_mem_family h).1
  · rintro ⟨rfl, rfl⟩
    obtain ⟨a, ha, hw, -⟩ := settle_indexedY_eq_ok.1 h
    rw [(Address.ofSized_eq_ok.1 ha).2.2] at hw
    exact hw rfl

theorem ne_immediate16_of_mem_modes (hf : f.isAddress = true) (hm : m ∈ f.modes base w) :
    m ≠ .immediate16 := by
  rintro rfl
  cases f <;> rcases w with _ | _ | _ | _ <;>
    simp [Form.isAddress, Form.modes, Form.family, Form.rung] at hf hm

theorem holds_of_settle (hf : f.isAddress = true)
    (h : f.settle site memory base ⟨v, w⟩ = .ok o) : o.value = v ∧ o.mode.Holds v := by
  have ht (b : Branch) (hb : f = .target b) : site.pass = .final :=
    absurd hb (ne_target_of_isAddress hf b)
  have hv : o.value = v := by
    rw [value_of_settle ht h]
    cases f <;> first | rfl | cases hf
  obtain ⟨h0, hlt⟩ := hasRoom_of_settle ht h
  rw [lengthIn_sub_one (ne_immediate16_of_mem_modes hf (mem_modes h)), hv] at hlt
  rw [hv] at h0
  exact ⟨hv, h0, hlt⟩

theorem inReach_of_holds (h : m.Holds v)
    (hw : ∀ u, w = some u → byteRange m.operandBytes ≤ (Sized.domain u).greatest + 1) :
    (Sized.mk v w).InReach :=
  ⟨h.address, fun u hu ↦ h.domain (by cases u <;> rfl) (hw u hu)⟩

theorem inReach_of_direct (hf : f = .plain ∨ f = .indexedX) (hm : m ∈ f.modes base w)
    (h : m.Holds v) : (Sized.mk v w).InReach := by
  refine inReach_of_holds h ?_
  rintro u rfl
  have hm : m = f.rung u := by rcases hf with rfl | rfl <;> simpa [Form.modes, Form.family] using hm
  rw [hm]
  rcases hf with rfl | rfl <;> cases u <;> decide

theorem admits_indexedY_of_holds (hm : m ∈ Form.indexedY.modes base w) (h : m.Holds v) :
    Form.indexedY.Admits site base ⟨v, w⟩ := by
  cases w with
  | none =>
    have hb : byteRange m.operandBytes ≤ 0x10000 := by
      rcases List.mem_pair.1 hm with rfl | rfl <;> decide
    exact ⟨inReach_of_holds h (by simp), by simp, h.domain rfl hb⟩
  | some u =>
    cases u with
    | byte =>
      obtain rfl := List.mem_singleton.1 hm
      have hreach : (Sized.mk v (some .byte)).InReach :=
        inReach_of_holds h fun u hu ↦ by cases hu; decide
      exact ⟨hreach, by simp, h.domain rfl (by decide)⟩
    | word =>
      obtain rfl := List.mem_singleton.1 hm
      have hreach : (Sized.mk v (some .word)).InReach :=
        inReach_of_holds h fun u hu ↦ by cases hu; decide
      exact ⟨hreach, by simp, h.domain rfl (by decide)⟩
    | long => simp [Form.modes] at hm

/-- A form has a mode with room for each value that it admits, and admits no other. -/
theorem admits_of_holds (hf : f.isAddress = true) (hm : m ∈ f.modes base w) (h : m.Holds v) :
    f.Admits site base ⟨v, w⟩ := by
  have hfixed {n : Mode} {d : Domain} (hmodes : f.modes base w = [n]) (hd : d.least = 0)
      (hn : byteRange n.operandBytes ≤ d.greatest + 1) : d.Holds v := by
    rw [hmodes, List.mem_singleton] at hm
    exact h.domain hd (hm ▸ hn)
  have hnearFar {near far : Mode} (hmodes : f.modes base w = [near, far])
      (hnear : near.operandBytes = 1) (hfar : far.operandBytes = 2) : Domain.absolute.Holds v := by
    rw [hmodes, List.mem_pair] at hm
    refine h.domain rfl ?_
    rcases hm with rfl | rfl
    · rw [hnear]; decide
    · rw [hfar]; decide
  cases f with
  | target b | distance b | immediate => cases hf
  | plain => exact inReach_of_direct (.inl rfl) hm h
  | indexedX => exact inReach_of_direct (.inr rfl) hm h
  | indexedY => exact admits_indexedY_of_holds hm h
  | onStack =>
    obtain rfl := List.mem_singleton.1 hm
    exact ⟨inReach_of_holds h fun u _ ↦ by cases u <;> decide, h.domain rfl (by decide)⟩
  | indirect => exact hnearFar rfl rfl rfl
  | indirectY => exact hfixed rfl rfl (by decide)
  | indexedIndirect => exact hnearFar rfl rfl rfl
  | stackIndirectY => exact hfixed rfl rfl (by decide)
  | indirectLong => exact hnearFar rfl rfl rfl
  | indirectLongY => exact hfixed rfl rfl (by decide)

theorem exists_settle_address_iff (hf : f.isAddress = true) :
    (∃ o, f.settle site memory base ⟨v, w⟩ = .ok o) ↔ ∃ m ∈ f.modes base w, m.Holds v := by
  have ht (b : Branch) (hb : f = .target b) : site.pass = .final :=
    absurd hb (ne_target_of_isAddress hf b)
  constructor
  · rintro ⟨o, h⟩
    exact ⟨o.mode, mem_modes h, (holds_of_settle hf h).2⟩
  · rintro ⟨m, hm, h⟩
    exact (exists_settle_iff ht).2 (admits_of_holds hf hm h)

theorem mem_modes_direct (hf : f = .plain ∨ f = .indexedX) :
    m ∈ f.modes base none ↔ ∃ u, m = f.rung u := by
  have hmodes : f.modes base none = [f.rung .byte, f.rung .word, f.rung .long] := by
    rcases hf with rfl | rfl <;> rfl
  rw [hmodes]
  constructor
  · intro h
    simp only [List.mem_cons, List.not_mem_nil, or_false] at h
    rcases h with h | h | h
    · exact ⟨_, h⟩
    · exact ⟨_, h⟩
    · exact ⟨_, h⟩
  · rintro ⟨u, rfl⟩
    cases u <;> simp

theorem bits_ofAddress_le {u : Width} (h : v < u.size) : (Width.ofAddress v).bits ≤ u.bits := by
  unfold Width.ofAddress
  cases u with
  | byte =>
    have h : v < 0x100 := h
    exact Nat.le_of_eq (by rw [if_neg (by omega), if_neg (by omega)])
  | word =>
    have h : v < 0x10000 := h
    rw [if_neg (by omega)]
    split <;> decide
  | long =>
    split
    · decide
    · split <;> decide

theorem operandBytes_rung {u : Width} :
    (f.rung u).operandBytes = u.bits / 8 ∧ byteRange (f.rung u).operandBytes = u.size := by
  cases u <;> cases f <;> exact ⟨rfl, rfl⟩

theorem length_rung_ofAddress_le (hf : f = .plain ∨ f = .indexedX) (hm : m ∈ f.modes base none)
    (hv : m.Holds v) : (f.rung (.ofAddress v)).length ≤ m.length := by
  obtain ⟨u, rfl⟩ := (mem_modes_direct hf).1 hm
  have hbits : (Width.ofAddress v).bits ≤ u.bits := bits_ofAddress_le (operandBytes_rung.2 ▸ hv.2)
  rw [Mode.length, Mode.length, operandBytes_rung.1, operandBytes_rung.1]
  exact Nat.succ_le_succ (Nat.div_le_div_right hbits)

theorem modes_of_some (hf : f = .plain ∨ f = .indexedX ∨ f = .indexedY) (u : Width) :
    f.modes base (some u) = [] ∨ ∃ n, f.modes base (some u) = [n] := by
  unfold Form.modes
  split
  · exact .inl rfl
  · rcases hf with rfl | rfl | rfl <;> exact .inr ⟨_, rfl⟩

/-- Without room that was made for it, an address is encoded in the narrowest of its modes that has
room for its value. -/
theorem length_le_of_settle (hp : site.pass = .final)
    (h : f.settle site memory base ⟨v, w⟩ = .ok o) (hroom : ¬f.GivenRoom site memory w)
    (hm : m ∈ f.modes base w) (hv : m.Holds v) : o.mode.length ≤ m.length := by
  have ho : o.mode ∈ f.modes base w := mem_modes h
  have hunique {n : Mode} (hmodes : f.modes base w = [n]) : o.mode.length ≤ m.length := by
    rw [hmodes, List.mem_singleton] at hm ho
    exact Nat.le_of_eq (by rw [hm, ho])
  rcases f.cases base with ⟨n, hn⟩ | ⟨near, far, hn⟩ | hd
  · refine hunique (n := n) ?_
    cases f <;> cases hn <;> rfl
  · have hmodes : f.modes base w = [near, far] := by cases f <;> cases hn <;> rfl
    have hnear : near.operandBytes = 1 := by cases f <;> cases hn <;> rfl
    have hfar : near.length ≤ far.length := by
      rw [Mode.length_of_wider? (Form.wider?_of_nearFar? hn).1]
      exact Nat.le_succ _
    obtain ⟨hmode, -⟩ := mode_of_settle_nearFar hn h
    rw [hmodes, List.mem_pair] at hm
    rcases hm with rfl | rfl
    · obtain ⟨-, hlt⟩ := hv
      rw [hnear] at hlt
      exact Nat.le_of_eq (by rw [hmode, if_neg (Int.not_lt.2 (Int.le_of_lt_add_one hlt))])
    · rw [hmode]
      split
      · exact Nat.le_refl _
      · exact hfar
  · cases w with
    | some u =>
      rcases modes_of_some hd u with hmodes | ⟨n, hmodes⟩
      · rw [hmodes] at hm
        cases hm
      · exact hunique hmodes
    | none =>
      have hnarrow : ¬isWide site memory v := fun hw ↦
        hroom ⟨hd, rfl, (isWide_final hp).1 hw⟩
      rw [← or_assoc] at hd
      rcases hd with hd | rfl
      · have heq := ((settle_direct_none hd).1 h).2
        rw [if_neg hnarrow] at heq
        rw [heq]
        exact length_rung_ofAddress_le hd hm hv
      · have heq := (settle_indexedY_none h).2
        rcases List.mem_pair.1 hm with rfl | rfl
        · have hlt : v < 0x100 := hv.2
          rw [if_neg (not_or.2 ⟨hnarrow, by omega⟩)] at heq
          exact Nat.le_of_eq (by rw [heq])
        · rcases List.mem_pair.1 ho with ho | ho
          · exact Nat.le_of_lt (by rw [ho]; decide)
          · exact Nat.le_of_eq (by rw [ho])

theorem length_ge_of_settle (h : f.settle site memory base ⟨v, w⟩ = .ok o)
    (hroom : f.GivenRoom site memory w) (hm : m ∈ f.modes base w) : m.length ≤ o.mode.length := by
  obtain ⟨hf, rfl, hF⟩ := hroom
  rw [← or_assoc] at hf
  rcases hf with hf | rfl
  · have heq := ((settle_direct_none hf).1 h).2
    rw [if_pos (.inl hF)] at heq
    rw [heq, length_rung_long]
    exact m.length_le_four
  · have heq := (settle_indexedY_none h).2
    rw [if_pos (.inl (.inl hF))] at heq
    rw [heq]
    change m.length ≤ Mode.absoluteY.length
    rcases List.mem_pair.1 hm with rfl | rfl <;> decide

end

section

variable {site : Site} {labels : String → Option Int} {memory : UInt32 → UInt8} {base : Mode}
variable {width w : Option Width} {line : Line} {f : Form} {v : Int}

/-- The final pass accepts an address if one of its modes has room for its value. It takes the
narrowest of them, and the widest where room was made for the address. The value is kept. -/
theorem run_parse_address (hp : site.pass = .final) (hf : f.isAddress = true)
    (hx : Written labels base width line.words (.single f ⟨v, w⟩)) :
    ((∃ o r, (parse site (Expr.sum labels) memory base width).run line = .ok o r) ↔
      ∃ m ∈ f.modes base w, m.Holds v) ∧
    ∀ o r, (parse site (Expr.sum labels) memory base width).run line = .ok o r →
      o.value = v ∧ o.mode ∈ f.modes base w ∧ o.mode.Holds v ∧
      (f.GivenRoom site memory w → ∀ m ∈ f.modes base w, m.length ≤ o.mode.length) ∧
      (¬f.GivenRoom site memory w →
        ∀ m ∈ f.modes base w, m.Holds v → o.mode.length ≤ m.length) := by
  have hiff (o : Operand) :
      (∃ r, (parse site (Expr.sum labels) memory base width).run line = .ok o r) ↔
        f.settle site memory base ⟨v, w⟩ = .ok o := exists_run_parse_eq_ok_iff hx
  constructor
  · rw [← exists_settle_address_iff hf]
    exact exists_congr hiff
  · intro o r h
    have hs : f.settle site memory base ⟨v, w⟩ = .ok o := (hiff o).1 ⟨r, h⟩
    obtain ⟨hvalue, hholds⟩ := holds_of_settle hf hs
    exact ⟨hvalue, mem_modes hs, hholds, fun hroom m hm ↦ length_ge_of_settle hs hroom hm,
      fun hroom m hm hv ↦ length_le_of_settle hp hs hroom hm hv⟩

def byteIndexed : Line :=
  ⟨[⟨.number, "$FF", 4⟩, ⟨.symbol, ",", 7⟩, ⟨.identifier, "x", 8⟩], 9⟩

theorem run_parse_address_byteIndexed :
    ∃ o r, (parse (.ofAddress .final 0x8000) (Expr.sum fun _ ↦ none) (fun _ ↦ 0xFF) .implied
      none).run byteIndexed = .ok o r ∧ o.value = 0xFF ∧ o.mode = .directX := by
  have hx : Written (fun _ ↦ none) .implied none byteIndexed.words
      (.single .indexedX ⟨0xFF, none⟩) := by
    have hz : Quantity (fun _ ↦ none) Form.indexedX.opening.marks none
        [⟨.number, "$FF", 4⟩] ⟨0xFF, none⟩ := .bare (.term (.number rfl (by decide)))
    have hb : Spells Form.indexedX.behind [⟨.symbol, ",", 7⟩, ⟨.identifier, "x", 8⟩] :=
      .cons (by decide) (.cons (by decide) .nil)
    exact .plain (@Body.single _ _ _ .indexedX [] _ _ _ (by decide) .nil hz hb)
  have hroom : ¬Form.indexedX.GivenRoom (.ofAddress .final 0x8000) (fun _ ↦ 0xFF) none := by
    rintro ⟨-, -, hF⟩
    revert hF
    decide
  have hdirect : Mode.directX ∈ Form.indexedX.modes .implied none := by decide
  have hfinal : (Site.ofAddress .final 0x8000).pass = .final := rfl
  obtain ⟨hiff, hmode⟩ := run_parse_address hfinal rfl hx
  obtain ⟨o, r, h⟩ := hiff.2 ⟨.directX, hdirect, by decide⟩
  obtain ⟨hvalue, hmem, -, -, hnarrow⟩ := hmode o r h
  have hle : o.mode.length ≤ 2 := hnarrow hroom .directX hdirect (by decide)
  refine ⟨o, r, h, hvalue, ?_⟩
  obtain ⟨u, hu⟩ := (mem_modes_direct (.inr rfl)).1 hmem
  rw [hu] at hle ⊢
  cases u with
  | byte => rfl
  | word | long => exact absurd hle (by decide)

end

end Operand

end Asm65816
