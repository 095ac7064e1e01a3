import Asm65816.Proofs.Assembly.Sizes

namespace Asm65816.Operand

open TokenSource Grammar

/-- An expression without a forced width, plain or indexed by X or Y. How long its instruction gets
hangs on whether its value was missing. -/
def isFlexible (o : Operand) : Bool := o.width.isNone && o.mode.isBare

/-- An operand that was given room because its value was missing, and turns out to need less. -/
def isSlack (o : Operand) : Bool :=
  o.isFlexible && o.forward && o.value ≤ if o.mode.isIndexedY then 0xFF else 0xFFFF

section

variable {site : Site} {memory memory' : UInt32 → UInt8} {base : Mode} {z : Sized} {o : Operand}
variable {f : Form} {a : Address} {v : Int}

theorem isFlexible_eq_true : o.isFlexible = true ↔ o.width = none ∧ o.mode.isBare = true := by
  simp [isFlexible]

theorem isSlack_eq_true : o.isSlack = true ↔ o.isFlexible = true ∧ o.forward = true ∧
    o.value ≤ if o.mode.isIndexedY then 0xFF else 0xFFFF := by
  simp [isSlack, and_assoc]

theorem ofSized_congr (h : site.isForward memory = site.isForward memory') :
    Address.ofSized site memory = Address.ofSized site memory' := by
  funext z
  unfold Address.ofSized
  rw [h]

/-- An operand depends on what is in memory only as far as that tells whether its value was
missing. -/
theorem settle_congr (h : site.isForward memory = site.isForward memory') :
    f.settle site memory base z = f.settle site memory' base z := by
  unfold Form.settle
  rw [ofSized_congr h]

theorem parse_congr {σ : Type} [TokenSource σ] {eval : Expr.Evaluator σ} {width : Option Width}
    (h : site.isForward memory = site.isForward memory') :
    parse site eval memory base width = parse site eval memory' base width := by
  have hd (width : Option Width) (t : Token) :
      direct site eval memory width t = direct site eval memory' width t := by
    unfold direct
    rw [ofSized_congr h]
  have hb (width : Option Width) (t : Token) :
      body site eval memory base width t = body site eval memory' base width t := by
    unfold body
    simp only [hd]
  unfold parse
  simp only [hb]

theorem run_parse_eq_ok_iff_settle {σ : Type} [TokenSource σ] {eval : Expr.Evaluator σ}
    {width : Option Width} {s r : σ}
    (h : (parse site eval memory base width).run s = .ok o r) :
    (o.isSlack = false ∧ ∀ memory', (parse site eval memory' base width).run s = .ok o r) ∨
      ∃ (f : Form) (z : Sized), f.settle site memory base z = .ok o ∧ ∀ memory' o' r',
        (parse site eval memory' base width).run s = .ok o' r' ↔
          f.settle site memory' base z = .ok o' ∧ r' = r := by
  obtain ⟨w, t, q, hs, ⟨ht, ho, hr⟩ | ⟨ht, p, hb, he⟩⟩ := run_parse_eq_ok.1 h
  · refine .inl ⟨?_, fun memory' ↦ run_parse_eq_ok.2 ⟨w, t, q, hs, .inl ⟨ht, ho, hr⟩⟩⟩
    simp [isSlack, ho]
  · cases hx : Opening.ofToken? base t with
    | none =>
      obtain rfl := Opening.eq_blockMove_of_ofToken? hx
      refine .inl ⟨?_, fun memory' ↦ run_parse_eq_ok.2 ⟨w, t, q, hs, .inr ⟨ht, p, hb, he⟩⟩⟩
      have hm := mode_of_run_blockMove hb
      simp [isSlack, isFlexible, hm, Mode.isBare, Mode.isDirect, Mode.isIndexedY]
    | some x =>
      obtain ⟨z, p', f, hz, hf, ho⟩ := (run_body_eq_ok hx).1 hb
      refine .inr ⟨f, z, ho, fun memory' o' r' ↦ ⟨fun h' ↦ ?_, fun h' ↦ ?_⟩⟩
      · obtain ⟨_, _, _, hs', ⟨ht', -, -⟩ | ⟨-, q', hb', he'⟩⟩ := run_parse_eq_ok.1 h'
        · rw [hs] at hs'
          cases hs'
          rw [ht] at ht'
          cases ht'
        · rw [hs] at hs'
          cases hs'
          obtain ⟨z', p'', f', hz', hf', ho'⟩ := (run_body_eq_ok hx).1 hb'
          rw [hz] at hz'
          cases hz'
          rw [hf] at hf'
          cases hf'
          rw [he] at he'
          cases he'
          exact ⟨ho', rfl⟩
      · obtain ⟨ho', rfl⟩ := h'
        have hb' := (run_body_eq_ok hx).2 ⟨z, p', f, hz, hf, ho'⟩
        exact run_parse_eq_ok.2 ⟨w, t, q, hs, .inr ⟨ht, p, hb', he⟩⟩

theorem form_of_isFlexible (ho : o.isFlexible = true) (h : f.settle site memory base z = .ok o) :
    z = ⟨o.value, none⟩ ∧
      ((f = .plain ∨ f = .indexedX) ∧ o.mode.isDirect = true ∨
        f = .indexedY ∧ o.mode.isIndexedY = true) := by
  obtain ⟨hwidth, hbare⟩ := isFlexible_eq_true.1 ho
  obtain ⟨v, width⟩ := z
  rcases Bool.or_eq_true_iff.1 hbare with hm | hm
  · have hf := form_of_isDirect hm h
    cases width with
    | none => exact ⟨by rw [value_of_settle_none hf h], .inl ⟨hf, hm⟩⟩
    | some w =>
      rw [(mode_of_settle_direct hf h).2.1] at hwidth
      cases hwidth
  · obtain rfl := form_of_isIndexedY hm h
    cases width with
    | none => exact ⟨by rw [(settle_indexedY_none h).2], .inr ⟨rfl, hm⟩⟩
    | some w =>
      rw [(mode_of_settle_indexedY h).2] at hwidth
      cases hwidth

theorem isFlexible_iff (h : f.settle site memory base z = .ok o) :
    o.isFlexible = true ↔ (f = .plain ∨ f = .indexedX ∨ f = .indexedY) ∧ z.width = none := by
  constructor
  · intro ho
    obtain ⟨rfl, ⟨hf, -⟩ | ⟨hf, -⟩⟩ := form_of_isFlexible ho h
    · exact ⟨hf.imp_right .inl, rfl⟩
    · exact ⟨.inr (.inr hf), rfl⟩
  · rintro ⟨hf, hz⟩
    have hw : o.width = z.width := by
      rcases hf with rfl | rfl | rfl <;> exact (mode_mem_family h).2
    exact isFlexible_eq_true.2 ⟨hw.trans hz, isBare_of_settle hf h⟩

theorem width_of_not_isFlexible (ho : o.isFlexible = false) (hb : o.mode.isBare = true) :
    o.width ≠ none := by
  intro hw
  rw [isFlexible_eq_true.2 ⟨hw, hb⟩] at ho
  cases ho

theorem forward_of_isFlexible (ho : o.isFlexible = true)
    (h : f.settle site memory base z = .ok o) : o.forward = site.isForward memory := by
  obtain ⟨rfl, ⟨hf, -⟩ | ⟨rfl, -⟩⟩ := form_of_isFlexible ho h
  · rw [((settle_direct_none hf).1 h).2]
  · rw [(settle_indexedY_none h).2]

theorem ofSized_of_ofSized (memory' : UInt32 → UInt8)
    (h : Address.ofSized site memory z = .ok a) :
    ∃ wide, (a.width ≠ none → wide = a.wide) ∧
      Address.ofSized site memory' z =
        .ok { a with forward := site.isForward memory', wide } := by
  obtain ⟨hv, hd, rfl⟩ := Address.ofSized_eq_ok.1 h
  refine ⟨_, fun hw ↦ ?_, Address.ofSized_eq_ok.2 ⟨hv, hd, rfl⟩⟩
  simp [hw]

theorem settle_indexedY_of_holds (h : Domain.absolute.Holds v) :
    Form.indexedY.settle site memory base ⟨v, none⟩ =
      .ok ⟨if isWide site memory v ∨ 0xFF < v then .absoluteY else .directY, v, none,
        site.isForward memory⟩ := by
  have ha : Domain.address.Holds v := by
    have hle : v ≤ 0xFFFF := h.2
    exact ⟨h.1, Int.le_trans hle (by decide)⟩
  have hs : Address.ofSized site memory ⟨v, none⟩ = .ok _ :=
    Address.ofSized_eq_ok.2 ⟨ha, by simp, rfl⟩
  refine settle_indexedY_eq_ok.2 ⟨_, hs, by simp, h, ?_⟩
  simp [Address.toOperand]

theorem isPadded_of_not_isFlexible {m : Mnemonic} (ho : o.isFlexible = false) :
    o.isPadded m = false := by
  refine Bool.eq_false_iff.2 fun hp ↦ ?_
  obtain ⟨-, -, hw, hm, -⟩ := InstructionSet.isPadded_eq_true.1 hp
  rw [isFlexible_eq_true.2 ⟨hw, by rw [hm]; rfl⟩] at ho
  cases ho

theorem join_with_forward {set : InstructionSet} {p : Pass} {e : Entry} {forward : Bool}
    (h : { o with forward }.isPadded e.mnemonic = o.isPadded e.mnemonic) :
    set.join p e { o with forward } = set.join p e o := by
  unfold InstructionSet.join
  rw [h]

theorem hasRoom_of_isFlexible (ho : o.isFlexible = true)
    (h : f.settle site memory base z = .ok o) : o.HasRoom := by
  refine hasRoom_of_settle ?_ h
  rintro b rfl
  obtain ⟨-, ⟨⟨⟨⟩⟩ | ⟨⟨⟩⟩, -⟩ | ⟨⟨⟩, -⟩⟩ := form_of_isFlexible ho h

theorem value_of_join {set : InstructionSet} {p : Pass} {e : Entry} {en : Encoding}
    (ho : o.isFlexible = true) (h : f.settle site memory base z = .ok o)
    (hpad : o.isPadded e.mnemonic = false) (hj : set.join p e o = .ok en) :
    en.value = o.value ∧ 0 ≤ o.value ∧ o.value < byteRange (en.length - 1) := by
  obtain ⟨h0, hlt⟩ := InstructionSet.lt_byteRange_of_join (hasRoom_of_isFlexible ho h) hj
  obtain ⟨row, -, rfl⟩ := (InstructionSet.join_of_not_padded hpad).1 hj
  exact ⟨rfl, h0, hlt⟩

/-- An operand with a forced width, or of a form that makes no use of its room, stays what it
is. -/
theorem settle_of_not_isFlexible (ho : o.isFlexible = false)
    (h : f.settle site memory base z = .ok o) :
    ∃ forward, f.settle site memory' base z = .ok { o with forward } := by
  have hw (hf : f = .plain ∨ f = .indexedX ∨ f = .indexedY) : o.width ≠ none :=
    width_of_not_isFlexible ho (isBare_of_settle hf h)
  cases f with
  | plain | indexedX =>
    replace hw := hw (by simp)
    obtain ⟨a, ha, rfl⟩ := map_eq_ok.1 h
    obtain ⟨wide, hwide, ha'⟩ := ofSized_of_ofSized memory' ha
    obtain rfl := hwide hw
    exact ⟨site.isForward memory', map_eq_ok.2 ⟨_, ha', rfl⟩⟩
  | indexedY =>
    replace hw := hw (by simp)
    obtain ⟨a, ha, h⟩ := bind_eq_ok.1 h
    obtain ⟨m, hm, rfl⟩ := map_eq_ok.1 h
    obtain ⟨wide, hwide, ha'⟩ := ofSized_of_ofSized memory' ha
    obtain rfl := hwide hw
    exact ⟨site.isForward memory', bind_eq_ok.2 ⟨_, ha', map_eq_ok.2 ⟨m, hm, rfl⟩⟩⟩
  | onStack =>
    obtain ⟨a, ha, h⟩ := bind_eq_ok.1 h
    obtain ⟨m, hm, rfl⟩ := map_eq_ok.1 h
    obtain ⟨wide, -, ha'⟩ := ofSized_of_ofSized memory' ha
    exact ⟨site.isForward memory', bind_eq_ok.2 ⟨_, ha', map_eq_ok.2 ⟨m, hm, rfl⟩⟩⟩
  | _ => exact ⟨o.forward, h⟩

theorem lt_value_of_not_isSlack (ho : o.isFlexible = true) (hforward : o.forward = true)
    (hs : o.isSlack = false) : (if o.mode.isIndexedY then 0xFF else 0xFFFF) < o.value := by
  simpa [isSlack, ho, hforward] using hs

theorem isPadded_of_not_isSlack {m : Mnemonic} (hs : o.isSlack = false) : o.isPadded m = false := by
  refine Bool.eq_false_iff.2 fun hp ↦ ?_
  obtain ⟨-, hforward, hw, hm, hle⟩ := InstructionSet.isPadded_eq_true.1 hp
  have hlt := lt_value_of_not_isSlack (isFlexible_eq_true.2 ⟨hw, by rw [hm]; rfl⟩) hforward hs
  rw [hm] at hlt
  exact Int.not_lt.2 hle hlt

/-- An operand that needs its room gets it over any memory. -/
theorem settle_of_not_isSlack (h : f.settle site memory base z = .ok o)
    (ho : o.isFlexible = true) (hforward : o.forward = true) (hs : o.isSlack = false) :
    f.settle site memory' base z = .ok { o with forward := site.isForward memory' } := by
  have hlt := lt_value_of_not_isSlack ho hforward hs
  have hF : site.isForward memory = true := by rw [← forward_of_isFlexible ho h, hforward]
  obtain ⟨hz, ⟨hf, hm⟩ | ⟨rfl, hm⟩⟩ := form_of_isFlexible ho h
  · rw [hz] at h ⊢
    obtain ⟨hv, heq⟩ := (settle_direct_none hf).1 h
    rw [Mode.isIndexedY_of_isDirect hm, if_neg Bool.false_ne_true] at hlt
    have hl : Width.ofAddress o.value = .long := if_pos hlt
    rw [hl, ite_self] at heq
    refine (settle_direct_none hf).2 ⟨hv, ?_⟩
    rw [hl, ite_self, heq]
  · rw [hz] at h ⊢
    obtain ⟨hv, heq⟩ := settle_indexedY_none h
    rw [if_pos hm] at hlt
    rw [if_pos (.inr hlt)] at heq
    rw [settle_indexedY_of_holds hv, if_pos (.inr hlt), heq]

/-- Over another memory a pass makes the same instruction of an operand, if it gave it no room that
it would not give it now. -/
theorem exists_settle_join (h : f.settle site memory base z = .ok o)
    (hslack : o.isSlack = true → site.isForward memory' = true)
    (hlate : o.isFlexible = true → site.isForward memory' = true → site.isForward memory = true) :
    ∃ o', f.settle site memory' base z = .ok o' ∧
      ∀ (set : InstructionSet) (p : Pass) (e : Entry), set.join p e o' = set.join p e o := by
  cases ho : o.isFlexible with
  | false =>
    obtain ⟨forward, h'⟩ : ∃ forward, f.settle site memory' base z = .ok { o with forward } :=
      settle_of_not_isFlexible ho h
    refine ⟨_, h', fun set p e ↦ join_with_forward ?_⟩
    rw [isPadded_of_not_isFlexible ho]
    exact isPadded_of_not_isFlexible ho
  | true =>
    by_cases hF : site.isForward memory' = site.isForward memory
    · exact ⟨o, (settle_congr hF).trans h, fun _ _ _ ↦ rfl⟩
    · have hfalse : site.isForward memory' = false :=
        Bool.eq_false_iff.2 fun ht ↦ hF (by rw [ht, hlate ho ht])
      have hforward : o.forward = true := by
        rw [forward_of_isFlexible ho h]
        rw [hfalse] at hF
        exact (Bool.eq_false_or_eq_true _).resolve_right (Ne.symm hF)
      have hs : o.isSlack = false := Bool.eq_false_iff.2 fun ht ↦ by
        rw [hslack ht] at hfalse
        cases hfalse
      refine ⟨_, settle_of_not_isSlack h ho hforward hs, fun set p e ↦ join_with_forward ?_⟩
      rw [isPadded_of_not_isSlack hs]
      exact InstructionSet.isPadded_of_forward hfalse

theorem length_join_of_rung {e : Entry} {en : Encoding} {w : Width}
    (hf : f = .plain ∨ f = .indexedX) (hw : w ≠ .long) (hwidth : o.width = none)
    (hm : o.mode = f.rung w) (hpad : o.isPadded e.mnemonic = false)
    (hj : InstructionSet.standard.join .final e o = .ok en) : en.length ≤ 3 := by
  obtain ⟨⟨opcode, mode⟩, hc, rfl⟩ := (InstructionSet.join_of_not_padded hpad).1 hj
  rw [hwidth]
  change InstructionSet.lengthIn none mode ≤ 3
  rw [lengthIn_none]
  rw [hm] at hc
  rcases InstructionSet.select?_eq_some.1 (InstructionSet.choose_final_eq_ok.1 hc) with
    ⟨-, rfl⟩ | ⟨hnone, hwider, hsome⟩
  · rcases hf with rfl | rfl <;> cases w <;> first | decide | exact absurd rfl hw
  · rcases hf with rfl | rfl
    · cases w with
      | byte =>
        cases hwider
        decide
      | word =>
        cases hwider
        rw [InstructionSet.opcode?_long_eq_none hnone] at hsome
        cases hsome
      | long => exact absurd rfl hw
    · cases w <;> cases hwider

theorem length_join_of_directY {e : Entry} {en : Encoding} (hwidth : o.width = none)
    (hm : o.mode = .directY) (hj : InstructionSet.standard.join .final e o = .ok en) :
    en.length = 2 := by
  have hpad : o.isPadded e.mnemonic = false := isPadded_of_isIndexedY (by rw [hm]; rfl)
  have hl := length_join_of_wider?_none hpad hwidth (by rw [hm]; rfl) hj
  rwa [hm] at hl

theorem length_join_of_forward {set : InstructionSet} {p : Pass} {e : Entry} {en : Encoding}
    (ho : o.isFlexible = true) (h : f.settle site memory base z = .ok o)
    (hforward : o.forward = true) (hj : set.join p e o = .ok en) :
    en.length = if o.mode.isIndexedY then 3 else 4 := by
  have hwide (v : Int) : isWide site memory v :=
    .inl ((forward_of_isFlexible ho h).symm.trans hforward)
  obtain ⟨hwidth, -⟩ := isFlexible_eq_true.1 ho
  obtain ⟨hz, ⟨hf, hm⟩ | ⟨rfl, hm⟩⟩ := form_of_isFlexible ho h
  · rw [hz] at h
    have heq := ((settle_direct_none hf).1 h).2
    rw [if_pos (hwide _)] at heq
    have hmode : o.mode = f.rung .long := by rw [heq]
    rw [Mode.isIndexedY_of_isDirect hm, if_neg Bool.false_ne_true]
    cases hpad : o.isPadded e.mnemonic with
    | true =>
      obtain ⟨row, -, rfl⟩ := (InstructionSet.join_of_padded hpad).1 hj
      rfl
    | false =>
      have hl := length_join_of_wider?_none hpad hwidth (by rw [hmode]; exact wider?_rung_long) hj
      rw [hl, hmode]
      exact length_rung_long
  · rw [hz] at h
    have heq := (settle_indexedY_none h).2
    rw [if_pos (.inl (hwide _))] at heq
    have hmode : o.mode = .absoluteY := by rw [heq]
    have hl := length_join_of_wider?_none (isPadded_of_isIndexedY hm) hwidth
      (by rw [hmode]; rfl) hj
    rw [if_pos hm, hl, hmode]
    rfl

theorem length_lt_of_isSlack {o' : Operand} {e : Entry} {en en' : Encoding}
    (hp : site.pass = .final) (h : f.settle site memory base z = .ok o) (hs : o.isSlack = true)
    (hF : site.isForward memory' = false) (h' : f.settle site memory' base z = .ok o')
    (hj : InstructionSet.standard.join .final e o = .ok en)
    (hj' : InstructionSet.standard.join .final e o' = .ok en') : en'.length < en.length := by
  have hnarrow (v : Int) : ¬isWide site memory' v := by
    rw [isWide_final hp, hF]
    exact Bool.false_ne_true
  obtain ⟨ho, hforward, hle⟩ := isSlack_eq_true.1 hs
  rw [length_join_of_forward ho h hforward hj]
  obtain ⟨hz, ⟨hf, hm⟩ | ⟨rfl, hm⟩⟩ := form_of_isFlexible ho h
  · rw [hz] at h'
    have heq := ((settle_direct_none hf).1 h').2
    rw [if_neg (hnarrow _)] at heq
    rw [Mode.isIndexedY_of_isDirect hm, if_neg Bool.false_ne_true] at hle ⊢
    have hl : Width.ofAddress o.value ≠ .long := by
      unfold Width.ofAddress
      rw [if_neg (Int.not_lt.2 hle)]
      split <;> decide
    have hpad : o'.isPadded e.mnemonic = false :=
      InstructionSet.isPadded_of_forward (by rw [heq]; exact hF)
    exact Nat.lt_succ_of_le
      (length_join_of_rung hf hl (by rw [heq]) (by rw [heq]) hpad hj')
  · rw [hz] at h'
    have heq := (settle_indexedY_none h').2
    rw [if_pos hm] at hle ⊢
    rw [if_neg (not_or.2 ⟨hnarrow _, Int.not_lt.2 hle⟩)] at heq
    rw [length_join_of_directY (by rw [heq]) (by rw [heq]) hj']
    decide

end

end Asm65816.Operand
