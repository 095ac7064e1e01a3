import Asm65816.Proofs.Assembly.Forward

namespace Asm65816

open Operand

namespace Operand

variable {site site' : Site} {memory memory' : UInt32 → UInt8} {base : Mode} {z z' : Sized}
variable {o o' : Operand} {f : Form} {set : InstructionSet} {e : Entry} {en en' : Encoding}
variable {v v' : Int}

theorem isPadded_of_not_isBare {m : Mnemonic} (h : o.mode.isBare = false) :
    o.isPadded m = false := by
  refine InstructionSet.isPadded_of_mode fun hl ↦ ?_
  rw [hl] at h
  cases h

theorem length_passes_of_fixed {m : Mode} (hf : f.fixed? base = some m)
    (hz : z.width = z'.width) (ho : f.settle site memory base z = .ok o)
    (ho' : f.settle site' memory' base z' = .ok o') (hj : set.join .first e o = .ok en)
    (hj' : set.join .final e o' = .ok en') : en.length = en'.length := by
  obtain ⟨hm, hw⟩ := mode_of_settle_fixed hf ho
  obtain ⟨hm', hw'⟩ := mode_of_settle_fixed hf ho'
  refine InstructionSet.length_join_passes (hm.trans hm'.symm) ?_
    (isPadded_of_not_isBare (isBare_of_fixed? hf ho))
    (isPadded_of_not_isBare (isBare_of_fixed? hf ho')) hj hj'
  intro _
  rw [hw, hw', hz]

/-- Going through memory takes a byte more for a word than for a byte, but then no instruction can
do both. -/
theorem length_passes_of_nearFar {near far : Mode} (hf : f.nearFar? = some (near, far))
    (hz : z.width = z'.width) (hv : z.value = z'.value ∨ z.value = 0)
    (ho : f.settle site memory base z = .ok o) (ho' : f.settle site' memory' base z' = .ok o')
    (hj : InstructionSet.standard.join .first e o = .ok en)
    (hj' : InstructionSet.standard.join .final e o' = .ok en') : en.length = en'.length := by
  obtain ⟨hm, hw⟩ := mode_of_settle_nearFar hf ho
  obtain ⟨hm', hw'⟩ := mode_of_settle_nearFar hf ho'
  have hpad := isPadded_of_not_isBare (m := e.mnemonic) (isBare_of_nearFar? hf ho)
  have hpad' := isPadded_of_not_isBare (m := e.mnemonic) (isBare_of_nearFar? hf ho')
  have hwidth : o.width = o'.width := by rw [hw, hw', hz]
  by_cases hs : o.mode = o'.mode
  · exact InstructionSet.length_join_passes hs (fun _ ↦ hwidth) hpad hpad' hj hj'
  · have hsmall : ¬0xFF < z.value := by
      intro hlt
      obtain heq : z.value = z'.value := hv.resolve_right (by omega)
      rw [hm, hm', heq] at hs
      exact hs rfl
    have hlarge : 0xFF < z'.value := by
      refine Decidable.not_not.1 fun hle ↦ hs ?_
      rw [hm, hm', if_neg hsmall, if_neg hle]
    rw [if_neg hsmall] at hm
    rw [if_pos hlarge] at hm'
    obtain ⟨hwider, hlast, hd, ha⟩ := Form.wider?_of_nearFar? hf
    obtain ⟨⟨opcode, mode⟩, hc', rfl⟩ := (InstructionSet.join_of_not_padded hpad').1 hj'
    rw [hm'] at hc'
    obtain rfl : mode = far := InstructionSet.choose_mode hlast hc'
    have hfar : InstructionSet.standard.opcode? e.mnemonic mode = some opcode := by
      rcases InstructionSet.select?_eq_some.1 (InstructionSet.choose_final_eq_ok.1 hc') with
        ⟨h, -⟩ | ⟨-, -, h⟩
      · exact h
      · exact h
    have hnear : InstructionSet.standard.opcode? e.mnemonic near = none := by
      rcases InstructionSet.opcode?_near_or_far hwider hd ha e.mnemonic with h | h
      · exact h
      · rw [hfar] at h
        cases h
    have hc : InstructionSet.standard.choose .first e near = .ok (opcode, mode) :=
      InstructionSet.choose_first_of_final (InstructionSet.choose_final_eq_ok.2
        (InstructionSet.select?_eq_some.2 (.inr ⟨hnear, hwider, hfar⟩)))
    obtain ⟨row, hr, rfl⟩ := (InstructionSet.join_of_not_padded hpad).1 hj
    rw [hm, hc] at hr
    cases hr
    rw [hwidth]

theorem length_join_of_wider?_none {p : Pass} (ho : o.isPadded e.mnemonic = false)
    (hw : o.width = none) (hm : o.mode.wider? = none) (hj : set.join p e o = .ok en) :
    en.length = o.mode.length := by
  obtain ⟨⟨opcode, mode⟩, hc, rfl⟩ := (InstructionSet.join_of_not_padded ho).1 hj
  obtain rfl : mode = o.mode := InstructionSet.choose_mode hm hc
  rw [hw]
  exact lengthIn_none o.mode

/-- A zero takes up four bytes on the first pass, and on the final pass what stands for it is given
the same room. -/
theorem length_passes_of_direct (hf : f = .plain ∨ f = .indexedX) (hz : z.width = z'.width)
    (hv : z.value = z'.value ∨ z.value = 0) (hp : site.pass = .first) (hp' : site'.pass = .final)
    (ho : f.settle site memory base z = .ok o) (ho' : f.settle site' memory' base z' = .ok o')
    (hforward : o.width = none → (site'.isForward memory' = true ↔ o.value = 0))
    (hj : set.join .first e o = .ok en) (hj' : set.join .final e o' = .ok en') :
    en.length = en'.length := by
  obtain ⟨v, width⟩ := z
  obtain ⟨v', _⟩ := z'
  cases hz
  cases width with
  | some w =>
    obtain ⟨hm, hw, -⟩ := mode_of_settle_direct hf ho
    obtain ⟨hm', hw', -⟩ := mode_of_settle_direct hf ho'
    exact InstructionSet.length_join_passes (hm.trans hm'.symm) (fun _ ↦ hw.trans hw'.symm)
      (InstructionSet.isPadded_of_width (by simp [hw]))
      (InstructionSet.isPadded_of_width (by simp [hw'])) hj hj'
  | none =>
    have heq := ((settle_direct_none hf).1 ho).2
    have heq' := ((settle_direct_none hf).1 ho').2
    have hiff : site'.isForward memory' = true ↔ v = 0 := by
      rw [hforward (by rw [heq]), heq]
    have hpad : o.isPadded e.mnemonic = false :=
      InstructionSet.isPadded_of_forward (by rw [heq]; exact isForward_first hp)
    by_cases h0 : v = 0
    · rw [if_pos ((isWide_first hp).2 h0)] at heq
      rw [if_pos ((isWide_final hp').2 (hiff.2 h0))] at heq'
      have hl : en.length = 4 := by
        rw [length_join_of_wider?_none hpad (by rw [heq]) (by rw [heq]; exact wider?_rung_long) hj,
          heq]
        exact length_rung_long
      rw [hl]
      cases hpad' : o'.isPadded e.mnemonic with
      | true =>
        obtain ⟨row, -, rfl⟩ := (InstructionSet.join_of_padded hpad').1 hj'
        rfl
      | false =>
        rw [length_join_of_wider?_none hpad' (by rw [heq']) (by rw [heq']; exact wider?_rung_long)
          hj', heq']
        exact length_rung_long.symm
    · obtain rfl : v = v' := hv.resolve_right h0
      have hfalse : site'.isForward memory' = false :=
        Bool.eq_false_iff.2 fun ht ↦ h0 (hiff.1 ht)
      obtain rfl := settle_direct_passes hf hp hp' h0 hfalse ho ho'
      exact InstructionSet.length_join_passes rfl (fun _ ↦ rfl) hpad hpad hj hj'

theorem holds_of_indexedY_first (hp : site.pass = .first)
    (ho : Form.indexedY.settle site memory base ⟨v, none⟩ = .ok o)
    (hj : set.join .first e o = .ok en) : en.Holds v 2 := by
  have hroom :=
    InstructionSet.lt_byteRange_of_join (hasRoom_of_fits (fits_of_settle_indexedY ho)) hj
  obtain ⟨hv, rfl⟩ := settle_indexedY_none ho
  obtain ⟨⟨opcode, mode⟩, hc, rfl⟩ := (InstructionSet.join_of_not_padded
    (InstructionSet.isPadded_of_forward (isForward_first hp))).1 hj
  refine ⟨rfl, hv.1, hroom.2, fun h0 ↦ ?_⟩
  simp only [isWide_first hp] at hc
  rw [if_pos (.inl h0)] at hc
  obtain rfl : mode = .absoluteY := InstructionSet.choose_mode rfl hc
  rfl

theorem isPadded_of_isIndexedY {m : Mnemonic} (h : o.mode.isIndexedY = true) :
    o.isPadded m = false := by
  apply InstructionSet.isPadded_of_mode
  intro hl
  rw [hl] at h
  cases h

theorem mnemonic_of_join_directY (hm : o.mode = .directY)
    (hj : InstructionSet.standard.join .final e o = .ok en) :
    e.mnemonic = .ldx ∨ e.mnemonic = .stx := by
  have hpad : o.isPadded e.mnemonic = false := isPadded_of_isIndexedY (by rw [hm]; rfl)
  obtain ⟨row, hc, -⟩ := (InstructionSet.join_of_not_padded hpad).1 hj
  rw [hm] at hc
  have hrow : InstructionSet.standard.opcode? e.mnemonic .directY = some row.1 := by
    rcases InstructionSet.select?_eq_some.1 (InstructionSet.choose_final_eq_ok.1 hc) with
      ⟨h, -⟩ | ⟨-, h, -⟩
    · exact h
    · cases h
  exact InstructionSet.mnemonic_of_directY (by rw [hrow]; simp)

/-- The mode that the first pass gives a value in front of the index Y stays, but for a zero that
turns out to fit a byte. -/
theorem mode_passes_of_indexedY (hv : v = v' ∨ v = 0) (hp : site.pass = .first)
    (hp' : site'.pass = .final) (ho : Form.indexedY.settle site memory base ⟨v, none⟩ = .ok o)
    (ho' : Form.indexedY.settle site' memory' base ⟨v', none⟩ = .ok o')
    (hforward : v ≠ 0 → site'.isForward memory' = false) :
    o.mode = o'.mode ∨
      v = 0 ∧ v' ≤ 0xFF ∧ site'.isForward memory' = false ∧ o'.mode = .directY := by
  obtain ⟨-, rfl⟩ := settle_indexedY_none ho
  obtain ⟨-, rfl⟩ := settle_indexedY_none ho'
  simp only [isWide_first hp, isWide_final hp']
  by_cases h0 : v = 0
  · rw [if_pos (.inl h0)]
    by_cases hw : site'.isForward memory' = true ∨ 0xFF < v'
    · rw [if_pos hw]
      exact .inl rfl
    · rw [if_neg hw]
      rw [not_or, Bool.not_eq_true, Int.not_lt] at hw
      exact .inr ⟨h0, hw.2, hw.1, rfl⟩
  · obtain rfl : v = v' := hv.resolve_right h0
    left
    simp only [h0, hforward h0, Bool.false_eq_true]

/-- With the index Y, room is made for a word only, and nothing but that room tells the final pass
to keep it. -/
theorem length_passes_of_indexedY (hz : z.width = z'.width)
    (hv : z.value = z'.value ∨ z.value = 0) (hp : site.pass = .first) (hp' : site'.pass = .final)
    (ho : Form.indexedY.settle site memory base z = .ok o)
    (ho' : Form.indexedY.settle site' memory' base z' = .ok o')
    (hforward : o.width = none → o.value ≠ 0 → site'.isForward memory' = false)
    (hj : InstructionSet.standard.join .first e o = .ok en)
    (hj' : InstructionSet.standard.join .final e o' = .ok en') :
    en.length = en'.length ∨
      o.width = none ∧ o.value = 0 ∧ 0 ≤ o'.value ∧ o'.value ≤ 0xFF ∧
        site'.isForward memory' = false ∧ (e.mnemonic = .ldx ∨ e.mnemonic = .stx) := by
  have hy := isIndexedY_of_settle ho
  have hlength (hm : o.mode = o'.mode) : en.length = en'.length := by
    refine InstructionSet.length_join_passes hm (fun hi ↦ ?_) (isPadded_of_isIndexedY hy)
      (isPadded_of_isIndexedY (isIndexedY_of_settle ho')) hj hj'
    rw [hi] at hy
    cases hy
  obtain ⟨v, width⟩ := z
  obtain ⟨v', _⟩ := z'
  cases hz
  cases width with
  | some w =>
    obtain ⟨hm, -⟩ := mode_of_settle_indexedY ho
    obtain ⟨hm', -⟩ := mode_of_settle_indexedY ho'
    exact .inl (hlength (hm.trans hm'.symm))
  | none =>
    obtain ⟨-, heq⟩ := settle_indexedY_none ho
    obtain ⟨hv', heq'⟩ := settle_indexedY_none ho'
    have hwidth : o.width = none := by rw [heq]
    have hval : o.value = v := by rw [heq]
    have hval' : o'.value = v' := by rw [heq']
    rw [hval] at hforward
    rcases mode_passes_of_indexedY hv hp hp' ho ho' (hforward hwidth) with hm | ⟨h0, hle, hf, hm⟩
    · exact .inl (hlength hm)
    · rw [hval, hval']
      exact .inr ⟨hwidth, h0, hv'.1, hle, hf, mnemonic_of_join_directY hm hj'⟩

/-- An instruction is as long on the first pass as on the final one where the final pass recognises
the operands that were given room, but for a load or store of X, indexed by Y. -/
theorem length_passes_of_parse {labels labels' : String → Option Int} {name : String}
    {line r r' : Line} (hl : InstructionSet.standard.lookup? name = some e)
    (hle : ∀ l w, labels l = some w → labels' l = some w)
    (hp : site.pass = .first) (hp' : site'.pass = .final)
    (hr : (Grammar.parse site (Expr.sum labels) memory e.base e.width).run line = .ok o r)
    (hr' : (Grammar.parse site' (Expr.sum labels') memory' e.base e.width).run line = .ok o' r')
    (hdirect : o.mode.isDirect = true → o.width = none →
      (site'.isForward memory' = true ↔ o.value = 0))
    (hindexed : o.mode.isIndexedY = true → o.width = none → o.value ≠ 0 →
      site'.isForward memory' = false)
    (hj : InstructionSet.standard.join .first e o = .ok en)
    (hj' : InstructionSet.standard.join .final e o' = .ok en') :
    en.length = en'.length ∨
      o.mode.isIndexedY = true ∧ o.width = none ∧ o.value = 0 ∧ 0 ≤ o'.value ∧ o'.value ≤ 0xFF ∧
        site'.isForward memory' = false ∧ (e.mnemonic = .ldx ∨ e.mnemonic = .stx) := by
  rcases Grammar.run_parse_passes hle hp hp' hr hr' with
    ⟨u, rfl, rfl⟩ | ⟨hb, hb'⟩ | ⟨f, z, z', hs, hs', hzw, hzz⟩
  · have hpad := isPadded_of_not_isBare (m := e.mnemonic) (o := ⟨e.base, 0, u, false⟩)
      (InstructionSet.isBare_base hl)
    exact .inl (InstructionSet.length_join_passes rfl (fun _ ↦ rfl) hpad hpad hj hj')
  · have hpad : o.isPadded e.mnemonic = false := isPadded_of_not_isBare (by rw [hb]; rfl)
    have hpad' : o'.isPadded e.mnemonic = false := isPadded_of_not_isBare (by rw [hb']; rfl)
    refine .inl (InstructionSet.length_join_passes (hb.trans hb'.symm) (fun hi ↦ ?_) hpad hpad' hj
      hj')
    rw [hb] at hi
    cases hi
  · have hforward (hf : f = .plain ∨ f = .indexedX) : en.length = en'.length :=
      length_passes_of_direct hf hzw hzz hp hp' hs hs' (hdirect (isDirect_of_settle hf hs)) hj hj'
    rcases f.cases e.base with ⟨m, hf⟩ | ⟨near, far, hf⟩ | hf | hf | rfl
    · exact .inl (length_passes_of_fixed hf hzw hs hs' hj hj')
    · exact .inl (length_passes_of_nearFar hf hzw hzz hs hs' hj hj')
    · exact .inl (hforward (.inl hf))
    · exact .inl (hforward (.inr hf))
    · have hm := isIndexedY_of_settle hs
      exact (length_passes_of_indexedY hzw hzz hp hp' hs hs' (hindexed hm) hj hj').imp_right
        fun h ↦ ⟨hm, h⟩

end Operand

namespace Assembly

/-- The kind of line that is shorter on the final pass: a load or store of X, indexed by Y, whose
address had no value other than zero on the first pass and turns out to fit a byte, with something
other than zero behind it. -/
def Shrinks (a : Assembly) (v w : Visit) : Prop :=
  ∃ name line e o o', v.instruction? = some (name, line) ∧
    (Text.fold name = "ldx" ∨ Text.fold name = "stx") ∧
    v.operand? .standard = some (e, o) ∧ w.operand? .standard = some (e, o') ∧
    o.mode.isIndexedY = true ∧ o.width = none ∧ o.value = 0 ∧
    0 ≤ o'.value ∧ o'.value ≤ 0xFF ∧ a.image.read (w.address + 3) ≠ 0

variable {source : String} {origin : UInt32} {a : Assembly} {k : Nat} {v w : Visit}
variable {e : Entry} {o o' : Operand} {en en' : Encoding}

section

variable (h : (pass .standard .first source).run (start origin) = .ok () a)
variable (hroom : origin.toNat + 4 * (Source.lines source).length + 4 < UInt32.size)
variable (hv : (firstVisits .standard source origin)[k]? = some v)
variable (hw : (finalVisits .standard source a)[k]? = some w)
variable (ho : v.operand? .standard = some (e, o)) (ho' : w.operand? .standard = some (e, o'))

include h hv hw ho ho'

theorem settle_passes (hm : o.mode.isBare = true) :
    ∃ (f : Form) (z z' : Sized),
      f.settle v.site v.workspace.image.read e.base z = .ok o ∧
      f.settle w.site w.workspace.image.read e.base z' = .ok o' ∧
      z.width = z'.width ∧ (z.value = z'.value ∨ z.value = 0) := by
  obtain ⟨-, name, line, r, r', -, hl, hr, hr'⟩ := parse_passes hv hw ho ho'
  rcases Grammar.run_parse_passes (fun _ _ hl ↦ label?_passes h hv hw hl)
    (pass_of_firstVisit hv) (pass_of_finalVisit hw) hr hr' with ⟨u, rfl, -⟩ | ⟨hb, -⟩ | hs
  · rw [InstructionSet.isBare_base hl] at hm
    cases hm
  · rw [hb] at hm
    cases hm
  · exact hs

theorem settle_passes_of_indexedY (hm : o.mode.isIndexedY = true) (hwidth : o.width = none) :
    ∃ z z', Form.indexedY.settle v.site v.workspace.image.read e.base ⟨z, none⟩ = .ok o ∧
      Form.indexedY.settle w.site w.workspace.image.read e.base ⟨z', none⟩ = .ok o' ∧
      (z = z' ∨ z = 0) := by
  have hb : o.mode.isBare = true := Mode.isBare_of_isIndexedY hm
  obtain ⟨f, ⟨z, width⟩, ⟨z', _⟩, hs, hs', hww, hzz⟩ := settle_passes h hv hw ho ho' hb
  cases hww
  obtain rfl := form_of_isIndexedY hm hs
  cases width with
  | some u =>
    rw [(mode_of_settle_indexedY hs).2] at hwidth
    cases hwidth
  | none => exact ⟨z, z', hs, hs', hzz⟩

include hroom

theorem isForward_of_indexedY (hm : o.mode.isIndexedY = true) (hwidth : o.width = none) :
    w.site.isForward w.workspace.image.read = true ↔
      o.value = 0 ∧ a.image.read (w.address + 3) = 0 := by
  obtain ⟨z, _, hs, -, -⟩ := settle_passes_of_indexedY h hv hw ho ho' hm hwidth
  obtain ⟨en, hen, hj⟩ := encoding?_of_operand? h hv ho
  have hholds := holds_of_indexedY_first (pass_of_firstVisit hv) hs hj
  have hz : o.value = z := by rw [(settle_indexedY_none hs).2]
  rw [isForward_of_holds h hv hw hroom hen hholds, hz]
  apply and_congr_right
  intro h0
  constructor
  · intro hr
    exact hr 3 (by decide) (by decide)
  · intro hr i hi hi'
    obtain rfl : i = 3 := by omega
    exact hr

theorem length_passes (hj : InstructionSet.standard.join .first e o = .ok en)
    (hj' : InstructionSet.standard.join .final e o' = .ok en') :
    en.length = en'.length ∨ Shrinks a v w := by
  have hp := pass_of_firstVisit hv
  have hp' := pass_of_finalVisit hw
  obtain ⟨-, name, line, r, r', hi, hl, hr, hr'⟩ := parse_passes hv hw ho ho'
  have hdirect (hm : o.mode.isDirect = true) (hwidth : o.width = none) :
      w.site.isForward w.workspace.image.read = true ↔ o.value = 0 :=
    isForward_of_direct h hv hw ho hm hwidth hroom
  have hindexed (hm : o.mode.isIndexedY = true) (hwidth : o.width = none) :
      w.site.isForward w.workspace.image.read = true ↔
        o.value = 0 ∧ a.image.read (w.address + 3) = 0 :=
    isForward_of_indexedY h hroom hv hw ho ho' hm hwidth
  have hresolved (hm : o.mode.isIndexedY = true) (hwidth : o.width = none) (hne : o.value ≠ 0) :
      w.site.isForward w.workspace.image.read = false :=
    Bool.eq_false_iff.2 fun ht ↦ hne ((hindexed hm hwidth).1 ht).1
  rcases length_passes_of_parse hl (fun _ _ hl ↦ label?_passes h hv hw hl) hp hp' hr hr' hdirect
    hresolved hj hj' with hlength | ⟨hm, hwidth, h0, hle, hle', hfalse, hmn⟩
  · exact .inl hlength
  · have hread : a.image.read (w.address + 3) ≠ 0 := by
      intro hz
      rw [(hindexed hm hwidth).2 ⟨h0, hz⟩] at hfalse
      cases hfalse
    obtain ⟨hldx, hstx⟩ := InstructionSet.mnemonic_of_lookup? hl
    exact .inr ⟨name, line, e, o, o', hi, hmn.imp hldx.1 hstx.1, ho, ho', hm, hwidth, h0, hle,
      hle', hread⟩

theorem length_of_shrinks (hs : Shrinks a v w)
    (hj : InstructionSet.standard.join .first e o = .ok en)
    (hj' : InstructionSet.standard.join .final e o' = .ok en') :
    en.length = 3 ∧ en'.length = 2 := by
  obtain ⟨_, _, _, _, _, _, _, hov, how, hm, hwidth, h0, hle, hle', hread⟩ := hs
  rw [ho] at hov
  rw [ho'] at how
  cases hov
  cases how
  obtain ⟨z, z', hs, hs', -⟩ := settle_passes_of_indexedY h hv hw ho ho' hm hwidth
  have heq := (settle_indexedY_none hs).2
  have heq' := (settle_indexedY_none hs').2
  have hmode : o.mode = .absoluteY := by
    rw [heq] at h0
    rw [heq, if_pos (.inl ((isWide_first (pass_of_firstVisit hv)).2 h0))]
  have hmode' : o'.mode = .directY := by
    have hnot : ¬w.site.isForward w.workspace.image.read = true := fun ht ↦
      hread ((isForward_of_indexedY h hroom hv hw ho ho' hm hwidth).1 ht).2
    have hsmall : ¬0xFF < z' := by
      rw [heq'] at hle'
      exact Int.not_lt.2 hle'
    rw [heq', if_neg]
    rw [isWide_final (pass_of_finalVisit hw)]
    exact not_or.2 ⟨hnot, hsmall⟩
  constructor
  · rw [length_join_of_wider?_none (isPadded_of_isIndexedY hm) hwidth (by rw [hmode]; rfl) hj,
      hmode]
    rfl
  · have hm' : o'.mode.isIndexedY = true := by rw [hmode']; rfl
    rw [length_join_of_wider?_none (isPadded_of_isIndexedY hm') (by rw [heq'])
      (by rw [hmode']; rfl) hj', hmode']
    rfl

end

/-- The length of an instruction that the final pass encodes is the one that the first pass has
noted, but for one kind of line, which the final pass does not let through. -/
theorem sizes_of_finalVisit (h : (pass .standard .first source).run (start origin) = .ok () a)
    (hroom : origin.toNat + 4 * (Source.lines source).length + 4 < UInt32.size)
    (hw : (finalVisits .standard source a)[k]? = some w) (hen : w.encoding? .standard = some en) :
    ∃ v, (firstVisits .standard source origin)[k]? = some v ∧
      (¬Shrinks a v w → a.sizes[k]? = some en.length ∧
        w.line .standard = .ok () (w.next .standard)) ∧
      (Shrinks a v w → a.sizes[k]? = some 3 ∧ en.length = 2 ∧
        w.line .standard = .error (.resized w.text (some 3) 2) (w.next .standard)) := by
  obtain ⟨v, hv⟩ := exists_firstVisit h hw
  obtain ⟨e, o', ho', hj'⟩ := Visit.encoding?_eq_some.1 hen
  obtain ⟨o, ho⟩ := operand?_of_finalVisit h hv hw ho'
  obtain ⟨en₁, hen₁, hj⟩ := encoding?_of_operand? h hv ho
  have hp : w.pass = .final := pass_of_finalVisit hw
  rw [hp] at hj'
  have hsize : a.sizes[k]? = some en₁.length := by
    rw [sizes_of_first h, hv, Option.bind_some, Visit.size?, hen₁]
    rfl
  have hsizes : w.assembly.sizes[w.number]? = a.sizes[k]? := by
    have hn : w.number = k := by
      rw [(sweep_take hw).2.2.2.2, Nat.zero_add]
    rw [hn, sizes_of_sweep_final (sweep_of_finalVisit hw).1]
    rfl
  have hline := Visit.line_of_encoding? hen
  rw [hsizes, hsize] at hline
  refine ⟨v, hv, fun hs ↦ ?_, fun hs ↦ ?_⟩
  · have hl := (length_passes h hroom hv hw ho ho' hj hj').resolve_right hs
    refine ⟨by rw [hsize, hl], ?_⟩
    rw [hline, if_neg]
    intro h'
    obtain ⟨-, hne⟩ := h'
    exact hne (congrArg some hl)
  · obtain ⟨hl, hl'⟩ := length_of_shrinks h hroom hv hw ho ho' hs hj hj'
    refine ⟨by rw [hsize, hl], hl', ?_⟩
    rw [hline, if_pos, hl, hl']
    refine ⟨hp, ?_⟩
    rw [hl, hl']
    decide

theorem resized_load_zero :
    ∃ a v w, (pass .standard .first "\tldx 0,y\n\tnop").run (start 0x8000) = .ok () a ∧
      (firstVisits .standard "\tldx 0,y\n\tnop" 0x8000)[0]? = some v ∧
      (finalVisits .standard "\tldx 0,y\n\tnop" a)[0]? = some w ∧ Shrinks a v w ∧
      w.line .standard = .error (.resized w.text (some 3) 2) (w.next .standard) := by
  have hrun : ((Visit.state? ((pass .standard .first "\tldx 0,y\n\tnop").run (start 0x8000))).bind
      fun a ↦ (finalVisits .standard "\tldx 0,y\n\tnop" a)[0]?.bind fun w ↦
        (w.encoding? .standard).map fun en ↦ (a.sizes[0]?, en.length)) = some (some 3, 2) := by
    decide +kernel
  obtain ⟨a, ha, hrun⟩ := Option.bind_eq_some_iff.1 hrun
  obtain ⟨w, hw, hrun⟩ := Option.bind_eq_some_iff.1 hrun
  obtain ⟨en, hen, hsizes⟩ := Option.map_eq_some_iff.1 hrun
  obtain ⟨h₃, h₂⟩ := Prod.mk.inj hsizes
  have ha := Visit.state?_eq_some_iff.1 ha
  obtain ⟨v, hv, hkept, hshrinks⟩ := sizes_of_finalVisit ha (by decide +kernel) hw hen
  by_cases hs : Shrinks a v w
  · exact ⟨a, v, w, ha, hv, hw, hs, (hshrinks hs).2.2⟩
  · have hl := (hkept hs).1
    rw [h₃, h₂] at hl
    cases hl

end Assembly

end Asm65816
