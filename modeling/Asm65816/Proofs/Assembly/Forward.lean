import Asm65816.Proofs.Assembly.Memory
import Asm65816.Proofs.InstructionSet
import Asm65816.Proofs.Operand.Capacity
import Asm65816.Proofs.Operand.Direct

namespace Asm65816

open Operand

theorem InstructionSet.isBare_base {e : Entry} {name : String}
    (h : standard.lookup? name = some e) : e.base.isBare = false := by
  have hall : ∀ m ∈ [Mode.implied, .immediate8, .relative, .relativeLong, .blockMove],
      m.isBare = false := by decide
  exact hall _ (base_of_lookup? h)

theorem InstructionSet.isDirect_base {e : Entry} {name : String}
    (h : standard.lookup? name = some e) : e.base.isDirect = false :=
  (Bool.or_eq_false_iff.1 (isBare_base h)).1

section

variable {site : Site} {memory : UInt32 → UInt8} {base : Mode} {v : Int} {o : Operand} {f : Form}

/-- On the first pass an expression without a forced width has room for its value, and a zero is
given the widest. -/
theorem holds_of_direct_first {set : InstructionSet} {e : Entry} {en : Encoding}
    (hf : f = .plain ∨ f = .indexedX) (hp : site.pass = .first)
    (ho : f.settle site memory base ⟨v, none⟩ = .ok o) (hj : set.join .first e o = .ok en) :
    en.Holds v 3 := by
  have hroom :=
    InstructionSet.lt_byteRange_of_join (hasRoom_of_fits (fits_of_settle_direct hf ho)) hj
  obtain ⟨hv, rfl⟩ := (settle_direct_none hf).1 ho
  obtain ⟨⟨opcode, mode⟩, hc, rfl⟩ := (InstructionSet.join_of_not_padded
    (InstructionSet.isPadded_of_forward (isForward_first hp))).1 hj
  refine ⟨rfl, hv.1, hroom.2, fun hz ↦ ?_⟩
  simp only [isWide_first hp] at hc
  rw [if_pos hz] at hc
  obtain rfl : mode = f.rung .long := InstructionSet.choose_mode wider?_rung_long hc
  change InstructionSet.lengthIn none (f.rung .long) = 4
  rw [lengthIn_none, length_rung_long]

end

theorem InstructionSet.join_first_of_final {set : InstructionSet} {e : Entry} {o : Operand}
    {en : Encoding} (ho : o.isPadded e.mnemonic = false) (h : set.join .final e o = .ok en) :
    set.join .first e o = .ok en := by
  obtain ⟨row, hr, hen⟩ := (join_of_not_padded ho).1 h
  exact (join_of_not_padded ho).2 ⟨row, choose_first_of_final hr, hen⟩

theorem settle_direct_passes {site site' : Site} {memory memory' : UInt32 → UInt8} {base : Mode}
    {v : Int} {o o' : Operand} {f : Form} (hf : f = .plain ∨ f = .indexedX)
    (hp : site.pass = .first) (hp' : site'.pass = .final) (hne : v ≠ 0)
    (hforward : site'.isForward memory' = false) (h : f.settle site memory base ⟨v, none⟩ = .ok o)
    (h' : f.settle site' memory' base ⟨v, none⟩ = .ok o') : o' = o := by
  obtain ⟨-, rfl⟩ := (settle_direct_none hf).1 h
  obtain ⟨-, rfl⟩ := (settle_direct_none hf).1 h'
  have hw : ¬isWide site memory v := fun hw ↦ hne ((isWide_first hp).1 hw)
  have hw' : ¬isWide site' memory' v := by
    rw [isWide_final hp', hforward]
    exact Bool.false_ne_true
  rw [if_neg hw, if_neg hw', isForward_first hp, hforward]

namespace Assembly

variable {source : String} {origin : UInt32} {a : Assembly} {k : Nat} {v w : Visit}
variable {name : String} {line : Line} {e e' : Entry} {o o' : Operand}

section

variable (h : (pass .standard .first source).run (start origin) = .ok () a)
variable (hv : (firstVisits .standard source origin)[k]? = some v)
variable (hw : (finalVisits .standard source a)[k]? = some w)
variable (ho : v.operand? .standard = some (e, o)) (hm : o.mode.isDirect = true)
variable (hwidth : o.width = none)

include h hv hw ho hm hwidth

theorem isForward_of_direct
    (hroom : origin.toNat + 4 * (Source.lines source).length + 4 < UInt32.size) :
    w.site.isForward w.workspace.image.read = true ↔ o.value = 0 := by
  obtain ⟨_, _, _, _, hl, hparse⟩ := Visit.operand?_eq_some.1 ho
  obtain ⟨f, z, _, hf, -, hs⟩ :=
    Grammar.run_parse_direct (InstructionSet.isDirect_base hl) hm hwidth hparse
  obtain ⟨en, hen, hj⟩ := encoding?_of_operand? h hv ho
  have hholds := holds_of_direct_first hf (pass_of_firstVisit hv) hs hj
  rw [isForward_of_holds h hv hw hroom hen hholds, value_of_settle_none hf hs]
  refine and_iff_left ?_
  intro i hi hi'
  omega

theorem operand?_of_direct (hi : v.instruction? = some (name, line))
    (ho' : w.operand? .standard = some (e', o')) :
    e' = e ∧ o'.forward = w.site.isForward w.workspace.image.read ∧
      (o.value ≠ 0 → w.site.isForward w.workspace.image.read = false → o' = o) ∧
      Foreseen v.workspace.label? line o.value o'.value := by
  have hp := pass_of_firstVisit hv
  have hp' := pass_of_finalVisit hw
  obtain ⟨he, _, _, r, r', hi', hl, hr, hr'⟩ := parse_passes hv hw ho ho'
  rw [hi] at hi'
  cases hi'
  obtain ⟨f, z, z', p, hf, -, -, hs, hs', hzz⟩ := Grammar.run_parse_direct_passes
    (InstructionSet.isDirect_base hl) hm hwidth (fun _ _ hl ↦ label?_passes h hv hw hl) hp hp'
    hr hr'
  have hz := value_of_settle_none hf hs
  have hz' := value_of_settle_none hf hs'
  have hforward : o'.forward = w.site.isForward w.workspace.image.read := by
    rw [((settle_direct_none hf).1 hs').2]
  refine ⟨he, hforward, fun hne hfalse ↦ ?_, by rw [hz, hz']; exact hzz⟩
  rw [hz] at hne
  obtain rfl : z = z' := hzz.eq_or_eq_zero.resolve_right hne
  exact settle_direct_passes hf hp hp' hne hfalse hs hs'

omit h hw in
theorem value_of_direct (hi : v.instruction? = some (name, line)) :
    (∃ r, (Expr.sum v.workspace.label?).run line = .ok o.value r) ∨
      o.value = 0 ∧ ∃ f r, (Expr.sum v.workspace.label?).run line = .error f r := by
  obtain ⟨_, _, _, hi', hl, hparse⟩ := Visit.operand?_eq_some.1 ho
  rw [hi] at hi'
  cases hi'
  obtain ⟨f, z, q, hf, hz, hs⟩ :=
    Grammar.run_parse_direct (InstructionSet.isDirect_base hl) hm hwidth hparse
  rw [value_of_settle_none hf hs]
  cases hsum : (Expr.sum v.workspace.label?).run line with
  | ok u r =>
    rw [run_evaluate_of_ok hsum] at hz
    cases hz
    exact .inl ⟨_, rfl⟩
  | error g r =>
    rw [run_evaluate_first (pass_of_firstVisit hv) hsum] at hz
    cases hz
    exact .inr ⟨rfl, _, _, rfl⟩

omit h hw in
theorem mode_of_direct (hne : o.value ≠ 0) (hlong : o.mode = .long ∨ o.mode = .longX) :
    0xFFFF < o.value := by
  obtain ⟨_, _, _, _, hl, hparse⟩ := Visit.operand?_eq_some.1 ho
  obtain ⟨f, z, _, hf, -, hs⟩ :=
    Grammar.run_parse_direct (InstructionSet.isDirect_base hl) hm hwidth hparse
  obtain ⟨-, rfl⟩ := (settle_direct_none hf).1 hs
  rw [if_neg fun hw ↦ hne ((isWide_first (pass_of_firstVisit hv)).1 hw)] at hlong
  unfold Width.ofAddress at hlong
  by_cases hz : 0xFFFF < z
  · exact hz
  · rw [if_neg hz] at hlong
    rcases hf with rfl | rfl <;> split at hlong <;> rcases hlong with hlong | hlong <;> cases hlong

end

/-- What the final pass makes of an operand without a forced width, plain or with the index X, that
the first pass has read. -/
structure Recognised (v w : Visit) (line : Line) (e : Entry) (o : Operand) : Prop where
  isForward : w.site.isForward w.workspace.image.read = true ↔ o.value = 0
  value : o.value = 0 ↔
    (∃ r, (Expr.sum v.workspace.label?).run line = .ok 0 r) ∨
      ∃ f r, (Expr.sum v.workspace.label?).run line = .error f r
  undefined : ∀ e' o' f r, w.operand? .standard = some (e', o') →
    (Expr.sum v.workspace.label?).run line = .error f r → ∃ name, f = .undefined name
  deferred : o.value = 0 → ∀ e' o', w.operand? .standard = some (e', o') → o'.forward = true
  resolved : o.value ≠ 0 → ∀ e' o', w.operand? .standard = some (e', o') →
    e' = e ∧ o' = o ∧ o'.forward = false ∧ o'.isPadded e'.mnemonic = false
  narrow : o.value ≠ 0 → o.mode = .long ∨ o.mode = .longX → 0xFFFF < o.value
  kept : o.value ≠ 0 → ∀ en, w.encoding? .standard = some en → v.encoding? .standard = some en

theorem recognised_of_direct (h : (pass .standard .first source).run (start origin) = .ok () a)
    (hroom : origin.toNat + 4 * (Source.lines source).length + 4 < UInt32.size)
    (hv : (firstVisits .standard source origin)[k]? = some v)
    (hw : (finalVisits .standard source a)[k]? = some w)
    (hi : v.instruction? = some (name, line)) (ho : v.operand? .standard = some (e, o))
    (hm : o.mode.isDirect = true) (hwidth : o.width = none) : Recognised v w line e o := by
  have hforward := isForward_of_direct h hv hw ho hm hwidth hroom
  have hvalue := value_of_direct hv ho hm hwidth hi
  have hresolved (hne : o.value ≠ 0) {e' : Entry} {o' : Operand}
      (ho' : w.operand? .standard = some (e', o')) :
      e' = e ∧ o' = o ∧ o'.forward = false ∧ o'.isPadded e'.mnemonic = false := by
    obtain ⟨he, hf, heq, -⟩ := operand?_of_direct h hv hw ho hm hwidth hi ho'
    have hfalse : w.site.isForward w.workspace.image.read = false :=
      Bool.eq_false_iff.2 fun ht ↦ hne (hforward.1 ht)
    have hf' : o'.forward = false := hf.trans hfalse
    exact ⟨he, heq hne hfalse, hf', InstructionSet.isPadded_of_forward hf'⟩
  refine ⟨hforward, ?_, ?_, ?_, fun hne e' o' ↦ hresolved hne,
    mode_of_direct hv ho hm hwidth, ?_⟩
  · rcases hvalue with ⟨r, hr⟩ | ⟨h0, f, r, hr⟩
    · rw [hr]
      simp
    · rw [h0, hr]
      simp
  · intro e' o' f r ho' hf
    obtain ⟨-, -, -, hs⟩ := operand?_of_direct h hv hw ho hm hwidth hi ho'
    generalize o.value = u, o'.value = u' at hs
    cases hs with
    | known _ p hs => rw [hf] at hs; cases hs
    | missing _ name p hs =>
      rw [hf] at hs
      cases hs
      exact ⟨name, rfl⟩
  · intro h0 e' o' ho'
    rw [(operand?_of_direct h hv hw ho hm hwidth hi ho').2.1]
    exact hforward.2 h0
  · intro hne en' hen'
    obtain ⟨e', o', ho', hj'⟩ := Visit.encoding?_eq_some.1 hen'
    obtain ⟨rfl, rfl, -, hpad⟩ := hresolved hne ho'
    obtain ⟨en, hen, hj⟩ := encoding?_of_operand? h hv ho
    have hp' : w.pass = .final := pass_of_finalVisit hw
    rw [hp'] at hj'
    rw [InstructionSet.join_first_of_final hpad hj'] at hj
    cases hj
    exact hen

/-- Wherever the final pass comes to an instruction, the first pass has read an operand. If that is
plain or has the index X, without a forced width, the final pass takes it for what it was. -/
theorem recognised_of_finalVisit (h : (pass .standard .first source).run (start origin) = .ok () a)
    (hroom : origin.toNat + 4 * (Source.lines source).length + 4 < UInt32.size)
    (hw : (finalVisits .standard source a)[k]? = some w)
    (hi : w.instruction? = some (name, line)) :
    ∃ v e o, (firstVisits .standard source origin)[k]? = some v ∧
      v.operand? .standard = some (e, o) ∧
      (o.mode.isDirect = true → o.width = none → Recognised v w line e o) := by
  obtain ⟨v, hv⟩ := exists_firstVisit h hw
  rw [instruction?_of_text (text_passes hv hw)] at hi
  obtain ⟨e, o, en, ho, -, -⟩ := operand?_of_firstVisit h hv hi
  exact ⟨v, e, o, hv, ho, recognised_of_direct h hroom hv hw hi ho⟩

theorem recognised_load_ahead :
    ∃ a v w line e o,
      (pass .standard .first "\tlda ahead\nahead:\tnop").run (start 0x8000) = .ok () a ∧
      (finalVisits .standard "\tlda ahead\nahead:\tnop" a)[0]? = some w ∧
      v.operand? .standard = some (e, o) ∧ o = ⟨.long, 0, none, false⟩ ∧
      Recognised v w line e o := by
  have hok : (Visit.state? ((pass .standard .first
      "\tlda ahead\nahead:\tnop").run (start 0x8000))).isSome = true := by
    decide +kernel
  have ho : ((firstVisits .standard "\tlda ahead\nahead:\tnop" 0x8000)[0]?.bind fun v ↦
      (v.operand? .standard).map Prod.snd) = some ⟨.long, 0, none, false⟩ := by
    decide +kernel
  obtain ⟨a, ha⟩ := Visit.exists_eq_ok_of_isSome hok
  have hlines : Source.lines "\tlda ahead\nahead:\tnop" = ["\tlda ahead", "ahead:\tnop"] := by
    decide +kernel
  have hi : ((Statement.ofText? "\tlda ahead").bind fun s ↦
      if s.word.isStop then none else some (s.word.text, s.operand)) =
        some ("lda", ⟨[⟨.identifier, "ahead", 5⟩], 10⟩) := by
    decide +kernel
  obtain ⟨v, e, o, hv, hvo, hr⟩ :=
    recognised_of_finalVisit ha (by decide +kernel) (finalVisits_zero hlines) hi
  rw [hv, Option.bind_some, hvo] at ho
  cases ho
  exact ⟨a, v, _, _, e, _, ha, finalVisits_zero hlines, hvo, rfl, hr rfl rfl⟩

end Assembly

end Asm65816
