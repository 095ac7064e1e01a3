import Asm65816.Proofs.Operand.Slack

namespace Asm65816.Operand

open TokenSource Grammar

/-- An address is written, plain or indexed by X or Y, and no width is forced on it. -/
def Unforced (labels : String → Option Int) (base : Mode) (width : Option Width) (ts : List Token)
    (v : Int) : Prop :=
  ∃ f, (f = .plain ∨ f = .indexedX ∨ f = .indexedY) ∧
    Written labels base width ts (.single f ⟨v, none⟩)

def IsMissing {σ : Type} [TokenSource σ] (width : Option Width) (s : σ) : Prop :=
  ∃ w t q, (suffix width).run s = .ok (w, t) q ∧ t.isStop = true

section

variable {site : Site} {labels : String → Option Int} {memory : UInt32 → UInt8} {base : Mode}
variable {width w : Option Width} {line r : Line} {o : Operand} {v : Int} {f : Form} {z : Sized}

theorem Body.eq_nil {ts : List Token} (h : Body labels base width ts (.nothing w)) : ts = [] := by
  generalize hx : Reading.nothing w = x at h
  cases h with
  | nothing => rfl
  | single => cases hx
  | move => cases hx

theorem isMissing_of_written (hx : Written labels base width line.words (.nothing w)) :
    IsMissing width line := by
  obtain ⟨w', p, hb, hs⟩ := suffix_of_written hx
  refine ⟨w', _, _, hs, ?_⟩
  by_contra hstop
  rw [Line.words_of_next (Bool.eq_false_iff.2 hstop)] at hb
  cases hb.eq_nil

theorem not_isMissing_of_written (hx : Written labels base width line.words (.single f z)) :
    ¬IsMissing width line := by
  rintro ⟨w, t, q, hs, hstop⟩
  obtain ⟨w', p, hb, hs'⟩ := suffix_of_written hx
  rw [hs] at hs'
  cases hs'
  rw [Line.words_of_isStop hstop] at hb
  cases hb.eq_nothing

theorem not_isMissing_of_isFlexible {σ : Type} [TokenSource σ] {eval : Expr.Evaluator σ} {s r : σ}
    (hb : base.isBare = false) (h : (parse site eval memory base width).run s = .ok o r)
    (ho : o.isFlexible = true) : ¬IsMissing width s := by
  rintro ⟨w, t, q, hs, hstop⟩
  obtain ⟨w', t', q', hs', ⟨-, rfl, -⟩ | ⟨hstop', -⟩⟩ := run_parse_eq_ok.1 h
  · have hbare : base.isBare = true := (isFlexible_eq_true.1 ho).2
    rw [hb] at hbare
    cases hbare
  · rw [hs] at hs'
    cases hs'
    rw [hstop] at hstop'
    cases hstop'

theorem unforced_of_run_parse (hp : site.pass = .final)
    (h : (parse site (Expr.sum labels) memory base width).run line = .ok o r)
    (ho : o.isFlexible = true) (hm : ¬IsMissing width line) :
    Unforced labels base width line.words o.value := by
  obtain ⟨x, hx, hs⟩ := exists_written hp h
  cases x with
  | nothing w => exact absurd (isMissing_of_written hx) hm
  | single f z =>
    obtain ⟨rfl, ⟨hf, -⟩ | ⟨hf, -⟩⟩ := form_of_isFlexible ho hs
    · exact ⟨f, hf.imp_right .inl, hx⟩
    · exact ⟨f, .inr (.inr hf), hx⟩
  | move z z' =>
    obtain ⟨-, -, rfl⟩ := settle_move_eq_ok.1 hs
    cases (isFlexible_eq_true.1 ho).2

theorem isFlexible_of_unforced (hx : Unforced labels base width line.words v)
    (h : (parse site (Expr.sum labels) memory base width).run line = .ok o r) :
    o.isFlexible = true := by
  obtain ⟨f, hf, hx⟩ := hx
  exact (isFlexible_iff ((exists_run_parse_eq_ok_iff hx).1 ⟨r, h⟩)).2 ⟨hf, rfl⟩

theorem not_isMissing_of_unforced (hx : Unforced labels base width line.words v) :
    ¬IsMissing width line := by
  obtain ⟨f, -, hx⟩ := hx
  exact not_isMissing_of_written hx

theorem run_parse_of_unforced_zero (hx : Unforced labels base width line.words 0) :
    ∃ o r, (parse site (Expr.sum labels) memory base width).run line = .ok o r ∧ o.value = 0 := by
  obtain ⟨f, hf, hx⟩ := hx
  obtain ⟨o, ho, hv⟩ : ∃ o, f.settle site memory base ⟨0, none⟩ = .ok o ∧ o.value = 0 := by
    rw [← or_assoc] at hf
    rcases hf with hf | rfl
    · exact ⟨_, (settle_direct_none hf).2 ⟨by decide, rfl⟩, rfl⟩
    · exact ⟨_, settle_indexedY_of_holds (by decide), rfl⟩
  obtain ⟨r, h⟩ := run_parse_of_written hx ho
  exact ⟨o, r, h, hv⟩

end

end Asm65816.Operand
