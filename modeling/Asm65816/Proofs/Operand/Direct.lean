import Asm65816.Proofs.Operand.Passes
import Asm65816.Proofs.Operand.Settle

namespace Asm65816.Operand.Grammar

open TokenSource

section

variable {σ : Type} [TokenSource σ] {s q : σ} {t : Token} {width : Option Width}

theorem run_pull_eq_ok :
    (pull : Reader σ Token).run s = .ok t q ↔ t = (next s).1 ∧ q = (next s).2 := by
  constructor
  · intro h
    cases h
    exact ⟨rfl, rfl⟩
  · intro h
    obtain ⟨rfl, rfl⟩ := h
    rfl

theorem run_expect_eq_ok {p : Token → Bool} :
    (expect p).run s = .ok t q ↔ p (next s).1 = true ∧ t = (next s).1 ∧ q = (next s).2 := by
  rw [run_expect]
  cases hp : p (next s).1 with
  | true => simp [eq_comm (a := t), eq_comm (a := q)]
  | false => simp

theorem run_suffix_eq_ok {w : Option Width} :
    (suffix width).run s = .ok (w, t) q ↔
      (next s).1.isSymbol '.' = false ∧ w = width ∧ t = (next s).1 ∧ q = (next s).2 ∨
        (next s).1.isSymbol '.' = true ∧ (next (next s).2).1.kind = .identifier ∧
          (∃ v, Width.ofSuffix? (next (next s).2).1.text = some v ∧ w = some v) ∧
          t = (next (next (next s).2).2).1 ∧ q = (next (next (next s).2).2).2 := by
  have hs : (suffix width).run s =
      (if (next s).1.isSymbol '.' then do
        let name ← expect fun t ↦ t.kind = .identifier && (Width.ofSuffix? t.text).isSome
        return (Width.ofSuffix? name.text, ← pull)
      else return (width, (next s).1) : Reader σ (Option Width × Token)).run (next s).2 := rfl
  rw [hs]
  cases hd : (next s).1.isSymbol '.' with
  | false =>
    rw [if_neg (by simp), run_pure_eq_ok]
    simp [and_assoc]
  | true =>
    simp only [↓reduceIte, Bool.true_eq_false, false_and, true_and, false_or]
    constructor
    · intro h
      obtain ⟨name, p, hn, h⟩ := run_bind_eq_ok.1 h
      obtain ⟨hp, rfl, rfl⟩ := run_expect_eq_ok.1 hn
      obtain ⟨t', ht, heq⟩ := run_return_eq_ok.1 h
      obtain ⟨rfl, rfl⟩ := run_pull_eq_ok.1 ht
      cases heq
      simp only [Bool.and_eq_true, decide_eq_true_eq, Option.isSome_iff_exists] at hp
      obtain ⟨hk, v, hv⟩ := hp
      exact ⟨hk, ⟨v, hv, hv⟩, rfl, rfl⟩
    · rintro ⟨hk, ⟨v, hv, rfl⟩, rfl, rfl⟩
      refine run_bind_eq_ok.2 ⟨_, _, run_expect_eq_ok.2 ⟨by simp [hk, hv], rfl, rfl⟩, ?_⟩
      exact run_return_eq_ok.2 ⟨_, run_pull_eq_ok.2 ⟨rfl, rfl⟩, by rw [hv]⟩

theorem run_suffix_none (h : (suffix width).run s = .ok (none, t) q) :
    width = none ∧ t = (next s).1 ∧ q = (next s).2 := by
  rcases run_suffix_eq_ok.1 h with ⟨-, hw, ht, hq⟩ | ⟨-, -, ⟨v, -, hw⟩, -⟩
  · exact ⟨hw.symm, ht, hq⟩
  · cases hw

end

variable {site site' : Site} {labels labels' : String → Option Int}
variable {memory memory' : UInt32 → UInt8} {base : Mode} {width : Option Width} {t : Token}
variable {s q r r' : Line} {o o' : Operand}

theorem lead_of_direct {f : Form} {l : Lead Line} {v : Int} (hm : o.mode.isDirect = true)
    (hw : o.width = none) (hl : f.opening.lead? width t q = some l)
    (ho : f.settle site memory base (l.take v) = .ok o) :
    (f = .plain ∨ f = .indexedX) ∧ width = none ∧
      l = ⟨putBack t q, fun v ↦ ⟨v, none⟩⟩ := by
  have hf := form_of_isDirect hm ho
  have hx : f.opening = .bare := by rcases hf with rfl | rfl <;> rfl
  rw [hx] at hl
  cases hl
  refine ⟨hf, ?_⟩
  unfold Lead.ofAddress at ho ⊢
  cases hk : mark? t with
  | some w =>
    rw [hk] at ho
    have hs := (mode_of_settle_direct hf ho).2.1
    rw [hw] at hs
    cases hs
  | none =>
    rw [hk] at ho
    cases width with
    | none => exact ⟨rfl, rfl⟩
    | some w =>
      have hs := (mode_of_settle_direct hf ho).2.1
      rw [hw] at hs
      cases hs

theorem putBack_next_of_isStop (h : (next s).1.isStop = false) :
    putBack (next s).1 (next s).2 = s := by
  refine Line.putBack_next fun ht ↦ ?_
  obtain ⟨tokens, stop⟩ := s
  subst ht
  cases h

theorem run_parse_direct (hb : base.isDirect = false) (hm : o.mode.isDirect = true)
    (hw : o.width = none)
    (h : (parse site (Expr.sum labels) memory base width).run s = .ok o r) :
    ∃ (f : Form) (v : Int) (q : Line), (f = .plain ∨ f = .indexedX) ∧
      (evaluate site (Expr.sum labels)).run s = .ok v q ∧
      f.settle site memory base ⟨v, none⟩ = .ok o := by
  obtain ⟨w, t, q, hs, ⟨-, rfl, -⟩ | ⟨ht, q', hbody, -⟩⟩ := run_parse_eq_ok.1 h
  · rw [hb] at hm
    cases hm
  · cases hx : Opening.ofToken? base t with
    | none =>
      obtain rfl := Opening.eq_blockMove_of_ofToken? hx
      rw [mode_of_run_blockMove hbody] at hm
      cases hm
    | some x =>
      obtain ⟨z, p, f, hz, hf, ho⟩ := (run_body_eq_ok hx).1 hbody
      obtain ⟨l, v, hl, hv, rfl⟩ := run_value_eq_ok.1 hz
      have hfx : f.opening = x := yields_closing x _ _ _ hf
      subst hfx
      obtain ⟨hf', rfl, rfl⟩ := lead_of_direct hm hw hl ho
      obtain ⟨-, rfl, rfl⟩ := run_suffix_none hs
      refine ⟨f, v, p, hf', ?_, ho⟩
      rw [← putBack_next_of_isStop ht]
      exact hv

theorem run_parse_direct_passes (hb : base.isDirect = false) (hm : o.mode.isDirect = true)
    (hw : o.width = none) (hle : ∀ l w, labels l = some w → labels' l = some w)
    (hp : site.pass = .first) (hp' : site'.pass = .final)
    (h : (parse site (Expr.sum labels) memory base width).run s = .ok o r)
    (h' : (parse site' (Expr.sum labels') memory' base width).run s = .ok o' r') :
    ∃ (f : Form) (v v' : Int) (q : Line), (f = .plain ∨ f = .indexedX) ∧
      (evaluate site (Expr.sum labels)).run s = .ok v q ∧
      (evaluate site' (Expr.sum labels')).run s = .ok v' q ∧
      f.settle site memory base ⟨v, none⟩ = .ok o ∧
      f.settle site' memory' base ⟨v', none⟩ = .ok o' ∧ Foreseen labels s v v' := by
  obtain ⟨w, t, q, hs, ⟨-, rfl, -⟩ | ⟨ht, p, hbody, -⟩⟩ := run_parse_eq_ok.1 h
  · rw [hb] at hm
    cases hm
  · obtain ⟨_, _, _, hs', ⟨ht', -, -⟩ | ⟨-, p', hbody', hend⟩⟩ := run_parse_eq_ok.1 h'
    · rw [hs] at hs'
      cases hs'
      rw [ht] at ht'
      cases ht'
    · rw [hs] at hs'
      cases hs'
      cases hx : Opening.ofToken? base t with
      | none =>
        obtain rfl := Opening.eq_blockMove_of_ofToken? hx
        rw [mode_of_run_blockMove hbody] at hm
        cases hm
      | some x =>
        obtain ⟨l, f, v, v', p, hl, rfl, hv, hv', ho, ho', hvv⟩ :=
          run_body_passes hx hle hp hp' hbody hbody' (run_endOfLine_eq_ok.1 hend).1
        obtain ⟨hf, rfl, rfl⟩ := lead_of_direct hm hw hl ho
        obtain ⟨-, rfl, rfl⟩ := run_suffix_none hs
        have hline := putBack_next_of_isStop ht
        simp only [hline] at hv hv' hvv
        exact ⟨f, v, v', p, hf, hv, hv', ho, ho', hvv⟩

end Asm65816.Operand.Grammar
