import Asm65816.Proofs.Operand.Deferral
import Asm65816.Proofs.Operand.Form

namespace Asm65816.Operand

open TokenSource Grammar

def Lead.IsSteady {σ : Type} (l : Lead σ) : Prop :=
  (∀ v, (l.take v).width = (l.take 0).width) ∧ (l.take 0).value = 0

section

variable {σ : Type} [TokenSource σ] {width : Option Width} {t : Token} {s : σ}

theorem Lead.isSteady_ofConstant : (Lead.ofConstant width t s).IsSteady := by
  unfold Lead.ofConstant
  split
  · next part hp =>
    refine ⟨fun v ↦ rfl, ?_⟩
    unfold part? at hp
    split at hp
    · cases hp; rfl
    · split at hp
      · cases hp; rfl
      · cases hp
  · exact ⟨fun v ↦ rfl, rfl⟩

theorem Lead.isSteady_ofAddress : (Lead.ofAddress width t s).IsSteady := by
  unfold Lead.ofAddress
  split
  · next w hw => exact ⟨fun v ↦ rfl, by cases w <;> rfl⟩
  · exact ⟨fun v ↦ rfl, rfl⟩

theorem Opening.isSteady_of_lead? {x : Opening} {l : Lead σ} (h : x.lead? width t s = some l) :
    l.IsSteady := by
  have hc {c : Prop} [Decidable c] {l' : Lead σ} (hl : (if c then none else some l') = some l)
      (h' : l'.IsSteady) : l.IsSteady := by
    split at hl
    · cases hl
    · cases hl; exact h'
  cases x with
  | target b => cases h; exact Lead.isSteady_ofConstant
  | bare => cases h; exact Lead.isSteady_ofAddress
  | distance b => exact hc h Lead.isSteady_ofConstant
  | immediate => exact hc h Lead.isSteady_ofConstant
  | parenthesis => exact hc h Lead.isSteady_ofAddress
  | bracket => exact hc h Lead.isSteady_ofAddress

end

theorem Opening.eq_blockMove_of_ofToken? {base : Mode} {t : Token} (h : ofToken? base t = none) :
    base = .blockMove := by
  have hne {c d e : Prop} [Decidable c] [Decidable d] [Decidable e] {w x y z : Opening} :
      (if c then some w else if d then some x else if e then some y else some z) ≠ none := by
    split
    · simp
    · split
      · simp
      · split <;> simp
  cases base <;> first | rfl | cases h | exact absurd h hne

/-- In an operand that is read to the end of its line, the expression ends where skipping it
does. -/
theorem Opening.ends_of_closing {σ : Type} [TokenSource σ] [LawfulTokenSource σ] {x : Opening}
    {f : Form} {q r : σ} (h : x.closing.run q = .ok f r) (hr : (next r).1.isStop = true) :
    ends (next q).1 = true := by
  have hpure {g : Form} (hg : (pure g : Reader σ Form).run q = .ok f r) :
      ends (next q).1 = true := by
    obtain ⟨-, rfl⟩ := run_pure_eq_ok.1 hg
    exact ends_eq_true.2 (.inl hr)
  cases x with
  | target b => exact hpure h
  | distance b => exact hpure h
  | immediate => exact hpure h
  | bare =>
    obtain ⟨b, s, hb, h⟩ := run_bind_eq_ok.1 h
    obtain ⟨hc, rfl⟩ := run_accept_eq_ok.1 hb
    cases b with
    | true => exact ends_eq_true.2 (.inr (.inr hc))
    | false =>
      obtain ⟨-, rfl⟩ := run_pure_eq_ok.1 h
      simp only [Bool.false_eq_true, if_false, LawfulTokenSource.next_putBack q] at hr
      exact ends_eq_true.2 (.inl hr)
  | parenthesis =>
    obtain ⟨t, s, ht, h⟩ := run_bind_eq_ok.1 h
    obtain ⟨-, rfl, rfl⟩ := run_present_eq_ok.1 ht
    split at h
    · next hc => exact ends_eq_true.2 (.inr (.inr hc))
    · split at h
      · next hc => exact ends_eq_true.2 (.inr (.inl (by simp [closes, hc])))
      · cases run_throw_eq_ok.1 h
  | bracket =>
    obtain ⟨u, s, hu, -⟩ := run_bind_eq_ok.1 h
    obtain ⟨hc, -⟩ := run_symbol_eq_ok.1 hu
    exact ends_eq_true.2 (.inr (.inl (by simp [closes, hc])))

/-- The value of an expression on the first pass, where the final pass finds another one: the same,
or zero for the lack of a label. -/
inductive Foreseen (labels : String → Option Int) (s : Line) : Int → Int → Prop
  | known (v : Int) (r : Line) : (Expr.sum labels).run s = .ok v r → Foreseen labels s v v
  | missing (v : Int) (name : String) (r : Line) :
    (Expr.sum labels).run s = .error (.undefined name) r → Foreseen labels s 0 v

theorem Foreseen.eq_or_eq_zero {labels : String → Option Int} {s : Line} {v v' : Int}
    (h : Foreseen labels s v v') : v = v' ∨ v = 0 := by
  cases h with
  | known v r hs => exact .inl rfl
  | missing v name r hs => exact .inr rfl

namespace Grammar

variable {site site' : Site} {labels labels' : String → Option Int}
variable {memory memory' : UInt32 → UInt8} {base : Mode} {width : Option Width} {t : Token}
variable {s r r' : Line} {o o' : Operand}

/-- Both passes read an operand in the same form. Its value on the first pass is the final one, or
zero where a label was missing. -/
theorem run_body_passes {x : Opening} (hx : Opening.ofToken? base t = some x)
    (hle : ∀ l w, labels l = some w → labels' l = some w)
    (hp : site.pass = .first) (hp' : site'.pass = .final)
    (h : (body site (Expr.sum labels) memory base width t).run s = .ok o r)
    (h' : (body site' (Expr.sum labels') memory' base width t).run s = .ok o' r')
    (hr : (next r').1.isStop = true) :
    ∃ (l : Lead Line) (f : Form) (v v' : Int) (q : Line),
      x.lead? width t s = some l ∧ f.opening = x ∧
      (evaluate site (Expr.sum labels)).run l.start = .ok v q ∧
      (evaluate site' (Expr.sum labels')).run l.start = .ok v' q ∧
      f.settle site memory base (l.take v) = .ok o ∧
      f.settle site' memory' base (l.take v') = .ok o' ∧ Foreseen labels l.start v v' := by
  obtain ⟨z', q', f', hz', hf', ho'⟩ := (run_body_eq_ok hx).1 h'
  obtain ⟨l, v', hl, hv', rfl⟩ := run_value_eq_ok.1 hz'
  obtain ⟨z, q, f, hz, hf, ho⟩ := (run_body_eq_ok hx).1 h
  obtain ⟨_, v, hl', hv, rfl⟩ := run_value_eq_ok.1 hz
  rw [hl] at hl'
  cases hl'
  have hsame : q = q' ∧ Foreseen labels l.start v v' := by
    rcases run_evaluate_first_of_final hle hp hp' hv' (Opening.ends_of_closing hf' hr) with
      ⟨hs, hu⟩ | ⟨⟨m, p, hs⟩, hu⟩
    · rw [hu] at hv
      cases hv
      exact ⟨rfl, .known _ _ hs⟩
    · rw [hu] at hv
      cases hv
      exact ⟨rfl, .missing _ _ _ hs⟩
  obtain ⟨rfl, hvv⟩ := hsame
  rw [hf'] at hf
  cases hf
  exact ⟨l, f', v, v', q, hl, yields_closing x _ _ _ hf', hv, hv', ho, ho', hvv⟩

theorem run_parse_passes (hle : ∀ l w, labels l = some w → labels' l = some w)
    (hp : site.pass = .first) (hp' : site'.pass = .final)
    (h : (parse site (Expr.sum labels) memory base width).run s = .ok o r)
    (h' : (parse site' (Expr.sum labels') memory' base width).run s = .ok o' r') :
    (∃ w, o = ⟨base, 0, w, false⟩ ∧ o' = o) ∨
      o.mode = .blockMove ∧ o'.mode = .blockMove ∨
      ∃ (f : Form) (z z' : Sized), f.settle site memory base z = .ok o ∧
        f.settle site' memory' base z' = .ok o' ∧ z.width = z'.width ∧
        (z.value = z'.value ∨ z.value = 0) := by
  obtain ⟨w, t, q, hs, ⟨ht, rfl, -⟩ | ⟨ht, q₁, hb, he⟩⟩ := run_parse_eq_ok.1 h <;>
    obtain ⟨w', t', q', hs', ⟨ht', rfl, -⟩ | ⟨ht', q₂, hb', he'⟩⟩ := run_parse_eq_ok.1 h' <;>
    rw [hs] at hs' <;> cases hs'
  · exact .inl ⟨w, rfl, rfl⟩
  · rw [ht] at ht'
    cases ht'
  · rw [ht] at ht'
    cases ht'
  · cases hx : Opening.ofToken? base t with
    | none =>
      obtain rfl := Opening.eq_blockMove_of_ofToken? hx
      exact .inr (.inl ⟨mode_of_run_blockMove hb, mode_of_run_blockMove hb'⟩)
    | some x =>
      obtain ⟨l, f, v, v', -, hl, -, -, -, ho, ho', hv⟩ :=
        run_body_passes hx hle hp hp' hb hb' (run_endOfLine_eq_ok.1 he').1
      obtain ⟨hw, h0⟩ := Opening.isSteady_of_lead? hl
      refine .inr (.inr ⟨f, _, _, ho, ho', (hw v).trans (hw v').symm, ?_⟩)
      rcases hv.eq_or_eq_zero with rfl | rfl
      · exact .inl rfl
      · exact .inr h0

end Grammar

end Asm65816.Operand
