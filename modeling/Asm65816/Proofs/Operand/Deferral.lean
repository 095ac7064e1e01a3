import Asm65816.Line
import Asm65816.Operand.Value

namespace Asm65816

theorem Token.isSymbol_of_ne {t : Token} {c d : Char} (h : t.isSymbol c = true) (hne : c ≠ d) :
    t.isSymbol d = false := by
  simp only [isSymbol, Bool.and_eq_true, decide_eq_true_eq] at h
  simp [isSymbol, h, hne]

theorem Token.isSymbol_of_kind {t : Token} (h : t.kind ≠ .symbol) (c : Char) :
    t.isSymbol c = false := by
  simp [isSymbol, h]

theorem Token.isSymbol_of_isStop {t : Token} (h : t.isStop = true) (c : Char) :
    t.isSymbol c = false :=
  isSymbol_of_kind (by simp_all [isStop]) c

theorem Token.isLetter_of_isStop {t : Token} (h : t.isStop = true) (c : Char) :
    t.isLetter c = false := by
  simp_all [isStop, isLetter]

namespace Operand

open TokenSource

def ends (t : Token) : Bool := t.isStop || closes t || t.isSymbol ','

theorem ends_eq_true {t : Token} :
    ends t = true ↔ t.isStop = true ∨ closes t = true ∨ t.isSymbol ',' = true := by
  simp [ends, or_assoc]

theorem not_isStop_of_opens {t : Token} (h : opens t = true) : t.isStop = false := by
  rcases Bool.or_eq_true_iff.1 h with h | h <;> exact Token.not_isStop_of_isSymbol h

theorem not_isStop_of_closes {t : Token} (h : closes t = true) : t.isStop = false := by
  rcases Bool.or_eq_true_iff.1 h with h | h <;> exact Token.not_isStop_of_isSymbol h

theorem not_closes_of_opens {t : Token} (h : opens t = true) : closes t = false := by
  rcases Bool.or_eq_true_iff.1 h with h | h <;> simp [closes, Token.isSymbol_of_ne h]

theorem not_opens_of_closes {t : Token} (h : closes t = true) : opens t = false := by
  rcases Bool.or_eq_true_iff.1 h with h | h <;> simp [opens, Token.isSymbol_of_ne h]

section

variable {σ : Type} [TokenSource σ] {s : σ}

theorem skip_congr {s' : σ} (h : next s = next s') (d : Nat) : skip d s = skip d s' := by
  rw [skip, skip.eq_def d s', h]

theorem skip_of_isStop (d : Nat) (h : (next s).1.isStop = true) :
    skip d s = putBack (next s).1 (next s).2 := by
  rw [skip, if_pos h]

theorem skip_of_opens (d : Nat) (h : opens (next s).1 = true) :
    skip d s = skip (d + 1) (next s).2 := by
  rw [skip, if_neg (by simp [not_isStop_of_opens h]), if_pos h]

theorem skip_of_closes (d : Nat) (h : closes (next s).1 = true) :
    skip (d + 1) s = skip d (next s).2 := by
  have hs := not_isStop_of_closes h
  have ho := not_opens_of_closes h
  rw [skip, if_neg (by simp [hs]), if_neg (by simp [ho]), if_neg (by simp), if_pos h,
    Nat.add_sub_cancel]

/-- Nothing but a bracket changes the depth, and a comma counts outside of all brackets only. -/
theorem skip_of_not_bracket (d : Nat) (hs : (next s).1.isStop = false)
    (ho : opens (next s).1 = false) (hc : closes (next s).1 = false)
    (hd : (next s).1.isSymbol ',' = true → d ≠ 0) : skip d s = skip d (next s).2 := by
  rw [skip, if_neg (by simp [hs]), if_neg (by simp [ho]), if_neg, if_neg (by simp [hc])]
  simp only [hc, Bool.false_eq_true, false_or, not_and']
  exact hd

theorem skip_of_ends (h : ends (next s).1 = true) :
    skip 0 s = putBack (next s).1 (next s).2 := by
  rcases ends_eq_true.1 h with h | h | h
  · exact skip_of_isStop 0 h
  · have hs := not_isStop_of_closes h
    have ho := not_opens_of_closes h
    rw [skip, if_neg (by simp [hs]), if_neg (by simp [ho]), if_pos ⟨rfl, .inl h⟩]
  · have ho : opens (next s).1 = false := by simp [opens, Token.isSymbol_of_ne h]
    have hs : (next s).1.isStop = false := Token.not_isStop_of_isSymbol h
    rw [skip, if_neg (by simp [hs]), if_neg (by simp [ho]), if_pos ⟨rfl, .inr h⟩]

theorem skip_of_inside (d : Nat) (hs : (next s).1.isStop = false)
    (hb : ∀ c ∈ ['(', '[', ')', ']', ','], (next s).1.isSymbol c = false) :
    skip d s = skip d (next s).2 := by
  simp only [List.mem_cons, List.not_mem_nil, or_false, forall_eq_or_imp, forall_eq] at hb
  exact skip_of_not_bracket d hs (by simp [opens, hb]) (by simp [closes, hb]) (by simp [hb])

theorem skip_of_word (d : Nat) (hs : (next s).1.isStop = false)
    (hk : (next s).1.kind ≠ .symbol) : skip d s = skip d (next s).2 :=
  skip_of_inside d hs fun c _ ↦ Token.isSymbol_of_kind hk c

theorem skip_of_sign (d : Nat) {c : Char} (hc : c = '+' ∨ c = '-')
    (h : (next s).1.isSymbol c = true) : skip d s = skip d (next s).2 := by
  refine skip_of_inside d (Token.not_isStop_of_isSymbol h) fun b hb ↦ Token.isSymbol_of_ne h ?_
  rintro rfl
  rcases hc with rfl | rfl <;> simp at hb

end

end Operand

namespace Expr

open TokenSource Operand

section

variable {σ : Type} [TokenSource σ] {labels labels' : String → Option Int} {s r : σ} {v : Int}

theorem term_of_number (hk : (next s).1.kind = .number) :
    term labels s =
      match Numeral.value? (next s).1.text.toList with
      | some v => .ok v (next s).2
      | none => .error (.malformed (next s).1) (next s).2 := by
  cases hv : Numeral.value? (next s).1.text.toList with
  | some v =>
    rw [term]
    simp only [hk, hv]
  | none =>
    rw [term]
    simp only [hk, hv]

theorem term_of_identifier (hk : (next s).1.kind = .identifier) :
    term labels s =
      match labels (next s).1.text with
      | some v => .ok v (next s).2
      | none => .error (.undefined (next s).1.text) (next s).2 := by
  cases hl : labels (next s).1.text with
  | some v =>
    rw [term]
    simp only [hk, hl]
  | none =>
    rw [term]
    simp only [hk, hl]

theorem term_of_minus (hm : (next s).1.isSymbol '-' = true) :
    term labels s =
      match term labels (next s).2 with
      | .ok v r => .ok (-v) r
      | .error e r => .error e r := by
  have hk : (next s).1.kind = .symbol := by simp_all [Token.isSymbol]
  cases ht : term labels (next s).2 with
  | ok v r =>
    rw [term]
    simp only [hk, hm, if_true, ht]
  | error e r =>
    rw [term]
    simp only [hk, hm, if_true, ht]

theorem term_of_stray (hn : (next s).1.kind ≠ .number)
    (hi : (next s).1.kind ≠ .identifier) (hm : (next s).1.isSymbol '-' = false) :
    term labels s = .error (.malformed (next s).1) (next s).2 := by
  rw [term]
  cases hk : (next s).1.kind with
  | number => exact absurd hk hn
  | identifier => exact absurd hk hi
  | symbol => simp [hm]
  | endOfLine => simp

theorem skip_of_term (d : Nat) (h : term labels s = .ok v r) : skip d s = skip d r := by
  fun_induction term labels s generalizing v r with
  | case1 =>
    rename_i s t rest hk w hw
    cases h
    exact skip_of_word d (by simp_all [t, Token.isStop]) (by simp_all [t])
  | case3 =>
    rename_i s t rest hk w hw
    cases h
    exact skip_of_word d (by simp_all [t, Token.isStop]) (by simp_all [t])
  | case5 =>
    rename_i s t hk hm w rest hw ih
    cases h
    rw [skip_of_sign d (.inr rfl) hm]
    exact ih hw
  | _ => cases h

theorem term_of_le (hle : ∀ l w, labels l = some w → labels' l = some w)
    (h : term labels' s = .ok v r) :
    term labels s = .ok v r ∨ ∃ l, term labels s = .error (.undefined l) r := by
  fun_induction term labels' s generalizing v r with
  | case1 =>
    rename_i s t rest hk w hw
    cases h
    rw [term_of_number hk, show Numeral.value? (next s).1.text.toList = some w from hw]
    exact .inl rfl
  | case3 =>
    rename_i s t rest hk w hw
    cases h
    rw [term_of_identifier hk]
    cases hl : labels (next s).1.text with
    | some w' =>
      have := hle _ _ hl
      rw [show labels' (next s).1.text = some w from hw] at this
      cases this
      exact .inl rfl
    | none => exact .inr ⟨_, rfl⟩
  | case5 =>
    rename_i s t hk hm w rest hw ih
    cases h
    rw [term_of_minus hm]
    rcases ih hw with ht | ⟨l, ht⟩
    · rw [ht]
      exact .inl rfl
    · rw [ht]
      exact .inr ⟨l, rfl⟩
  | _ => cases h

end

section

variable {σ : Type} [TokenSource σ] {labels labels' : String → Option Int} {s r : σ} {v w : Int}

section

variable [LawfulTokenSource σ]

theorem skip_of_terms (d : Nat) (h : terms labels v s = .ok w r) : skip d s = skip d r := by
  fun_induction terms labels v s generalizing w r with
  | case1 =>
    rename_i v s t hp u rest hu ih
    rw [skip_of_sign d (.inl rfl) hp, skip_of_term d hu]
    exact ih h
  | case3 =>
    rename_i v s t _ hm u rest hu ih
    rw [skip_of_sign d (.inr rfl) hm, skip_of_term d hu]
    exact ih h
  | case5 =>
    rename_i v s t _ _
    cases h
    exact skip_congr (LawfulTokenSource.next_putBack s).symm d
  | _ => cases h

theorem putBack_of_terms (h : terms labels v s = .ok w r) :
    putBack (next r).1 (next r).2 = r := by
  fun_induction terms labels v s generalizing w r with
  | case1 => rename_i ih; exact ih h
  | case3 => rename_i ih; exact ih h
  | case5 =>
    rename_i v s t _ _
    cases h
    rw [LawfulTokenSource.next_putBack s]
  | _ => cases h

end

theorem terms_of_plus (h : (next s).1.isSymbol '+' = true) :
    terms labels v s =
      match term labels (next s).2 with
      | .ok w r => terms labels (v + w) r
      | .error e r => .error e r := by
  rw [terms, if_pos h]
  split <;> simp_all

theorem terms_of_minus (h : (next s).1.isSymbol '-' = true) :
    terms labels v s =
      match term labels (next s).2 with
      | .ok w r => terms labels (v - w) r
      | .error e r => .error e r := by
  have hp : (next s).1.isSymbol '+' = false := Token.isSymbol_of_ne h (by decide)
  rw [terms, if_neg (by simp [hp]), if_pos h]
  split <;> simp_all

/-- With fewer labels, a run of terms has the same value or lacks a label, and then what is left to
skip ends at the same place. -/
theorem terms_of_le [LawfulTokenSource σ] (hle : ∀ l w, labels l = some w → labels' l = some w)
    (h : terms labels' v s = .ok w r) :
    terms labels v s = .ok w r ∨
      ∃ l q, terms labels v s = .error (.undefined l) q ∧ skip 0 q = skip 0 r := by
  fun_induction terms labels' v s generalizing w r with
  | case1 =>
    rename_i v s t hp u rest hu ih
    rw [terms_of_plus hp]
    rcases term_of_le hle hu with ht | ⟨l, ht⟩
    · rw [ht]
      exact ih h
    · rw [ht]
      exact .inr ⟨l, rest, rfl, skip_of_terms 0 h⟩
  | case3 =>
    rename_i v s t _ hm u rest hu ih
    rw [terms_of_minus hm]
    rcases term_of_le hle hu with ht | ⟨l, ht⟩
    · rw [ht]
      exact ih h
    · rw [ht]
      exact .inr ⟨l, rest, rfl, skip_of_terms 0 h⟩
  | case5 =>
    rename_i v s t hp hm
    cases h
    rw [terms, if_neg hp, if_neg hm]
    exact .inl rfl
  | _ => cases h

theorem sum_of_le [LawfulTokenSource σ] (hle : ∀ l w, labels l = some w → labels' l = some w)
    (h : (sum labels').run s = .ok v r) :
    putBack (next r).1 (next r).2 = r ∧
      ((sum labels).run s = .ok v r ∨
        ∃ l q, (sum labels).run s = .error (.undefined l) q ∧ skip 0 q = skip 0 r) := by
  unfold EStateM.run sum at h ⊢
  cases ht : term labels' s with
  | error e q => rw [ht] at h; cases h
  | ok u q =>
    rw [ht] at h
    refine ⟨putBack_of_terms h, ?_⟩
    rcases term_of_le hle ht with ht' | ⟨l, ht'⟩
    · rw [ht']
      exact terms_of_le hle h
    · rw [ht']
      exact .inr ⟨l, q, rfl, skip_of_terms 0 h⟩

end

end Expr

namespace Operand

open TokenSource

variable {σ : Type} [TokenSource σ] {site site' : Site} {labels labels' : String → Option Int}
variable {s r : σ} {v : Int}

theorem run_evaluate_eq_ok_final (hp : site.pass = .final) :
    (evaluate site (Expr.sum labels)).run s = .ok v r ↔ (Expr.sum labels).run s = .ok v r := by
  cases h : (Expr.sum labels).run s with
  | ok w q => simp [run_evaluate_of_ok h]
  | error e q => simp [run_evaluate_final hp h]

/-- The first pass reads the same value as the final one, or zero where a label is still missing.
It goes on behind the same tokens. -/
theorem run_evaluate_first_of_final [LawfulTokenSource σ]
    (hle : ∀ l w, labels l = some w → labels' l = some w)
    (hp : site.pass = .first) (hp' : site'.pass = .final)
    (h : (evaluate site' (Expr.sum labels')).run s = .ok v r) (he : ends (next r).1 = true) :
    (Expr.sum labels).run s = .ok v r ∧ (evaluate site (Expr.sum labels)).run s = .ok v r ∨
      (∃ l q, (Expr.sum labels).run s = .error (.undefined l) q) ∧
        (evaluate site (Expr.sum labels)).run s = .ok 0 r := by
  rw [run_evaluate_eq_ok_final hp'] at h
  obtain ⟨hr, hs | ⟨l, q, hs, hq⟩⟩ := Expr.sum_of_le hle h
  · exact .inl ⟨hs, run_evaluate_of_ok hs⟩
  · refine .inr ⟨⟨l, q, hs⟩, ?_⟩
    rw [run_evaluate_first hp hs, hq, skip_of_ends he, hr]

end Operand

end Asm65816
