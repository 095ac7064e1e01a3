import Asm65816.Proofs.Line
import Asm65816.Proofs.Operand.Deferral

namespace Asm65816

namespace Expr

open TokenSource

variable (labels : String → Option Int)

inductive Term : List Token → Int → Prop
  | number {t : Token} {v : Int} :
    t.kind = .number → Numeral.value? t.text.toList = some v → Term [t] v
  | label {t : Token} {v : Int} : t.kind = .identifier → labels t.text = some v → Term [t] v
  | minus {t : Token} {ts : List Token} {v : Int} :
    t.isSymbol '-' = true → Term ts v → Term (t :: ts) (-v)

inductive Sum : List Token → Int → Prop
  | term {ts : List Token} {v : Int} : Term labels ts v → Sum ts v
  | plus {t : Token} {ts us : List Token} {v w : Int} :
    Sum ts v → t.isSymbol '+' = true → Term labels us w → Sum (ts ++ t :: us) (v + w)
  | minus {t : Token} {ts us : List Token} {v w : Int} :
    Sum ts v → t.isSymbol '-' = true → Term labels us w → Sum (ts ++ t :: us) (v - w)

def Known (ts : List Token) : Prop :=
  ∀ t ∈ ts, t.kind = .identifier → (labels t.text).isSome = true

instance (ts : List Token) : Decidable (Known labels ts) :=
  inferInstanceAs (Decidable (∀ t ∈ ts, _))

/-- No sign comes next, so that an expression ends here. -/
def NoSign (l : Line) : Prop :=
  (next l).1.isSymbol '+' = false ∧ (next l).1.isSymbol '-' = false

variable {labels} {t : Token} {ts : List Token} {v w : Int} {s q r : Line}

theorem Term.head (h : Term labels ts v) :
    ∃ t us, ts = t :: us ∧
      (t.kind = .number ∨ t.kind = .identifier ∨ t.isSymbol '-' = true) := by
  cases h with
  | number hk _ => exact ⟨_, _, rfl, .inl hk⟩
  | label hk _ => exact ⟨_, _, rfl, .inr (.inl hk)⟩
  | minus hm _ => exact ⟨_, _, rfl, .inr (.inr hm)⟩

theorem Sum.head (h : Sum labels ts v) :
    ∃ t us, ts = t :: us ∧
      (t.kind = .number ∨ t.kind = .identifier ∨ t.isSymbol '-' = true) := by
  induction h with
  | term h => exact h.head
  | plus _ _ _ ih =>
    obtain ⟨t, us, rfl, ht⟩ := ih
    exact ⟨t, _, rfl, ht⟩
  | minus _ _ _ ih =>
    obtain ⟨t, us, rfl, ht⟩ := ih
    exact ⟨t, _, rfl, ht⟩

theorem Term.not_isStop (h : Term labels ts v) : ∀ t ∈ ts, t.isStop = false := by
  induction h with
  | number hk _ => simp [Token.isStop, hk]
  | label hk _ => simp [Token.isStop, hk]
  | minus hm _ ih => exact List.forall_mem_cons.2 ⟨Token.not_isStop_of_isSymbol hm, ih⟩

theorem Sum.not_isStop (h : Sum labels ts v) : ∀ t ∈ ts, t.isStop = false := by
  induction h with
  | term h => exact h.not_isStop
  | plus _ hp ht ih =>
    exact List.forall_mem_append.2
      ⟨ih, List.forall_mem_cons.2 ⟨Token.not_isStop_of_isSymbol hp, ht.not_isStop⟩⟩
  | minus _ hm ht ih =>
    exact List.forall_mem_append.2
      ⟨ih, List.forall_mem_cons.2 ⟨Token.not_isStop_of_isSymbol hm, ht.not_isStop⟩⟩

theorem term_append (h : Term labels ts v) (q : Line) : term labels (ts ++ q) = .ok v q := by
  induction h with
  | number hk hv =>
    rw [term_of_number (by exact hk)]
    simp only [Line.next_cons_append, hv, Line.nil_append]
  | label hk hl =>
    rw [term_of_identifier (by exact hk)]
    simp only [Line.next_cons_append, hl, Line.nil_append]
  | minus hm _ ih =>
    rw [term_of_minus (by exact hm)]
    simp only [Line.next_cons_append, ih]

theorem exists_term (h : term labels s = .ok v q) :
    ∃ ts, s = ts ++ q ∧ Term labels ts v := by
  fun_induction term labels s generalizing v q with
  | case1 =>
    rename_i s t rest hk w hw
    cases h
    exact ⟨[t], Line.eq_next_append (by simp_all [t, Token.isStop]), .number hk hw⟩
  | case3 =>
    rename_i s t rest hk w hw
    cases h
    exact ⟨[t], Line.eq_next_append (by simp_all [t, Token.isStop]), .label hk hw⟩
  | case5 =>
    rename_i s t hk hm w rest hw ih
    cases h
    obtain ⟨ts, hts, ht⟩ := ih hw
    refine ⟨t :: ts, ?_, .minus hm ht⟩
    have hs := Line.eq_next_append (l := s) (Token.not_isStop_of_isSymbol hm)
    rw [hts] at hs
    exact hs
  | _ => cases h

theorem noSign_of_isStop (h : (next q).1.isStop = true) : NoSign q :=
  ⟨Token.isSymbol_of_isStop h '+', Token.isSymbol_of_isStop h '-'⟩

theorem terms_of_noSign (h : NoSign q) :
    terms labels v q = .ok v (putBack (next q).1 (next q).2) := by
  rw [terms, if_neg (by simp [h.1]), if_neg (by simp [h.2])]

theorem sum_append (h : Sum labels ts v) (q : Line) :
    (sum labels).run (ts ++ q) = terms labels v q := by
  induction h generalizing q with
  | term h =>
    unfold EStateM.run sum
    rw [term_append h]
  | plus _ hp ht ih =>
    rw [Line.append_append, ih, terms_of_plus (by exact hp)]
    simp only [Line.next_cons_append, term_append ht]
  | minus _ hm ht ih =>
    rw [Line.append_append, ih, terms_of_minus (by exact hm)]
    simp only [Line.next_cons_append, term_append ht]

theorem exists_sum_of_terms {front : List Token} (hf : Sum labels front v)
    (h : terms labels v s = .ok w r) :
    ∃ ts q, s = ts ++ q ∧ Sum labels (front ++ ts) w ∧ NoSign q ∧
      r = putBack (next q).1 (next q).2 := by
  fun_induction terms labels v s generalizing front w r with
  | case1 =>
    rename_i v s t hp u rest hu ih
    obtain ⟨us, hus, ht⟩ := exists_term hu
    obtain ⟨ts, q, rfl, hsum, hq, hr⟩ := ih (hf.plus hp ht) h
    refine ⟨t :: us ++ ts, q, ?_, by simpa using hsum, hq, hr⟩
    have hs := Line.eq_next_append (l := s) (Token.not_isStop_of_isSymbol hp)
    rw [hus, ← Line.append_append, ← Line.append_append] at hs
    exact hs
  | case3 =>
    rename_i v s t _ hm u rest hu ih
    obtain ⟨us, hus, ht⟩ := exists_term hu
    obtain ⟨ts, q, rfl, hsum, hq, hr⟩ := ih (hf.minus hm ht) h
    refine ⟨t :: us ++ ts, q, ?_, by simpa using hsum, hq, hr⟩
    have hs := Line.eq_next_append (l := s) (Token.not_isStop_of_isSymbol hm)
    rw [hus, ← Line.append_append, ← Line.append_append] at hs
    exact hs
  | case5 =>
    rename_i v s t hp hm
    cases h
    exact ⟨[], s, rfl, by simpa using hf, ⟨Bool.eq_false_iff.2 hp, Bool.eq_false_iff.2 hm⟩, rfl⟩
  | _ => cases h

/-- The evaluator reads just what is written as an expression, up to where no sign follows. -/
theorem run_sum_eq_ok :
    (sum labels).run s = .ok v r ↔
      ∃ ts q, s = ts ++ q ∧ Sum labels ts v ∧ NoSign q ∧ r = putBack (next q).1 (next q).2 := by
  constructor
  · intro h
    unfold EStateM.run sum at h
    cases ht : term labels s with
    | error e q => rw [ht] at h; cases h
    | ok u q =>
      rw [ht] at h
      obtain ⟨ts, rfl, hts⟩ := exists_term ht
      obtain ⟨us, q', rfl, hsum, hq, hr⟩ := exists_sum_of_terms (.term hts) h
      exact ⟨ts ++ us, q', (Line.append_append ts us q').symm, hsum, hq, hr⟩
  · rintro ⟨ts, q, rfl, hts, hq, rfl⟩
    rw [sum_append hts, terms_of_noSign hq]

section

variable {labels' : String → Option Int} (hle : ∀ l w, labels l = some w → labels' l = some w)

include hle

/-- A term has the same value with fewer labels, as long as its own label is among them. -/
theorem term_iff_of_le : Term labels ts v ↔ Term labels' ts v ∧ Known labels ts := by
  constructor
  · intro h
    induction h with
    | number hk hv => exact ⟨.number hk hv, by simp [Known, hk]⟩
    | label hk hl => exact ⟨.label hk (hle _ _ hl), by simp [Known, hl]⟩
    | minus hm _ ih =>
      refine ⟨.minus hm ih.1, List.forall_mem_cons.2 ⟨fun hk ↦ ?_, ih.2⟩⟩
      simp [Token.isSymbol, hk] at hm
  · rintro ⟨h, hknown⟩
    induction h with
    | number hk hv => exact .number hk hv
    | label hk hl =>
      obtain ⟨w, hw⟩ := Option.isSome_iff_exists.1 (hknown _ List.mem_cons_self hk)
      rw [hle _ _ hw] at hl
      cases hl
      exact .label hk hw
    | minus hm _ ih => exact .minus hm (ih (List.forall_mem_cons.1 hknown).2)

theorem sum_iff_of_le : Sum labels ts v ↔ Sum labels' ts v ∧ Known labels ts := by
  have hsign {t : Token} {c : Char} (ht : t.isSymbol c = true) : t.kind ≠ .identifier := by
    intro hk
    simp [Token.isSymbol, hk] at ht
  constructor
  · intro h
    induction h with
    | term h => exact ⟨.term ((term_iff_of_le hle).1 h).1, ((term_iff_of_le hle).1 h).2⟩
    | plus _ hp ht ih =>
      obtain ⟨ht', hknown⟩ := (term_iff_of_le hle).1 ht
      exact ⟨.plus ih.1 hp ht', List.forall_mem_append.2
        ⟨ih.2, List.forall_mem_cons.2 ⟨fun hk ↦ absurd hk (hsign hp), hknown⟩⟩⟩
    | minus _ hm ht ih =>
      obtain ⟨ht', hknown⟩ := (term_iff_of_le hle).1 ht
      exact ⟨.minus ih.1 hm ht', List.forall_mem_append.2
        ⟨ih.2, List.forall_mem_cons.2 ⟨fun hk ↦ absurd hk (hsign hm), hknown⟩⟩⟩
  · rintro ⟨h, hknown⟩
    induction h with
    | term h => exact .term ((term_iff_of_le hle).2 ⟨h, hknown⟩)
    | plus _ hp ht ih =>
      obtain ⟨hfront, hbehind⟩ := List.forall_mem_append.1 hknown
      exact .plus (ih hfront) hp
        ((term_iff_of_le hle).2 ⟨ht, (List.forall_mem_cons.1 hbehind).2⟩)
    | minus _ hm ht ih =>
      obtain ⟨hfront, hbehind⟩ := List.forall_mem_append.1 hknown
      exact .minus (ih hfront) hm
        ((term_iff_of_le hle).2 ⟨ht, (List.forall_mem_cons.1 hbehind).2⟩)

end

end Expr

namespace Operand

open TokenSource Asm65816.Expr

/-- Where the final pass reads an expression up to the end of an operand, the first pass with fewer
labels goes on behind the same tokens. It reads the same value if it has all labels of the
expression, and zero if it lacks one. -/
theorem run_evaluate_first_eq_ite {site site' : Site} {labels labels' : String → Option Int}
    {s r : Line} {v : Int} (hle : ∀ l w, labels l = some w → labels' l = some w)
    (hp : site.pass = .first) (hp' : site'.pass = .final)
    (h : (evaluate site' (sum labels')).run s = .ok v r) (he : ends (next r).1 = true) :
    ∃ ts q, s = ts ++ q ∧ Sum labels' ts v ∧ NoSign q ∧ r = putBack (next q).1 (next q).2 ∧
      (evaluate site (sum labels)).run s = .ok (if Known labels ts then v else 0) r := by
  rcases run_evaluate_first_of_final hle hp hp' h he with ⟨hs, hv⟩ | ⟨⟨l, q', hs⟩, hv⟩
  · obtain ⟨ts, q, rfl, hts, hq, rfl⟩ := run_sum_eq_ok.1 hs
    obtain ⟨hts', hknown⟩ := (sum_iff_of_le hle).1 hts
    exact ⟨ts, q, rfl, hts', hq, rfl, by rw [if_pos hknown, hv]⟩
  · obtain ⟨ts, q, rfl, hts, hq, rfl⟩ :=
      run_sum_eq_ok.1 ((run_evaluate_eq_ok_final hp').1 h)
    have hknown : ¬Known labels ts := by
      intro hknown
      have hok := run_sum_eq_ok.2 ⟨ts, q, rfl, (sum_iff_of_le hle).2 ⟨hts, hknown⟩, hq, rfl⟩
      rw [hs] at hok
      cases hok
    exact ⟨ts, q, rfl, hts, hq, rfl, by rw [if_neg hknown, hv]⟩

/-- `-later+1),y`, when the label has not been met. -/
theorem run_evaluate_first_negated :
    let r : Line := ⟨[⟨.symbol, ")", 13⟩, ⟨.symbol, ",", 14⟩, ⟨.identifier, "y", 15⟩], 16⟩
    let s : Line := ([⟨.symbol, "-", 5⟩, ⟨.identifier, "later", 6⟩, ⟨.symbol, "+", 11⟩,
      ⟨.number, "1", 12⟩] : List Token) ++ r
    ∃ ts q, s = ts ++ q ∧ Sum (fun _ ↦ some 0x40) ts (-0x3F) ∧ NoSign q ∧
      r = putBack (next q).1 (next q).2 ∧
      (evaluate (.ofAddress .first 0x8000) (sum fun _ ↦ none)).run s =
        .ok (if Known (fun _ ↦ none) ts then -0x3F else 0) r := by
  intro r s
  have hlater : Sum (fun _ ↦ some 0x40) [⟨.symbol, "-", 5⟩, ⟨.identifier, "later", 6⟩] (-0x40) :=
    .term (.minus rfl (.label rfl rfl))
  have hone : Term (fun _ ↦ some 0x40) [⟨.number, "1", 12⟩] 1 :=
    .number rfl (by decide +kernel)
  have hsum := hlater.plus (t := ⟨.symbol, "+", 11⟩) rfl hone
  have hr : NoSign r := ⟨by decide +kernel, by decide +kernel⟩
  have hfinal : (evaluate (.ofAddress .final 0x8000) (sum fun _ ↦ some 0x40)).run s =
      .ok (-0x3F) r :=
    (run_evaluate_eq_ok_final rfl).2 (run_sum_eq_ok.2 ⟨_, r, rfl, hsum, hr, rfl⟩)
  exact run_evaluate_first_eq_ite (by simp) rfl rfl hfinal (by decide +kernel)

end Operand

end Asm65816
