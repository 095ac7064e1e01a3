import Asm65816.Proofs.Expr

namespace Asm65816

namespace Expr

open TokenSource Operand

def word? (labels : String → Option Int) (t : Token) : Option Int :=
  match t.kind with
  | .number => Numeral.value? t.text.toList
  | .identifier => labels t.text
  | .symbol | .endOfLine => none

def Fault.ofWord (t : Token) : Fault :=
  if t.kind = .identifier then .undefined t.text else .malformed t

structure Addend where
  signs : List Token
  word : Token
  isMinus : ∀ t ∈ signs, t.isSymbol '-' = true
  isWord : word.kind = .number ∨ word.kind = .identifier

structure Summand extends Addend where
  sign : Token
  isSign : sign.isSymbol '+' = true ∨ sign.isSymbol '-' = true

inductive Series
  | term (a : Addend)
  | more (x : Series) (y : Summand)

def turned (signs : List Token) (v : Int) : Int := signs.foldr (fun _ w ↦ -w) v

namespace Addend

def tokens (a : Addend) : List Token := a.signs ++ [a.word]

def value? (labels : String → Option Int) (a : Addend) : Option Int :=
  (word? labels a.word).map (turned a.signs)

end Addend

namespace Summand

def tokens (y : Summand) : List Token := y.sign :: y.toAddend.tokens

def value? (labels : String → Option Int) (y : Summand) : Option Int :=
  (y.toAddend.value? labels).map fun v ↦ if y.sign.isSymbol '-' then -v else v

end Summand

namespace Series

def tokens : Series → List Token
  | term a => a.tokens
  | more x y => x.tokens ++ y.tokens

def value? (labels : String → Option Int) : Series → Option Int
  | term a => a.value? labels
  | more x y => (x.value? labels).bind fun v ↦ (y.value? labels).map (v + ·)

end Series

/-- The tokens lead up to the word of a term: minus signs, and in front of them a sign behind an
expression that has a value, or nothing. -/
inductive Leads (labels : String → Option Int) : List Token → Prop
  | first {signs : List Token} : (∀ t ∈ signs, t.isSymbol '-' = true) → Leads labels signs
  | behind {x : Series} {v : Int} {t : Token} {signs : List Token} :
    x.value? labels = some v → t.isSymbol '+' = true ∨ t.isSymbol '-' = true →
      (∀ u ∈ signs, u.isSymbol '-' = true) → Leads labels (x.tokens ++ t :: signs)

/-- A line fails at a word that counts for nothing and has been led up to. That word is read, and
nothing behind it. -/
inductive Fails (labels : String → Option Int) : Line → Fault → Line → Prop
  | word {front : List Token} {q : Line} :
    Leads labels front → (next q).1.isSymbol '-' = false → word? labels (next q).1 = none →
      Fails labels (front ++ q) (.ofWord (next q).1) (next q).2

section

variable {labels : String → Option Int} {x : Series} {t : Token} {c : Char}
variable {ts signs : List Token} {v w : Int} {f : Fault} {q r s : Line}

theorem Series.kind_of_mem (h : t ∈ x.tokens) :
    t.isSymbol '+' = true ∨ t.isSymbol '-' = true ∨ t.kind = .number ∨ t.kind = .identifier := by
  have haddend {a : Addend} (ha : t ∈ a.tokens) :
      t.isSymbol '-' = true ∨ t.kind = .number ∨ t.kind = .identifier := by
    rcases List.mem_append.1 ha with hs | hw
    · exact .inl (a.isMinus t hs)
    · rw [List.mem_singleton.1 hw]
      exact .inr a.isWord
  induction x with
  | term a => exact .inr (haddend h)
  | more x y ih =>
    rcases List.mem_append.1 h with hx | hy
    · exact ih hx
    · rcases List.mem_cons.1 hy with rfl | ha
      · exact y.isSign.imp_right .inl
      · exact .inr (haddend ha)

theorem Series.not_isStop (h : t ∈ x.tokens) : t.isStop = false := by
  rcases Series.kind_of_mem h with hs | hs | hk | hk
  · exact Token.not_isStop_of_isSymbol hs
  · exact Token.not_isStop_of_isSymbol hs
  · simp [Token.isStop, hk]
  · simp [Token.isStop, hk]

theorem Series.not_isSymbol (h : t ∈ x.tokens) (hp : c ≠ '+') (hm : c ≠ '-') :
    t.isSymbol c = false := by
  rcases Series.kind_of_mem h with hs | hs | hk | hk
  · exact Token.isSymbol_of_ne hs hp.symm
  · exact Token.isSymbol_of_ne hs hm.symm
  · exact Token.isSymbol_of_kind (by simp [hk]) c
  · exact Token.isSymbol_of_kind (by simp [hk]) c

theorem Series.exists_cons (x : Series) : ∃ t ts, x.tokens = t :: ts := by
  refine List.exists_cons_of_ne_nil ?_
  induction x with
  | term a => simp [Series.tokens, Addend.tokens]
  | more x y _ => simp [Series.tokens, Summand.tokens]

theorem word?_of_number (hk : t.kind = .number) :
    word? labels t = Numeral.value? t.text.toList := by
  unfold word?
  rw [hk]

theorem word?_of_identifier (hk : t.kind = .identifier) : word? labels t = labels t.text := by
  unfold word?
  rw [hk]

theorem kind_of_word? (h : word? labels t = some v) : t.kind = .number ∨ t.kind = .identifier := by
  cases hk : t.kind with
  | number => exact .inl rfl
  | identifier => exact .inr rfl
  | symbol => simp [word?, hk] at h
  | endOfLine => simp [word?, hk] at h

theorem ofWord_of_ne (hk : t.kind ≠ .identifier) : Fault.ofWord t = .malformed t := if_neg hk

theorem ofWord_of_identifier (hk : t.kind = .identifier) :
    Fault.ofWord t = .undefined t.text := if_pos hk

theorem turned_cons (t : Token) (signs : List Token) (v : Int) :
    turned (t :: signs) v = -turned signs v := List.foldr_cons ..

theorem Term.of_word (h : word? labels t = some v) : Term labels [t] v := by
  rcases kind_of_word? h with hk | hk
  · rw [word?_of_number hk] at h
    exact .number hk h
  · rw [word?_of_identifier hk] at h
    exact .label hk h

theorem Term.of_signs (hs : ∀ u ∈ signs, u.isSymbol '-' = true) (h : Term labels ts v) :
    Term labels (signs ++ ts) (turned signs v) := by
  induction signs with
  | nil => exact h
  | cons u signs ih =>
    obtain ⟨hu, hs⟩ := List.forall_mem_cons.1 hs
    rw [turned_cons]
    exact .minus hu (ih hs)

theorem Addend.term_of_value? {a : Addend} (h : a.value? labels = some v) :
    Term labels a.tokens v := by
  obtain ⟨w, hw, rfl⟩ := Option.map_eq_some_iff.1 h
  exact .of_signs a.isMinus (.of_word hw)

theorem Term.exists_addend (h : Term labels ts v) :
    ∃ a : Addend, a.tokens = ts ∧ a.value? labels = some v := by
  induction h with
  | @number t v hk hv =>
    refine ⟨⟨[], t, by simp, .inl hk⟩, rfl, ?_⟩
    simp [Addend.value?, word?_of_number hk, hv, turned]
  | @label t v hk hl =>
    refine ⟨⟨[], t, by simp, .inr hk⟩, rfl, ?_⟩
    simp [Addend.value?, word?_of_identifier hk, hl, turned]
  | @minus u us v hu _ ih =>
    obtain ⟨a, rfl, ha⟩ := ih
    obtain ⟨w, hw, rfl⟩ := Option.map_eq_some_iff.1 ha
    refine ⟨⟨u :: a.signs, a.word, List.forall_mem_cons.2 ⟨hu, a.isMinus⟩, a.isWord⟩, rfl, ?_⟩
    simp [Addend.value?, hw, turned_cons]

theorem Sum.of_summand {y : Summand} (h : Sum labels ts v) (hy : y.value? labels = some w) :
    Sum labels (ts ++ y.tokens) (v + w) := by
  obtain ⟨u, hu, rfl⟩ := Option.map_eq_some_iff.1 hy
  have hterm := Addend.term_of_value? hu
  by_cases hm : y.sign.isSymbol '-' = true
  · rw [if_pos hm]
    exact h.minus hm hterm
  · rw [if_neg hm]
    exact h.plus (y.isSign.resolve_right hm) hterm

theorem Series.sum_of_value? (h : x.value? labels = some v) :
    Sum labels x.tokens v := by
  induction x generalizing v with
  | term a => exact .term (Addend.term_of_value? h)
  | more x y ih =>
    obtain ⟨u, hu, hy⟩ := Option.bind_eq_some_iff.1 h
    obtain ⟨w, hw, rfl⟩ := Option.map_eq_some_iff.1 hy
    exact (ih hu).of_summand hw

theorem Sum.exists_series (h : Sum labels ts v) :
    ∃ x : Series, x.tokens = ts ∧ x.value? labels = some v := by
  induction h with
  | term h =>
    obtain ⟨a, ha, hv⟩ := h.exists_addend
    exact ⟨.term a, ha, hv⟩
  | @plus t ts us v w _ hp hu ih =>
    obtain ⟨x, rfl, hx⟩ := ih
    obtain ⟨a, rfl, ha⟩ := hu.exists_addend
    have hm : t.isSymbol '-' = false := Token.isSymbol_of_ne hp (by decide)
    refine ⟨.more x ⟨a, t, .inl hp⟩, rfl, ?_⟩
    simp [Series.value?, Summand.value?, hx, ha, hm]
  | @minus t ts us v w _ hm hu ih =>
    obtain ⟨x, rfl, hx⟩ := ih
    obtain ⟨a, rfl, ha⟩ := hu.exists_addend
    refine ⟨.more x ⟨a, t, .inr hm⟩, rfl, ?_⟩
    simp [Series.value?, Summand.value?, hx, ha, hm, Int.sub_eq_add_neg]

theorem term_of_word_none (hn : (next q).1.isSymbol '-' = false)
    (hw : word? labels (next q).1 = none) :
    term labels q = .error (.ofWord (next q).1) (next q).2 := by
  by_cases hi : (next q).1.kind = .identifier
  · rw [word?_of_identifier hi] at hw
    rw [term_of_identifier hi, hw, ofWord_of_identifier hi]
  · rw [ofWord_of_ne hi]
    by_cases hk : (next q).1.kind = .number
    · rw [word?_of_number hk] at hw
      rw [term_of_number hk, hw]
    · exact term_of_stray hk hi hn

theorem term_of_signs (hs : ∀ u ∈ signs, u.isSymbol '-' = true)
    (h : term labels q = .error f r) : term labels (signs ++ q) = .error f r := by
  induction signs with
  | nil => exact h
  | cons u signs ih =>
    obtain ⟨hu, hs⟩ := List.forall_mem_cons.1 hs
    rw [term_of_minus (by exact hu), Line.next_cons_append, ih hs]

theorem word_of_term_error (hn : (next s).1.isSymbol '-' = false)
    (h : term labels s = .error f r) :
    word? labels (next s).1 = none ∧ f = .ofWord (next s).1 ∧ r = (next s).2 := by
  cases hw : word? labels (next s).1 with
  | none =>
    rw [term_of_word_none hn hw] at h
    cases h
    exact ⟨rfl, rfl, rfl⟩
  | some v =>
    have hstop : (next s).1.isStop = false := by
      rcases kind_of_word? hw with hk | hk <;> simp [Token.isStop, hk]
    rw [Line.eq_next_append hstop, term_append (.of_word hw)] at h
    cases h

theorem exists_of_term_error (h : term labels s = .error f r) :
    ∃ (signs : List Token) (q : Line), s = signs ++ q ∧ (∀ u ∈ signs, u.isSymbol '-' = true) ∧
      (next q).1.isSymbol '-' = false ∧ word? labels (next q).1 = none ∧
      f = .ofWord (next q).1 ∧ r = (next q).2 := by
  obtain ⟨tokens, stop⟩ := s
  induction tokens with
  | nil => exact ⟨[], ⟨[], stop⟩, rfl, by simp, rfl, word_of_term_error rfl h⟩
  | cons t ts ih =>
    by_cases hm : t.isSymbol '-' = true
    · rw [term_of_minus (by exact hm)] at h
      generalize hterm : term labels (next (⟨t :: ts, stop⟩ : Line)).2 = x at h
      cases x with
      | ok v q => cases h
      | error e q =>
        cases h
        obtain ⟨signs, q, hq, hs, hrest⟩ := ih hterm
        refine ⟨t :: signs, q, ?_, List.forall_mem_cons.2 ⟨hm, hs⟩, hrest⟩
        exact congrArg (fun l : Line ↦ ([t] ++ l : Line)) hq
    · have hn : t.isSymbol '-' = false := Bool.eq_false_iff.2 hm
      exact ⟨[], ⟨t :: ts, stop⟩, rfl, by simp, hn, word_of_term_error hn h⟩

theorem not_isStop_of_sign (h : t.isSymbol '+' = true ∨ t.isSymbol '-' = true) :
    t.isStop = false := h.elim Token.not_isStop_of_isSymbol Token.not_isStop_of_isSymbol

theorem terms_of_term_error (hs : t.isSymbol '+' = true ∨ t.isSymbol '-' = true)
    (h : term labels q = .error f r) : terms labels v ([t] ++ q) = .error f r := by
  by_cases hp : t.isSymbol '+' = true
  · rw [terms_of_plus (by exact hp), Line.next_cons_append, Line.nil_append, h]
  · rw [terms_of_minus (by exact hs.resolve_left hp), Line.next_cons_append, Line.nil_append, h]

theorem exists_more (hx : x.value? labels = some v)
    (hs : (next s).1.isSymbol '+' = true ∨ (next s).1.isSymbol '-' = true)
    (h : term labels (next s).2 = .ok w r) :
    ∃ y : Series, y.value? labels = some (if (next s).1.isSymbol '-' then v - w else v + w) ∧
      x.tokens ++ s = y.tokens ++ r := by
  obtain ⟨ts, hts, hterm⟩ := exists_term h
  obtain ⟨a, rfl, ha⟩ := hterm.exists_addend
  have hline : s = (next s).1 :: a.tokens ++ r :=
    (Line.eq_next_append (not_isStop_of_sign hs)).trans
      (congrArg (fun l : Line ↦ ([(next s).1] ++ l : Line)) hts)
  refine ⟨x.more ⟨a, (next s).1, hs⟩, ?_, ?_⟩
  · cases hm : (next s).1.isSymbol '-' <;>
      simp [Series.value?, Summand.value?, hx, ha, hm, Int.sub_eq_add_neg]
  · rw [Series.tokens, Line.append_append]
    exact congrArg (fun l : Line ↦ (x.tokens ++ l : Line)) hline

theorem fails_of_term_error (hx : x.value? labels = some v)
    (hs : (next s).1.isSymbol '+' = true ∨ (next s).1.isSymbol '-' = true)
    (h : term labels (next s).2 = .error f r) : Fails labels (x.tokens ++ s) f r := by
  obtain ⟨signs, q, hq, hsigns, hn, hw, rfl, rfl⟩ := exists_of_term_error h
  have hline : s = (next s).1 :: signs ++ q :=
    (Line.eq_next_append (not_isStop_of_sign hs)).trans
      (congrArg (fun l : Line ↦ ([(next s).1] ++ l : Line)) hq)
  rw [hline, ← Line.append_append]
  exact .word (.behind hx hs hsigns) hn hw

theorem fails_of_terms_error (hx : x.value? labels = some v)
    (h : terms labels v s = .error f r) : Fails labels (x.tokens ++ s) f r := by
  fun_induction terms labels v s generalizing x f r with
  | case1 =>
    rename_i v s t hp u rest hu ih
    have hm : t.isSymbol '-' = false := Token.isSymbol_of_ne hp (by decide)
    obtain ⟨y, hy, hline⟩ := exists_more hx (.inl hp) hu
    rw [if_neg (Bool.eq_false_iff.1 hm)] at hy
    rw [hline]
    exact ih hy h
  | case2 =>
    rename_i v s t hp e rest he
    cases h
    exact fails_of_term_error hx (.inl hp) he
  | case3 =>
    rename_i v s t _ hm u rest hu ih
    obtain ⟨y, hy, hline⟩ := exists_more hx (.inr hm) hu
    rw [if_pos hm] at hy
    rw [hline]
    exact ih hy h
  | case4 =>
    rename_i v s t _ hm e rest he
    cases h
    exact fails_of_term_error hx (.inr hm) he
  | case5 => cases h

theorem fails_of_run_sum (h : (sum labels).run s = .error f r) : Fails labels s f r := by
  unfold EStateM.run sum at h
  cases hterm : term labels s with
  | error e q =>
    rw [hterm] at h
    cases h
    obtain ⟨signs, q, rfl, hs, hn, hw, rfl, rfl⟩ := exists_of_term_error hterm
    exact .word (.first hs) hn hw
  | ok v q =>
    rw [hterm] at h
    obtain ⟨ts, rfl, hts⟩ := exists_term hterm
    obtain ⟨a, rfl, ha⟩ := hts.exists_addend
    exact fails_of_terms_error (x := .term a) ha h

theorem run_sum_of_fails (h : Fails labels s f r) : (sum labels).run s = .error f r := by
  cases h with
  | @word front q hlead hn hw =>
    have hterm := term_of_word_none hn hw
    cases hlead with
    | first hs =>
      unfold EStateM.run sum
      rw [term_of_signs hs hterm]
    | behind hx ht hs =>
      rw [Line.append_append, sum_append (Series.sum_of_value? hx)]
      exact terms_of_term_error ht (term_of_signs hs hterm)

/-- An expression without a value has a first word that counts for nothing. -/
theorem Series.exists_leads (h : x.value? labels = none) :
    ∃ (front : List Token) (t : Token) (rest : List Token), x.tokens = front ++ t :: rest ∧
      Leads labels front ∧ t.isSymbol '-' = false ∧ word? labels t = none := by
  have hword (a : Addend) : a.word.isSymbol '-' = false := by
    refine Token.isSymbol_of_kind ?_ _
    rcases a.isWord with hk | hk <;> simp [hk]
  induction x with
  | term a =>
    exact ⟨a.signs, a.word, [], rfl, .first a.isMinus, hword a, Option.map_eq_none_iff.1 h⟩
  | more x y ih =>
    cases hx : x.value? labels with
    | none =>
      obtain ⟨front, t, rest, htokens, hlead, ht⟩ := ih hx
      exact ⟨front, t, rest ++ y.tokens, by simp [Series.tokens, htokens], hlead, ht⟩
    | some v =>
      have hy : y.value? labels = none := by simpa [Series.value?, hx] using h
      have hw : word? labels y.word = none := by
        simpa [Summand.value?, Addend.value?] using hy
      refine ⟨x.tokens ++ y.sign :: y.signs, y.word, [], ?_, .behind hx y.isSign y.isMinus,
        hword y.toAddend, hw⟩
      simp [Series.tokens, Summand.tokens, Addend.tokens]

/-- The evaluator stops behind that word. -/
theorem Series.exists_run_sum_eq_error (h : x.value? labels = none) :
    ∃ (front : List Token) (t : Token) (rest : List Token), x.tokens = front ++ t :: rest ∧
      Leads labels front ∧ word? labels t = none ∧
      ∀ q : Line, (sum labels).run (x.tokens ++ q) = .error (.ofWord t) (rest ++ q) := by
  obtain ⟨front, t, rest, htokens, hlead, hn, hw⟩ := Series.exists_leads h
  refine ⟨front, t, rest, htokens, hlead, hw, fun q ↦ run_sum_of_fails ?_⟩
  rw [htokens, Line.append_append]
  exact .word (q := t :: rest ++ q) hlead hn hw

theorem run_sum_eq_ok_iff_series : (sum labels).run s = .ok v r ↔
    ∃ (x : Series) (q : Line), s = x.tokens ++ q ∧ x.value? labels = some v ∧ NoSign q ∧
      r = putBack (next q).1 (next q).2 := by
  rw [run_sum_eq_ok]
  constructor
  · intro h
    obtain ⟨ts, q, hs, hts, hq⟩ := h
    obtain ⟨x, rfl, hx⟩ := hts.exists_series
    exact ⟨x, q, hs, hx, hq⟩
  · intro h
    obtain ⟨x, q, hs, hx, hq⟩ := h
    exact ⟨x.tokens, q, hs, x.sum_of_value? hx, hq⟩

/-- The evaluator gives the sum of the terms where each of them has a value, and puts back what
comes behind them. Where it fails, it fails at the first word that counts for nothing, and nothing
behind that word is read. An expression without a value has such a word. -/
theorem run_sum_iff (labels : String → Option Int) (s : Line) :
    (∀ v r, (sum labels).run s = .ok v r ↔
      ∃ (x : Series) (q : Line), s = x.tokens ++ q ∧ x.value? labels = some v ∧ NoSign q ∧
        r = putBack (next q).1 (next q).2) ∧
    (∀ f r, (sum labels).run s = .error f r ↔ Fails labels s f r) ∧
    ∀ x : Series, x.value? labels = none →
      ∃ (front : List Token) (t : Token) (rest : List Token), x.tokens = front ++ t :: rest ∧
        Leads labels front ∧ word? labels t = none ∧
        ∀ q : Line, (sum labels).run (x.tokens ++ q) = .error (.ofWord t) (rest ++ q) :=
  ⟨fun _ _ ↦ run_sum_eq_ok_iff_series, fun _ _ ↦ ⟨fails_of_run_sum, run_sum_of_fails⟩,
    fun _ hx ↦ Series.exists_run_sum_eq_error hx⟩

end

end Expr

end Asm65816
