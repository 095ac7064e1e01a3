import Asm65816.Proofs.Operand.Reading

namespace Asm65816.Operand

open TokenSource Grammar

def sized (mark : Option Mark) (width : Option Width) : Int → Sized :=
  mark.elim (fun v ↦ ⟨v, width⟩) Prod.snd

variable {σ : Type} [TokenSource σ]

inductive Suffixed (s : σ) : Option Width → σ → Prop
  | bare : (next s).1.isSymbol '.' = false → Suffixed s none s
  | suffix {w : Width} :
    (next s).1.isSymbol '.' = true → (next (next s).2).1.kind = .identifier →
      Width.ofSuffix? (next (next s).2).1.text = some w →
      Suffixed s (some w) (next (next s).2).2

inductive Opened (x : Opening) (s : σ) : σ → Prop
  | bare :
    x.front = [] → (∀ c ∈ x.others, (next s).1.isSymbol c = false) → (next s).1.isStop = false →
      Opened x s s
  | symbol {c : Char} :
    x.front = [.symbol c] → (next s).1.isSymbol c = true → (next (next s).2).1.isStop = false →
      Opened x s (next s).2

inductive Marked (marks : List Mark) (s : σ) : Option Mark → σ → Prop
  | bare :
    (∀ m ∈ marks, (next s).1.isSymbol m.1 = false) →
      Marked marks s none (putBack (next s).1 (next s).2)
  | mark {m : Mark} :
    m ∈ marks → (next s).1.isSymbol m.1 = true → Marked marks s (some m) (next s).2

/-- What stands behind a mnemonic is a suffix or none, an expression in some form with a mark in
front of it or none, and nothing more. -/
structure Phrase (site : Site) (eval : Expr.Evaluator σ) (base : Mode) (s : σ)
    (suffix : Option Width) (f : Form) (mark : Option Mark) (v : Int) : Prop where
  allowed : f.Allowed base
  reads : ∃ p q r u, Suffixed s suffix p ∧ Opened f.opening p q ∧
    Marked f.opening.marks q mark r ∧ (evaluate site eval).run r = .ok v u ∧ Trails f.behind u

section

variable {base : Mode} {width suffix : Option Width} {w : Option Width} {t : Token} {f : Form}
variable {x : Opening} {l : Lead σ} {mark : Option Mark} {marks : List Mark} {s p q r : σ}
variable {lead : Option Width → Token → σ → Lead σ}

theorem Suffixed.unique (h : Suffixed s suffix p) (h' : Suffixed s suffix q) : p = q := by
  cases h with
  | bare _ =>
    cases h' with
    | bare _ => rfl
  | suffix _ _ _ =>
    cases h' with
    | suffix _ _ _ => rfl

theorem Suffixed.run_suffix (h : Suffixed s suffix p) :
    (Grammar.suffix width).run s = .ok (suffix.or width, (next p).1) (next p).2 := by
  cases h with
  | bare hd => exact run_suffix_eq_ok.2 (.inl ⟨hd, rfl, rfl, rfl⟩)
  | suffix hd hk hw => exact run_suffix_eq_ok.2 (.inr ⟨hd, hk, ⟨_, hw, rfl⟩, rfl, rfl⟩)

theorem exists_suffixed (h : (Grammar.suffix width).run s = .ok (w, t) q) :
    ∃ suffix p, Suffixed s suffix p ∧ w = suffix.or width ∧ t = (next p).1 ∧ q = (next p).2 := by
  rcases run_suffix_eq_ok.1 h with ⟨hd, rfl, rfl, rfl⟩ | ⟨hd, hk, ⟨v, hv, rfl⟩, rfl, rfl⟩
  · exact ⟨none, s, .bare hd, rfl, rfl, rfl⟩
  · exact ⟨some v, _, .suffix hd hk hv, rfl, rfl, rfl⟩

theorem Opened.ofToken? (hf : f.Allowed base) (h : Opened f.opening p q) :
    Opening.ofToken? base (next p).1 = some f.opening := by
  cases h with
  | bare hfront hn _ => exact Form.ofToken?_of_others hf hfront hn
  | symbol hfront ht _ => exact Form.ofToken?_of_symbol hf hfront ht

theorem exists_opened_of_symbol {c : Char} {g : Lead σ} (hx : x.front = [.symbol c])
    (ht : (next p).1.isSymbol c = true)
    (hl : (if (next (next p).2).1.isStop then none else some g) = some l) :
    ∃ q, Opened x p q := by
  split at hl
  · cases hl
  · next hs => exact ⟨_, .symbol hx ht (Bool.eq_false_iff.2 hs)⟩

theorem exists_opened_of_branch {b : Branch}
    (hx : some (if (next p).1.isSymbol '#' then Opening.distance b else .target b) = some x)
    (hl : x.lead? width (next p).1 (next p).2 = some l) (hp : (next p).1.isStop = false) :
    ∃ q, Opened x p q := by
  split at hx
  · next ht =>
    cases hx
    exact exists_opened_of_symbol rfl ht hl
  · next ht =>
    cases hx
    exact ⟨p, .bare rfl (by simpa [Opening.others] using ht) hp⟩

theorem exists_opened (hx : Opening.ofToken? base (next p).1 = some x)
    (hl : x.lead? width (next p).1 (next p).2 = some l) (hp : (next p).1.isStop = false) :
    ∃ q, Opened x p q := by
  by_cases hb : base = .relative ∨ base = .relativeLong ∨ base = .blockMove
  · rcases hb with rfl | rfl | rfl
    · exact exists_opened_of_branch hx hl hp
    · exact exists_opened_of_branch hx hl hp
    · cases hx
  · simp only [not_or] at hb
    rw [ofToken?_of_ne hb.1 hb.2.1 hb.2.2] at hx
    split at hx
    · next ht =>
      cases hx
      exact exists_opened_of_symbol rfl ht hl
    · next hi =>
      split at hx
      · next ht =>
        cases hx
        exact exists_opened_of_symbol rfl ht hl
      · next hr =>
        split at hx
        · next ht =>
          cases hx
          exact exists_opened_of_symbol rfl ht hl
        · next hs =>
          cases hx
          exact ⟨p, .bare rfl (by simp [Opening.others, hi, hr, hs]) hp⟩

theorem Heeds.lead_eq (h : Heeds marks lead) (hm : Marked marks q mark r) :
    lead width (next q).1 (next q).2 = ⟨r, sized mark width⟩ := by
  cases hm with
  | bare hn => exact h.bare hn
  | mark hm ht => exact h.marked hm ht

theorem exists_marked (marks : List Mark) (q : σ) : ∃ mark r, Marked marks q mark r := by
  by_cases hm : ∃ m ∈ marks, (next q).1.isSymbol m.1 = true
  · obtain ⟨m, hm, ht⟩ := hm
    exact ⟨some m, _, .mark hm ht⟩
  · exact ⟨none, _, .bare (by simpa using hm)⟩

theorem Opened.lead?_eq (h : Opened x p q) (hm : Marked x.marks q mark r) :
    x.lead? width (next p).1 (next p).2 = some ⟨r, sized mark width⟩ := by
  cases h with
  | bare hfront _ _ =>
    cases x <;> cases hfront
    · exact congrArg some (heeds_constantMarks.lead_eq hm)
    · exact congrArg some (heeds_addressMarks.lead_eq hm)
  | symbol hfront _ hs =>
    cases x <;> cases hfront <;> refine (if_neg (Bool.eq_false_iff.1 hs)).trans (congrArg some ?_)
    · exact heeds_constantMarks.lead_eq hm
    · exact heeds_constantMarks.lead_eq hm
    · exact heeds_addressMarks.lead_eq hm
    · exact heeds_addressMarks.lead_eq hm

theorem run_value_of_isStop {site : Site} {eval : Expr.Evaluator σ} (hx : x.front ≠ [])
    (hs : (next s).1.isStop = true) :
    (x.value site eval width t).run s = .error (.unexpected (next s).1) (next s).2 := by
  cases x with
  | target b => exact absurd rfl hx
  | bare => exact absurd rfl hx
  | _ => exact run_bind_eq_error.2 (.inl (run_present_of_isStop hs))

theorem Opened.not_isStop (h : Opened x p q) : (next p).1.isStop = false := by
  cases h with
  | bare _ _ hp => exact hp
  | symbol _ ht _ => exact Token.not_isStop_of_isSymbol ht

end

section

variable [LawfulTokenSource σ] {site : Site} {eval : Expr.Evaluator σ} {memory : UInt32 → UInt8}
variable {base : Mode} {width suffix : Option Width} {f : Form} {mark : Option Mark} {v : Int}
variable {o : Operand} {s r : σ}

theorem Phrase.exists_parts (h : Phrase site eval base s suffix f mark v) (width : Option Width) :
    ∃ t q p r, (Grammar.suffix width).run s = .ok (suffix.or width, t) q ∧ t.isStop = false ∧
      Opening.ofToken? base t = some f.opening ∧
      (f.opening.value site eval (suffix.or width) t).run q =
        .ok (sized mark (suffix.or width) v) p ∧
      f.opening.closing.run p = .ok f r ∧ (next r).1.isStop = true := by
  obtain ⟨p, q, r, u, hs, hx, hm, hv, hu⟩ := h.reads
  obtain ⟨c, hc, hstop⟩ := closing_of_trails hu
  exact ⟨_, _, u, c, hs.run_suffix, hx.not_isStop, hx.ofToken? h.allowed,
    run_value_eq_ok.2 ⟨_, v, hx.lead?_eq hm, hv, rfl⟩, hc, hstop⟩

theorem Phrase.exists_run_parse_of_settle (h : Phrase site eval base s suffix f mark v)
    (ho : f.settle site memory base (sized mark (suffix.or width) v) = .ok o) :
    ∃ r, (parse site eval memory base width).run s = .ok o r := by
  obtain ⟨t, q, p, r, hs, ht, hx, hz, hc, hr⟩ := h.exists_parts width
  have hb : (body site eval memory base (suffix.or width) t).run q = .ok o r :=
    (run_body_eq_ok hx).2 ⟨_, p, f, hz, hc, ho⟩
  exact ⟨_, run_parse_eq_ok.2 ⟨_, t, q, hs, .inr ⟨ht, r, hb, run_endOfLine_eq_ok.2 ⟨hr, rfl⟩⟩⟩⟩

theorem Phrase.exists_run_parse_of_settle_error {e : Fault}
    (h : Phrase site eval base s suffix f mark v)
    (he : f.settle site memory base (sized mark (suffix.or width) v) = .error e) :
    ∃ r, (parse site eval memory base width).run s = .error e r := by
  obtain ⟨t, q, p, r, hs, ht, hx, hz, hc, -⟩ := h.exists_parts width
  obtain ⟨r', hb⟩ := run_body_of_settle_error hx hz hc he
  exact ⟨r', run_parse_of_body_error hs ht hb⟩

theorem Phrase.settle_of_run_parse (h : Phrase site eval base s suffix f mark v)
    (ho : (parse site eval memory base width).run s = .ok o r) :
    f.settle site memory base (sized mark (suffix.or width) v) = .ok o := by
  cases hf : f.settle site memory base (sized mark (suffix.or width) v) with
  | ok o' =>
    obtain ⟨r', hr⟩ := h.exists_run_parse_of_settle hf
    rw [ho] at hr
    cases hr
    rfl
  | error e =>
    obtain ⟨r', hr⟩ := h.exists_run_parse_of_settle_error hf
    rw [ho] at hr
    cases hr

theorem Phrase.of_word {labels : String → Option Int} {t : Token} {stop : UInt32}
    (hb : Form.plain.Allowed base) (hk : t.kind ≠ .symbol) (hstop : t.isStop = false)
    (hv : Expr.Term labels [t] v) :
    Phrase site (Expr.sum labels) base (⟨[t], stop⟩ : Line) none .plain none v := by
  have hc (c : Char) : t.isSymbol c = false := Token.isSymbol_of_kind hk c
  have hsum : (Expr.sum labels).run (⟨[t], stop⟩ : Line) = .ok v ⟨[.stop stop], stop⟩ :=
    Expr.run_sum_eq_ok.2 ⟨[t], ⟨[], stop⟩, rfl, .term hv, ⟨rfl, rfl⟩, rfl⟩
  exact ⟨hb, _, _, _, _, .bare (hc '.'), .bare rfl (fun c _ ↦ hc c) hstop,
    .bare fun m _ ↦ hc m.1, run_evaluate_of_ok hsum, rfl⟩

theorem exists_phrase_of_opening {x : Opening} {p : σ} (hs : Suffixed s suffix p)
    (hp : (next p).1.isStop = false) (hx : Opening.ofToken? base (next p).1 = some x)
    (h : (parse site eval memory base width).run s = .ok o r) :
    ∃ f mark v, Phrase site eval base s suffix f mark v ∧
      f.settle site memory base (sized mark (suffix.or width) v) = .ok o := by
  obtain ⟨w, t, q, hw, hbody⟩ := run_parse_eq_ok.1 h
  rw [hs.run_suffix] at hw
  cases hw
  obtain ⟨hstop, -⟩ | ⟨-, q', hb, hend⟩ := hbody
  · rw [hp] at hstop
    cases hstop
  obtain ⟨z, u, f, hz, hc, ho⟩ := (run_body_eq_ok hx).1 hb
  obtain ⟨l, v, hl, hv, rfl⟩ := run_value_eq_ok.1 hz
  obtain rfl : f.opening = x := yields_closing x _ _ _ hc
  obtain ⟨q, hq⟩ := exists_opened hx hl hp
  obtain ⟨mark, r, hm⟩ := exists_marked f.opening.marks q
  rw [hq.lead?_eq hm] at hl
  cases hl
  exact ⟨f, mark, v, ⟨Form.allowed_of_ofToken? hx, p, q, r, u, hs, hq, hm, hv,
    trails_of_closing hc (run_endOfLine_eq_ok.1 hend).1⟩, ho⟩

/-- An operand is missing, a block move or a phrase. -/
theorem exists_phrase (h : (parse site eval memory base width).run s = .ok o r) :
    (∃ w, o = ⟨base, 0, w, false⟩) ∨ o.mode = .blockMove ∨
      ∃ suffix f mark v, Phrase site eval base s suffix f mark v ∧
        f.settle site memory base (sized mark (suffix.or width) v) = .ok o := by
  obtain ⟨w, t, q, hs, ⟨-, rfl, -⟩ | ⟨ht, q', hb, -⟩⟩ := run_parse_eq_ok.1 h
  · exact .inl ⟨w, rfl⟩
  obtain ⟨suffix, p, hsuffix, rfl, rfl, rfl⟩ := exists_suffixed hs
  cases hx : Opening.ofToken? base (next p).1 with
  | none =>
    obtain rfl := Opening.eq_blockMove_of_ofToken? hx
    exact .inr (.inl (mode_of_run_blockMove hb))
  | some x => exact .inr (.inr ⟨suffix, exists_phrase_of_opening hsuffix ht hx h⟩)

end

end Asm65816.Operand
