import Asm65816.Proofs.Assembly.Visit
import Asm65816.Proofs.Operand.Accepted
import Asm65816.Proofs.Operand.Phrase
import Mathlib.Data.List.Infix

namespace Asm65816

theorem Domain.holds_zero (d : Domain) : d.Holds 0 := by cases d <;> decide

namespace Operand

open TokenSource Grammar

def Opening.forms : Opening → List Form
  | target b => [.target b]
  | distance b => [.distance b]
  | immediate => [.immediate]
  | bare => [.plain, .indexedX, .indexedY, .onStack]
  | parenthesis => [.indirect, .indirectY, .indexedIndirect, .stackIndirectY]
  | bracket => [.indirectLong, .indirectLongY]

theorem Form.mem_forms {f : Form} {x : Opening} : f ∈ x.forms ↔ f.opening = x := by
  cases f <;> cases x <;> simp [Opening.forms, Form.opening, eq_comm]

def Opening.Partial (x : Opening) (gs : List Glyph) : Prop :=
  (∃ f : Form, f.opening = x ∧ gs <+: f.behind) ∧ ∀ f : Form, f.opening = x → f.behind ≠ gs

def Opening.cuts : Opening → List (List Glyph)
  | target _ | distance _ | immediate => []
  | bare => [[.symbol ',']]
  | parenthesis =>
    [[], [.symbol ','], [.symbol ',', .letter 'x'], [.symbol ',', .letter 's'],
      [.symbol ',', .letter 's', .symbol ')'],
      [.symbol ',', .letter 's', .symbol ')', .symbol ','], [.symbol ')', .symbol ',']]
  | bracket => [[], [.symbol ']', .symbol ',']]

theorem Opening.Partial.mem_cuts {x : Opening} {gs : List Glyph} (h : x.Partial gs) :
    gs ∈ x.cuts := by
  have hall : ∀ f ∈ x.forms, ∀ gs ∈ f.behind.inits, (∀ g ∈ x.forms, g.behind ≠ gs) →
      gs ∈ x.cuts := by
    cases x with
    | target b => simp [Opening.forms, Form.behind]
    | distance b => simp [Opening.forms, Form.behind]
    | _ => decide
  obtain ⟨⟨f, hf, hgs⟩, hn⟩ := h
  exact hall f (Form.mem_forms.2 hf) gs ((List.mem_inits gs f.behind).2 hgs)
    fun g hg ↦ hn g (Form.mem_forms.1 hg)

/-- The tokens of an operand stop where an expression, a closing bracket, an index or the other
address of a block move must still come. What stands in front of that has its value, and the value
is in range. -/
inductive Unfinished (labels : String → Option Int) (base : Mode) (width : Option Width) :
    List Token → Prop
  | opened {f : Form} {front : List Token} :
    f.Allowed base → f.opening.front ≠ [] → Spells f.opening.front front →
      Unfinished labels base width front
  | behind {f : Form} {gs : List Glyph} {front ts us : List Token} {z : Sized} :
    f.Allowed base → Spells f.opening.front front →
      Quantity labels f.opening.marks width ts z → (f.opening = .bare → z.InReach) →
      f.opening.Partial gs → Spells gs us → Unfinished labels base width (front ++ ts ++ us)
  | source {ts : List Token} {z : Sized} :
    base = .blockMove → Quantity labels addressMarks width ts z →
      Domain.blockSource.Holds z.value → Unfinished labels base width ts
  | comma {t : Token} {ts : List Token} {z : Sized} :
    base = .blockMove → Quantity labels addressMarks width ts z →
      Domain.blockSource.Holds z.value → t.isSymbol ',' = true →
      Unfinished labels base width (ts ++ [t])

/-- The tokens of an operand stop behind a mark, which has no expression behind it. With them comes
what they would be with a zero there, unless more would have to come even so. -/
inductive Dangling (labels : String → Option Int) (base : Mode) (width : Option Width) :
    List Token → Option Reading → Prop
  | whole {f : Form} {front : List Token} {t : Token} {m : Mark} :
    f.Allowed base → Spells f.opening.front front → m ∈ f.opening.marks → t.isSymbol m.1 = true →
      f.behind = [] → Dangling labels base width (front ++ [t]) (some (.single f (m.2 0)))
  | opened {f : Form} {front : List Token} {t : Token} {m : Mark} :
    f.Allowed base → Spells f.opening.front front → m ∈ f.opening.marks → t.isSymbol m.1 = true →
      f.opening.Partial [] → Dangling labels base width (front ++ [t]) none
  | source {t : Token} {m : Mark} :
    base = .blockMove → m ∈ addressMarks → t.isSymbol m.1 = true →
      Dangling labels base width [t] none
  | destination {t u : Token} {ts : List Token} {z : Sized} {m : Mark} :
    base = .blockMove → Quantity labels addressMarks width ts z →
      Domain.blockSource.Holds z.value → u.isSymbol ',' = true → m ∈ addressMarks →
      t.isSymbol m.1 = true →
      Dangling labels base width (ts ++ [u, t]) (some (.move z (m.2 0)))

section

variable {labels : String → Option Int} {base : Mode} {width : Option Width} {ts : List Token}

theorem Unfinished.exists_cons (h : Unfinished labels base width ts) : ∃ t us, ts = t :: us := by
  refine List.exists_cons_of_ne_nil ?_
  cases h with
  | opened _ hne hfront =>
    rintro rfl
    exact hne (List.forall₂_nil_right_iff.1 hfront)
  | behind _ _ hz _ _ _ =>
    obtain ⟨t, us, rfl⟩ := hz.exists_cons
    simp
  | source _ hz _ =>
    obtain ⟨t, us, rfl⟩ := hz.exists_cons
    simp
  | comma => simp

theorem Dangling.exists_cons {x : Option Reading} (h : Dangling labels base width ts x) :
    ∃ t us, ts = t :: us := by
  refine List.exists_cons_of_ne_nil ?_
  cases h <;> simp

end

namespace Grammar

theorem closing_of_mem_cuts {x : Opening} {gs : List Glyph} {us : List Token} {q : Line}
    (h : gs ∈ x.cuts) (hs : Spells gs us) (hq : (next q).1.isStop = true) :
    x.closing.run (us ++ q) = .error (.unexpected (next q).1) (next q).2 := by
  have hsymbol := Token.isSymbol_of_isStop hq
  have hletter := Token.isLetter_of_isStop hq
  cases x <;> simp only [Opening.cuts, List.mem_cons, List.not_mem_nil, or_false] at h
  case bare =>
    subst h
    simp only [Spells, Glyph.Matches, List.forall₂_cons_left_iff,
      List.forall₂_nil_left_iff] at hs
    obtain ⟨c, _, hc, rfl, rfl⟩ := hs
    simp [Opening.closing, run_accept, run_present, hc, hq]
  case parenthesis =>
    rcases h with rfl | rfl | rfl | rfl | rfl | rfl | rfl <;>
      simp only [Spells, Glyph.Matches, List.forall₂_cons_left_iff,
        List.forall₂_nil_left_iff] at hs
    · subst hs
      simp [Opening.closing, run_present, hq]
    · obtain ⟨c, _, hc, rfl, rfl⟩ := hs
      have hn := Token.not_isStop_of_isSymbol hc
      simp [Opening.closing, run_present, hc, hn, hq]
    · obtain ⟨c, _, hc, ⟨i, _, hi, rfl, rfl⟩, rfl⟩ := hs
      have hn := Token.not_isStop_of_isSymbol hc
      have hn' := Token.not_isStop_of_isLetter hi
      simp [Opening.closing, run_present, run_symbol, hc, hi, hn, hn', hsymbol]
    · obtain ⟨c, _, hc, ⟨i, _, hi, rfl, rfl⟩, rfl⟩ := hs
      have hn := Token.not_isStop_of_isSymbol hc
      have hn' := Token.not_isStop_of_isLetter hi
      have hx : i.isLetter 'x' = false := Token.isLetter_of_ne hi (by decide)
      simp [Opening.closing, run_present, run_symbol, hc, hi, hn, hn', hx, hsymbol]
    · obtain ⟨c, _, hc, ⟨i, _, hi, ⟨b, _, hb, rfl, rfl⟩, rfl⟩, rfl⟩ := hs
      have hn := Token.not_isStop_of_isSymbol hc
      have hn' := Token.not_isStop_of_isLetter hi
      have hx : i.isLetter 'x' = false := Token.isLetter_of_ne hi (by decide)
      simp [Opening.closing, run_present, run_symbol, hc, hi, hb, hn, hn', hx, hsymbol]
    · obtain ⟨c, _, hc, ⟨i, _, hi, ⟨b, _, hb, ⟨d, _, hd, rfl, rfl⟩, rfl⟩, rfl⟩, rfl⟩ := hs
      have hn := Token.not_isStop_of_isSymbol hc
      have hn' := Token.not_isStop_of_isLetter hi
      have hx : i.isLetter 'x' = false := Token.isLetter_of_ne hi (by decide)
      simp [Opening.closing, run_present, run_symbol, run_letter, hc, hi, hb, hd, hn, hn', hx,
        hletter]
    · obtain ⟨b, _, hb, ⟨c, _, hc, rfl, rfl⟩, rfl⟩ := hs
      have hn := Token.not_isStop_of_isSymbol hb
      have hb' : b.isSymbol ',' = false := Token.isSymbol_of_ne hb (by decide)
      simp [Opening.closing, run_present, run_accept, run_letter, hb, hb', hc, hn, hletter]
  case bracket =>
    rcases h with rfl | rfl <;>
      simp only [Spells, Glyph.Matches, List.forall₂_cons_left_iff,
        List.forall₂_nil_left_iff] at hs
    · subst hs
      simp [Opening.closing, run_symbol, hsymbol]
    · obtain ⟨b, _, hb, ⟨c, _, hc, rfl, rfl⟩, rfl⟩ := hs
      simp [Opening.closing, run_symbol, run_accept, run_letter, hb, hc, hletter]

section

variable {σ : Type} [TokenSource σ] {site : Site} {eval : Expr.Evaluator σ} {width : Option Width}
variable {t : Token} {s r q : σ} {e : Fault} {z : Sized}

theorem run_symbol_of_isStop {c : Char} (h : (next s).1.isStop = true) :
    (symbol c).run s = .error (.unexpected (next s).1) (next s).2 := by
  rw [run_symbol, Token.isSymbol_of_isStop h c, if_neg Bool.false_ne_true]

theorem run_blockMove_of_error (hz : (address site eval width t).run s = .ok z q)
    (hl : Domain.blockSource.Holds z.value)
    (h : (do symbol ','; address site eval z.width (← present) : Reader σ Sized).run q =
      .error e r) :
    (blockMove site eval width t).run s = .error e r := by
  refine run_bind_eq_error.2 (.inr ⟨z, q, hz, run_bind_eq_error.2 (.inr ⟨z.value, q, ?_, ?_⟩)⟩)
  · exact run_ofExcept_eq_ok.2 ⟨Domain.check_of_holds hl, rfl⟩
  rcases run_bind_eq_error.1 h with h | ⟨_, p, hc, h⟩
  · exact run_bind_eq_error.2 (.inl h)
  refine run_bind_eq_error.2 (.inr ⟨_, p, hc, ?_⟩)
  rcases run_bind_eq_error.1 h with h | ⟨u, p', hu, h⟩
  · exact run_bind_eq_error.2 (.inl h)
  exact run_bind_eq_error.2 (.inr ⟨u, p', hu, run_bind_eq_error.2 (.inl h)⟩)

end

section

variable {site : Site} {labels : String → Option Int} {q : Line}

theorem run_sum_of_isStop (hq : (next q).1.isStop = true) :
    (Expr.sum labels).run q = .error (.malformed (next q).1) (next q).2 := by
  have hk : (next q).1.kind = .endOfLine := by simpa [Token.isStop] using hq
  have hterm : Expr.term labels q = .error (.malformed (next q).1) (next q).2 :=
    Expr.term_of_stray (by simp [hk]) (by simp [hk]) (Token.isSymbol_of_kind (by simp [hk]) _)
  change Expr.sum labels q = _
  rw [Expr.sum, hterm]

theorem run_evaluate_first_of_nil {stop : UInt32} (hp : site.pass = .first) :
    (evaluate site (Expr.sum labels)).run (⟨[], stop⟩ : Line) = .ok 0 ⟨[.stop stop], stop⟩ := by
  have hsum : (Expr.sum labels).run (⟨[], stop⟩ : Line) = .error _ ⟨[], stop⟩ :=
    run_sum_of_isStop rfl
  rw [run_evaluate_first hp hsum, skip]
  rfl

end

section

variable {site : Site} {labels : String → Option Int} {memory : UInt32 → UInt8} {base : Mode}
variable {width suffix : Option Width} {s p q : Line} {ts : List Token}

theorem firstStop_of_suffixed (h : Suffixed s suffix p) : p.firstStop = s.firstStop := by
  cases h with
  | bare _ => rfl
  | suffix hd hk _ =>
    rw [Line.firstStop_of_next (l := (next s).2) (by simp [Token.isStop, hk]),
      Line.firstStop_of_next (Token.not_isStop_of_isSymbol hd)]

theorem exists_words (p : Line) :
    ∃ q : Line, p = p.words ++ q ∧ (next q).1.isStop = true ∧ (next q).1 = p.firstStop := by
  obtain ⟨q, hp, hq⟩ := p.eq_words_append
  refine ⟨q, hp, hq, ?_⟩
  rw [← Line.firstStop_of_isStop hq, congrArg Line.firstStop hp,
    Line.firstStop_append fun t ht ↦ Line.not_isStop_of_mem_words ht]

theorem not_isStop_of_suffixed (h : Suffixed s suffix p) (hs : ∀ t ∈ s.tokens, t.isStop = false) :
    ∀ t ∈ p.tokens, t.isStop = false := by
  obtain ⟨tokens, stop⟩ := s
  cases h with
  | bare _ => exact hs
  | suffix hd hk _ =>
    obtain _ | ⟨t, _ | ⟨u, us⟩⟩ := tokens
    · cases hd
    · cases hk
    · exact fun v hv ↦ hs v (.tail t (.tail u hv))

theorem run_suffix_of_words {t : Token} (width : Option Width) (hs : Suffixed s suffix p)
    (hw : p.words = t :: ts) (hp : p = p.words ++ q) :
    (Grammar.suffix width).run s = .ok (suffix.or width, t) (ts ++ q) ∧ t.isStop = false := by
  have ht : t.isStop = false := Line.not_isStop_of_mem_words (l := p) (by simp [hw])
  have hsuffix : (Grammar.suffix width).run s = .ok (suffix.or width, (next p).1) (next p).2 :=
    hs.run_suffix
  rw [hp, hw] at hsuffix
  exact ⟨hsuffix, ht⟩

/-- An operand that stops where something must still come is refused at its stop. -/
theorem run_body_of_unfinished {t : Token} (site : Site) (memory : UInt32 → UInt8)
    (h : Unfinished labels base width (t :: ts)) (hq : (next q).1.isStop = true) :
    ∃ r, (body site (Expr.sum labels) memory base width t).run (ts ++ q) =
      .error (.unexpected (next q).1) r := by
  generalize htokens : t :: ts = tokens at h
  cases h with
  | @opened f front hf hne hfront =>
    rcases f.opening.front_eq with hx | ⟨c, hx⟩
    · exact absurd hx hne
    · rw [hx] at hfront
      obtain ⟨u, _, hu, hnil, rfl⟩ := List.forall₂_cons_left_iff.1 hfront
      obtain rfl := List.forall₂_nil_left_iff.1 hnil
      cases htokens
      exact ⟨_, run_body_of_value_error (Form.ofToken?_of_symbol hf hx hu)
        (run_value_of_isStop hne hq)⟩
  | @behind f gs front vs us z hf hfront hz hreach hgs hus =>
    have hs : [t] ++ (ts ++ q) = front ++ (vs ++ (us ++ q)) :=
      (Line.cons_append_eq htokens q).trans (Line.append_append front vs _)
    obtain ⟨g, -, hprefix⟩ := hgs.1
    obtain ⟨l, v, hl, hv, hzv⟩ := (Opening.read_iff hfront hs).2
      ⟨vs, us ++ q, rfl, hz, hus.noSign_of_prefix hprefix hq, rfl⟩
    obtain ⟨q', hput, hq'⟩ := Line.putBack_next_append us q
    rw [hput] at hv
    have hclosing := closing_of_mem_cuts hgs.mem_cuts hus (q := q') (by rw [hq', hq])
    rw [hq'] at hclosing
    refine ⟨_, run_body_of_closing_error (Form.ofToken?_eq_some hf hfront hz htokens.symm)
      (run_value_eq_ok.2 ⟨l, v, hl, run_evaluate_of_ok hv, hzv⟩) (fun hx ↦ ?_) hclosing⟩
    obtain ⟨hrange, hw⟩ := hreach hx
    exact ⟨_, Address.ofSized_eq_ok.2 ⟨hrange, hw, rfl⟩⟩
  | @source vs z hbase hz hl =>
    subst hbase htokens
    have hn : Expr.NoSign q := Spells.noSign (f := .plain) .nil hq
    have ha : (address site (Expr.sum labels) width t).run (ts ++ q) = .ok z _ :=
      run_address_append hz rfl hn
    have hcomma := run_symbol_of_isStop (s := putBack (next q).1 (next q).2) (c := ',') hq
    exact ⟨_, run_blockMove_of_error ha hl (run_bind_eq_error.2 (.inl hcomma))⟩
  | @comma u vs z hbase hz hl hu =>
    subst hbase
    have hs : [t] ++ (ts ++ q) = vs ++ ([u] ++ q) := Line.cons_append_eq htokens q
    have hn : Expr.NoSign ([u] ++ q) :=
      ⟨Token.isSymbol_of_ne hu (by decide), Token.isSymbol_of_ne hu (by decide)⟩
    have ha : (address site (Expr.sum labels) width t).run (ts ++ q) = .ok z _ :=
      run_address_append hz hs hn
    have hcomma : (symbol ',').run ([u] ++ q) = .ok () q := run_symbol_eq_ok.2 ⟨hu, rfl⟩
    exact ⟨_, run_blockMove_of_error ha hl (run_bind_eq_error.2 (.inr ⟨_, q, hcomma,
      run_bind_eq_error.2 (.inl (run_present_of_isStop hq))⟩))⟩

theorem opened_append {x : Opening} {front : List Token} {t : Token} {m : Mark}
    (hfront : Spells x.front front) (hm : m ∈ x.marks) (ht : t.isSymbol m.1 = true) :
    Opened x (front ++ ([t] ++ q)) ([t] ++ q) := by
  rcases x.front_eq with hx | ⟨c, hx⟩
  · rw [hx] at hfront
    obtain rfl := List.forall₂_nil_left_iff.1 hfront
    exact .bare hx (fun c hc ↦ Token.isSymbol_of_ne ht ((Opening.ne_of_mem_others hc).2 m hm))
      (Token.not_isStop_of_isSymbol ht)
  · rw [hx] at hfront
    obtain ⟨u, _, hu, hnil, rfl⟩ := List.forall₂_cons_left_iff.1 hfront
    obtain rfl := List.forall₂_nil_left_iff.1 hnil
    exact .symbol hx hu (Token.not_isStop_of_isSymbol ht)

theorem lead?_of_mark {f : Form} {front : List Token} {t u : Token} {m : Mark}
    (hf : f.Allowed base) (hfront : Spells f.opening.front front) (hm : m ∈ f.opening.marks)
    (ht : t.isSymbol m.1 = true) (htokens : u :: ts = front ++ [t]) :
    Opening.ofToken? base u = some f.opening ∧
      f.opening.lead? width u (ts ++ q) = some ⟨q, m.2⟩ := by
  have hx : Opened f.opening (front ++ ([t] ++ q)) ([t] ++ q) := opened_append hfront hm ht
  have hline : [u] ++ (ts ++ q) = front ++ ([t] ++ q) := Line.cons_append_eq htokens q
  have hmark : Marked f.opening.marks ([t] ++ q) (some m) q := .mark hm ht
  rw [← hline] at hx
  exact ⟨hx.ofToken? hf, hx.lead?_eq hmark⟩

theorem lead_of_mark {t : Token} {m : Mark} (hm : m ∈ addressMarks) (ht : t.isSymbol m.1 = true) :
    Lead.ofAddress width t q = ⟨q, m.2⟩ := heeds_addressMarks.marked hm ht

theorem run_address_of_destination {t u v : Token} {vs : List Token} {z : Sized} (site : Site)
    (q : Line) (hz : Quantity labels addressMarks width vs z) (hu : u.isSymbol ',' = true)
    (htokens : v :: ts = vs ++ [u, t]) :
    (address site (Expr.sum labels) width v).run (ts ++ q) = .ok z ([u, t] ++ q) := by
  have hs : [v] ++ (ts ++ q) = vs ++ ([u, t] ++ q) := Line.cons_append_eq htokens q
  exact run_address_append hz hs
    ⟨Token.isSymbol_of_ne hu (by decide), Token.isSymbol_of_ne hu (by decide)⟩

/-- The final pass takes the stop behind a mark for an expression. -/
theorem run_body_of_dangling_final {v : Token} {x : Option Reading} (memory : UInt32 → UInt8)
    (hp : site.pass = .final) (h : Dangling labels base width (v :: ts) x)
    (hq : (next q).1.isStop = true) :
    ∃ r, (body site (Expr.sum labels) memory base width v).run (ts ++ q) =
      .error (.expression (.malformed (next q).1)) r := by
  have he : (evaluate site (Expr.sum labels)).run q = .error _ _ :=
    run_evaluate_final hp (run_sum_of_isStop hq)
  have hsingle {f : Form} {front : List Token} {t : Token} {m : Mark} (hf : f.Allowed base)
      (hfront : Spells f.opening.front front) (hm : m ∈ f.opening.marks)
      (ht : t.isSymbol m.1 = true) (htokens : v :: ts = front ++ [t]) :
      ∃ r, (body site (Expr.sum labels) memory base width v).run (ts ++ q) =
        .error (.expression (.malformed (next q).1)) r := by
    obtain ⟨hx, hl⟩ := lead?_of_mark hf hfront hm ht htokens
    exact ⟨_, run_body_of_value_error hx (run_value_of_evaluate_error hl he)⟩
  generalize htokens : v :: ts = tokens at h
  cases h with
  | whole hf hfront hm ht _ => exact hsingle hf hfront hm ht htokens
  | opened hf hfront hm ht _ => exact hsingle hf hfront hm ht htokens
  | source hbase hm ht =>
    subst hbase
    cases htokens
    exact ⟨_, run_bind_eq_error.2 (.inl (run_address_of_evaluate_error
      (by rwa [lead_of_mark hm ht])))⟩
  | @destination t u vs z m hbase hz hl hu hm ht =>
    subst hbase
    have ha := run_address_of_destination site q hz hu htokens
    have hcomma : (symbol ',').run ([u, t] ++ q) = .ok () ([t] ++ q) :=
      run_symbol_eq_ok.2 ⟨hu, rfl⟩
    have hmark : present.run ([t] ++ q) = .ok t q :=
      run_present_eq_ok.2 ⟨Token.not_isStop_of_isSymbol ht, rfl, rfl⟩
    have hlast : (address site (Expr.sum labels) z.width t).run q = .error _ _ :=
      run_address_of_evaluate_error (by rwa [lead_of_mark hm ht])
    exact ⟨_, run_blockMove_of_error ha hl (run_bind_eq_error.2 (.inr ⟨_, _, hcomma,
      run_bind_eq_error.2 (.inr ⟨t, q, hmark, hlast⟩)⟩))⟩

theorem mark_zero_of_constantMarks {m : Mark} (h : m ∈ constantMarks) :
    m.2 0 = ⟨0, some .byte⟩ := by
  simp only [constantMarks, List.mem_cons, List.not_mem_nil, or_false] at h
  rcases h with rfl | rfl <;> rfl

theorem holds_mark_zero {m : Mark} (d : Domain) (h : m ∈ addressMarks) :
    d.Holds (m.2 0).value := by
  obtain ⟨w, -, hw⟩ := exists_width_of_addressMarks h
  rw [hw, Width.truncate, Int.zero_emod]
  exact d.holds_zero

theorem exists_settle_mark_zero {f : Form} {m : Mark} (memory : UInt32 → UInt8) (base : Mode)
    (hp : site.pass = .first) (hb : f.behind = []) (hm : m ∈ f.opening.marks) :
    ∃ o, f.settle site memory base (m.2 0) = .ok o := by
  cases f with
  | target b => exact ⟨_, by rw [Form.settle, Branch.operand, hp]; rfl⟩
  | distance b =>
    rw [mark_zero_of_constantMarks hm]
    exact exists_map_check_iff.2 (Domain.holds_zero _)
  | immediate =>
    rw [mark_zero_of_constantMarks hm]
    refine exists_immediate_iff.2 ?_
    unfold Sized.IsImmediate
    split <;> exact Domain.holds_zero _
  | plain =>
    exact (exists_settle_iff (f := .plain) (by simp)).2
      ⟨holds_mark_zero _ hm, fun _ _ ↦ holds_mark_zero _ hm⟩
  | _ => cases hb

/-- The first pass takes the stop behind a mark for a zero. -/
theorem run_value_of_mark {f : Form} {front : List Token} {t u : Token} {m : Mark}
    (labels : String → Option Int) (width : Option Width) (stop : UInt32)
    (hp : site.pass = .first) (hf : f.Allowed base) (hfront : Spells f.opening.front front)
    (hm : m ∈ f.opening.marks) (ht : t.isSymbol m.1 = true) (htokens : u :: ts = front ++ [t]) :
    Opening.ofToken? base u = some f.opening ∧
      (f.opening.value site (Expr.sum labels) width u).run (ts ++ (⟨[], stop⟩ : Line)) =
        .ok (m.2 0) ⟨[.stop stop], stop⟩ := by
  obtain ⟨hx, hl⟩ := lead?_of_mark hf hfront hm ht htokens
  exact ⟨hx, run_value_eq_ok.2 ⟨_, 0, hl, run_evaluate_first_of_nil hp, rfl⟩⟩

theorem run_address_of_mark {t : Token} {m : Mark} (labels : String → Option Int)
    (width : Option Width) (stop : UInt32) (hp : site.pass = .first) (hm : m ∈ addressMarks)
    (ht : t.isSymbol m.1 = true) :
    (address site (Expr.sum labels) width t).run (⟨[], stop⟩ : Line) =
      .ok (m.2 0) ⟨[.stop stop], stop⟩ := by
  refine run_address_eq_ok.2 ⟨0, ?_, ?_⟩ <;> rw [lead_of_mark hm ht]
  exact run_evaluate_first_of_nil hp

theorem run_body_of_dangling_none {v : Token} (memory : UInt32 → UInt8) (stop : UInt32)
    (hp : site.pass = .first) (h : Dangling labels base width (v :: ts) none) :
    ∃ r, (body site (Expr.sum labels) memory base width v).run (ts ++ (⟨[], stop⟩ : Line)) =
      .error (.unexpected (.stop stop)) r := by
  generalize htokens : v :: ts = tokens at h
  cases h with
  | opened hf hfront hm ht hpartial =>
    obtain ⟨hx, hz⟩ := run_value_of_mark labels width stop hp hf hfront hm ht htokens
    refine ⟨_, run_body_of_closing_error hx hz (fun hbare ↦ ?_)
      (closing_of_mem_cuts (q := ⟨[.stop stop], stop⟩) hpartial.mem_cuts .nil rfl)⟩
    have hcut := hpartial.mem_cuts
    rw [hbare] at hcut
    simp [Opening.cuts] at hcut
  | source hbase hm ht =>
    subst hbase
    cases htokens
    have ha := run_address_of_mark labels width stop hp hm ht
    exact ⟨_, run_blockMove_of_error ha (holds_mark_zero _ hm)
      (run_bind_eq_error.2 (.inl (run_symbol_of_isStop rfl)))⟩

theorem run_body_of_dangling_some {v : Token} {x : Reading} (memory : UInt32 → UInt8)
    (stop : UInt32) (hp : site.pass = .first) (h : Dangling labels base width (v :: ts) (some x)) :
    ∃ o r, x.settle site memory base = .ok o ∧
      (body site (Expr.sum labels) memory base width v).run (ts ++ (⟨[], stop⟩ : Line)) =
        .ok o r ∧ (next r).1.isStop = true := by
  generalize htokens : v :: ts = tokens at h
  cases h with
  | @whole f front t m hf hfront hm ht hb =>
    obtain ⟨hx, hz⟩ := run_value_of_mark labels width stop hp hf hfront hm ht htokens
    obtain ⟨o, ho⟩ := exists_settle_mark_zero memory base hp hb hm
    have htrails : Trails f.behind (⟨[.stop stop], stop⟩ : Line) := hb ▸ rfl
    obtain ⟨r, hc, hr⟩ := closing_of_trails htrails
    exact ⟨o, r, ho, (run_body_eq_ok hx).2 ⟨_, _, f, hz, hc, ho⟩, hr⟩
  | @destination t u vs z m hbase hz hl hu hm ht =>
    subst hbase
    have ha := run_address_of_destination site ⟨[], stop⟩ hz hu htokens
    have ha' := run_address_of_mark labels z.width stop hp hm ht
    have hh : Domain.blockDestination.Holds (m.2 0).value := holds_mark_zero _ hm
    exact ⟨_, _, settle_move_eq_ok.2 ⟨hl, hh, rfl⟩, run_blockMove_eq_ok.2
      ⟨z, _, _, ha, hu, Token.not_isStop_of_isSymbol ht, ha', hl, hh, rfl⟩, rfl⟩

/-- An operand that stops where something must still come is refused at the stop of the line. One
that stops behind a mark is not: the final pass finds fault with its expression, and the first pass
takes a zero for that and goes on. -/
theorem run_parse_incomplete (hs : Suffixed s suffix p) :
    (Unfinished labels base (suffix.or width) p.words →
      ∃ r, (parse site (Expr.sum labels) memory base width).run s =
        .error (.unexpected s.firstStop) r) ∧
    (site.pass = .final → ∀ x, Dangling labels base (suffix.or width) p.words x →
      ∃ r, (parse site (Expr.sum labels) memory base width).run s =
        .error (.expression (.malformed s.firstStop)) r) ∧
    (site.pass = .first → (∀ t ∈ s.tokens, t.isStop = false) →
      (Dangling labels base (suffix.or width) p.words none →
        ∃ r, (parse site (Expr.sum labels) memory base width).run s =
          .error (.unexpected s.firstStop) r) ∧
      ∀ x, Dangling labels base (suffix.or width) p.words (some x) →
        ∃ o r, x.settle site memory base = .ok o ∧
          (parse site (Expr.sum labels) memory base width).run s = .ok o r) := by
  obtain ⟨q, hp, hq, hstop⟩ := exists_words p
  rw [firstStop_of_suffixed hs] at hstop
  refine ⟨fun h ↦ ?_, fun hfinal x h ↦ ?_, fun hfirst hline ↦ ?_⟩
  · obtain ⟨t, ts, hw⟩ := h.exists_cons
    obtain ⟨hsuffix, ht⟩ := run_suffix_of_words width hs hw hp
    obtain ⟨r, hb⟩ := run_body_of_unfinished site memory (hw ▸ h) hq
    exact ⟨r, hstop ▸ run_parse_of_body_error hsuffix ht hb⟩
  · obtain ⟨t, ts, hw⟩ := h.exists_cons
    obtain ⟨hsuffix, ht⟩ := run_suffix_of_words width hs hw hp
    obtain ⟨r, hb⟩ := run_body_of_dangling_final memory hfinal (hw ▸ h) hq
    exact ⟨r, hstop ▸ run_parse_of_body_error hsuffix ht hb⟩
  · have htokens := not_isStop_of_suffixed hs hline
    obtain ⟨hend, hlast⟩ := Line.eq_words_append_stop (not_isStop_of_suffixed hs hline)
    rw [firstStop_of_suffixed hs] at hlast
    refine ⟨fun h ↦ ?_, fun x h ↦ ?_⟩
    · obtain ⟨t, ts, hw⟩ := h.exists_cons
      obtain ⟨hsuffix, ht⟩ := run_suffix_of_words width hs hw hend
      obtain ⟨r, hb⟩ := run_body_of_dangling_none memory p.stop hfirst (hw ▸ h)
      exact ⟨r, hlast ▸ run_parse_of_body_error hsuffix ht hb⟩
    · obtain ⟨t, ts, hw⟩ := h.exists_cons
      obtain ⟨hsuffix, ht⟩ := run_suffix_of_words width hs hw hend
      obtain ⟨o, r, ho, hb, hr⟩ := run_body_of_dangling_some memory p.stop hfirst (hw ▸ h)
      exact ⟨o, _, ho, run_parse_eq_ok.2
        ⟨_, t, _, hsuffix, .inr ⟨ht, r, hb, run_endOfLine_eq_ok.2 ⟨hr, rfl⟩⟩⟩⟩

/-- `(5` on either pass, and `<` on the final pass and on the first one. -/
theorem run_parse_incomplete_five :
    (∀ pass, ∃ r, (parse (.ofAddress pass 0x8000) (Expr.sum fun _ ↦ none) (fun _ ↦ 0) .implied
      none).run (⟨[⟨.symbol, "(", 4⟩, ⟨.number, "5", 5⟩], 6⟩ : Line) =
        .error (.unexpected (.stop 6)) r) ∧
    (∃ r, (parse (.ofAddress .final 0x8000) (Expr.sum fun _ ↦ none) (fun _ ↦ 0) .implied
      none).run (⟨[⟨.symbol, "<", 4⟩], 5⟩ : Line) =
        .error (.expression (.malformed (.stop 5))) r) ∧
    ∃ o r, (Form.plain.settle (.ofAddress .first 0x8000) (fun _ ↦ 0) .implied ⟨0, some .byte⟩) =
      .ok o ∧ (parse (.ofAddress .first 0x8000) (Expr.sum fun _ ↦ none) (fun _ ↦ 0) .implied
        none).run (⟨[⟨.symbol, "<", 4⟩], 5⟩ : Line) = .ok o r := by
  have hfive : Quantity (fun _ ↦ none) Form.indirect.opening.marks none [⟨.number, "5", 5⟩]
      ⟨5, none⟩ := .bare (.term (.number rfl (by decide)))
  have hpartial : Form.indirect.opening.Partial [] :=
    ⟨⟨.indirect, rfl, List.nil_prefix⟩, fun f hf ↦ by cases f <;> cases hf <;> decide⟩
  have hunfinished : Unfinished (fun _ ↦ none) .implied none
      [⟨.symbol, "(", 4⟩, ⟨.number, "5", 5⟩] :=
    @Unfinished.behind _ _ _ .indirect [] [⟨.symbol, "(", 4⟩] _ [] _ (by decide)
      (.cons (by decide) .nil) hfive (fun h ↦ nomatch h) hpartial .nil
  have hdangling : Dangling (fun _ ↦ none) .implied none [⟨.symbol, "<", 4⟩]
      (some (.single .plain ⟨0, some .byte⟩)) :=
    @Dangling.whole _ _ _ .plain [] _ ('<', _) (by decide) .nil List.mem_cons_self (by decide) rfl
  have hend : Suffixed (⟨[⟨.symbol, "<", 4⟩], 5⟩ : Line) none _ := .bare (by decide)
  exact ⟨fun pass ↦ (run_parse_incomplete (.bare (by decide))).1 hunfinished,
    (run_parse_incomplete hend).2.1 rfl _ hdangling,
    ((run_parse_incomplete hend).2.2 rfl (by decide)).2 _ hdangling⟩

/-- A line that stops behind a mark, of an address, of an immediate value, of a branch or of a block
move: the final pass finds fault with the expression, and the first pass takes the line. -/
theorem run_parse_mark_only :
    [(Mode.implied, [⟨.symbol, "<", 4⟩]), (.implied, [⟨.symbol, "#", 4⟩, ⟨.symbol, "<", 5⟩]),
      (.relative, [⟨.symbol, "<", 4⟩]),
      (.blockMove, [⟨.number, "1", 4⟩, ⟨.symbol, ",", 5⟩, ⟨.symbol, "<", 6⟩])].map (fun x ↦
        (Assembly.Visit.fault? ((parse (.ofAddress .final 0x8000) (Expr.sum fun _ ↦ none)
          (fun _ ↦ 0) x.1 none).run (⟨x.2, 7⟩ : Line)),
        Assembly.Visit.result? ((parse (.ofAddress .first 0x8000) (Expr.sum fun _ ↦ none)
          (fun _ ↦ 0) x.1 none).run (⟨x.2, 7⟩ : Line)))) =
      [(some (.expression (.malformed (.stop 7))), some ⟨.direct, 0, some .byte, false⟩),
        (some (.expression (.malformed (.stop 7))), some ⟨.immediate16, 0, some .byte, false⟩),
        (some (.expression (.malformed (.stop 7))), some ⟨.relative, 0, some .byte, false⟩),
        (some (.expression (.malformed (.stop 7))), some ⟨.blockMove, 1, some .byte, false⟩)] := by
  decide +kernel

end

end Grammar

end Operand

end Asm65816
