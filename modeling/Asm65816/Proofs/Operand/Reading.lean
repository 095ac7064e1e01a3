import Asm65816.Proofs.Operand.Written

namespace Asm65816.Operand

open TokenSource Grammar

section

variable {base : Mode} {t : Token} {f : Form} {s : Line}

theorem Opening.exists_front {x : Opening} (hx : Opening.ofToken? base t = some x) :
    ∃ (front : List Token) (p : Line), [t] ++ s = front ++ p ∧ Spells x.front front := by
  have hsymbol {c : Char} (hc : t.isSymbol c = true) : Spells [.symbol c] [t] := .cons hc .nil
  have hbranch {b : Branch} {x : Opening}
      (hx : some (if t.isSymbol '#' then .distance b else .target b) = some x) :
      ∃ (front : List Token) (p : Line), [t] ++ s = front ++ p ∧ Spells x.front front := by
    split at hx
    · next ht =>
      cases hx
      exact ⟨[t], s, rfl, hsymbol ht⟩
    · cases hx
      exact ⟨[], [t] ++ s, rfl, .nil⟩
  by_cases hb : base = .relative ∨ base = .relativeLong ∨ base = .blockMove
  · rcases hb with rfl | rfl | rfl
    · exact hbranch hx
    · exact hbranch hx
    · cases hx
  · simp only [not_or] at hb
    rw [ofToken?_of_ne hb.1 hb.2.1 hb.2.2] at hx
    split at hx
    · next ht =>
      cases hx
      exact ⟨[t], s, rfl, hsymbol ht⟩
    · split at hx
      · next ht =>
        cases hx
        exact ⟨[t], s, rfl, hsymbol ht⟩
      · split at hx
        · next ht =>
          cases hx
          exact ⟨[t], s, rfl, hsymbol ht⟩
        · cases hx
          exact ⟨[], [t] ++ s, rfl, .nil⟩

theorem Form.allowed_of_ofToken? (hx : Opening.ofToken? base t = some f.opening) :
    f.Allowed base := by
  by_cases hb : base = .relative ∨ base = .relativeLong ∨ base = .blockMove
  · rcases hb with rfl | rfl | rfl
    · change some (if t.isSymbol '#' then Opening.distance .short else .target .short) = _ at hx
      split at hx <;> cases f <;> cases hx <;> rfl
    · change some (if t.isSymbol '#' then Opening.distance .long else .target .long) = _ at hx
      split at hx <;> cases f <;> cases hx <;> rfl
    · cases hx
  · have hb' : base ∉ [Mode.relative, .relativeLong, .blockMove] := by simpa using hb
    simp only [not_or] at hb
    rw [ofToken?_of_ne hb.1 hb.2.1 hb.2.2] at hx
    cases f with
    | target b => split_ifs at hx <;> cases hx
    | distance b => split_ifs at hx <;> cases hx
    | _ => exact hb'

def Opening.others : Opening → List Char
  | target _ => ['#']
  | bare => ['#', '(', '[']
  | distance _ | immediate | parenthesis | bracket => []

theorem Opening.front_eq (x : Opening) : x.front = [] ∨ ∃ c, x.front = [.symbol c] := by
  cases x <;> simp [Opening.front]

theorem Opening.ne_of_mem_others {x : Opening} {c : Char} (hc : c ∈ x.others) :
    c ≠ '-' ∧ ∀ m ∈ x.marks, m.1 ≠ c := by
  cases x <;> simp only [others, List.mem_cons, List.not_mem_nil, or_false] at hc
  case target =>
    subst hc
    simp [marks, constantMarks]
  case bare => rcases hc with rfl | rfl | rfl <;> simp [marks, addressMarks]

theorem Form.ofToken?_of_allowed (hf : f.Allowed base) (hb : ∀ b, f ≠ .target b ∧ f ≠ .distance b) :
    Opening.ofToken? base t =
      if t.isSymbol '#' then some .immediate
      else if t.isSymbol '(' then some .parenthesis
      else if t.isSymbol '[' then some .bracket
      else some .bare := by
  have hne : base ∉ [Mode.relative, .relativeLong, .blockMove] := by
    cases f with
    | target b => exact absurd rfl (hb b).1
    | distance b => exact absurd rfl (hb b).2
    | _ => exact hf
  simp only [List.mem_cons, List.not_mem_nil, or_false, not_or] at hne
  exact ofToken?_of_ne hne.1 hne.2.1 hne.2.2

theorem Form.ofToken?_of_symbol {c : Char} (hf : f.Allowed base)
    (hfront : f.opening.front = [.symbol c]) (ht : t.isSymbol c = true) :
    Opening.ofToken? base t = some f.opening := by
  cases f with
  | distance b =>
    cases hfront
    obtain rfl : base = b.mode := hf
    cases b <;> simp [Opening.ofToken?, Branch.mode, ht, Form.opening]
  | target b | plain | indexedX | indexedY | onStack => cases hfront
  | _ =>
    cases hfront
    rw [Form.ofToken?_of_allowed hf (by simp)]
    simp [ht, Token.isSymbol_of_ne ht, Form.opening]

theorem Form.ofToken?_of_others (hf : f.Allowed base) (hfront : f.opening.front = [])
    (hn : ∀ c ∈ f.opening.others, t.isSymbol c = false) :
    Opening.ofToken? base t = some f.opening := by
  cases f with
  | target b =>
    obtain rfl : base = b.mode := hf
    have ht : t.isSymbol '#' = false := hn '#' (by simp [Form.opening, Opening.others])
    cases b <;> simp [Opening.ofToken?, Branch.mode, ht, Form.opening]
  | plain | indexedX | indexedY | onStack =>
    rw [Form.ofToken?_of_allowed hf (by simp),
      if_neg (by simp [hn '#' (by simp [Form.opening, Opening.others])]),
      if_neg (by simp [hn '(' (by simp [Form.opening, Opening.others])]),
      if_neg (by simp [hn '[' (by simp [Form.opening, Opening.others])])]
    rfl
  | _ => cases hfront

theorem Form.ofToken?_eq_some {labels : String → Option Int} {width : Option Width} {z : Sized}
    {front ts rest us : List Token} (hf : f.Allowed base) (hs : Spells f.opening.front front)
    (hts : Quantity labels f.opening.marks width ts z) (ht : front ++ ts ++ rest = t :: us) :
    Opening.ofToken? base t = some f.opening := by
  rcases f.opening.front_eq with hfront | ⟨c, hfront⟩
  · rw [hfront] at hs
    obtain rfl := List.forall₂_nil_left_iff.1 hs
    refine Form.ofToken?_of_others hf hfront fun c hc ↦ ?_
    obtain ⟨hminus, hmarks⟩ := Opening.ne_of_mem_others hc
    obtain ⟨u, _, rfl, hu⟩ := hts.head hminus hmarks
    obtain ⟨rfl, -⟩ := List.cons.inj ht
    exact hu
  · rw [hfront] at hs
    obtain ⟨u, _, hu, -, rfl⟩ := List.forall₂_cons_left_iff.1 hs
    obtain ⟨rfl, -⟩ := List.cons.inj ht
    exact Form.ofToken?_of_symbol hf hfront hu

end

section

variable {site : Site} {labels : String → Option Int} {memory : UInt32 → UInt8} {base : Mode}
variable {width : Option Width} {t : Token} {f : Form} {o : Operand} {z : Sized} {x : Reading}
variable {ts us : List Token} {q r s : Line}

theorem Form.head_behind {g : Glyph} {gs : List Glyph} (h : g :: gs <+: f.behind) :
    ∃ c, g = .symbol c ∧ c ≠ '+' ∧ c ≠ '-' := by
  cases f with
  | target b | distance b | immediate | plain => exact absurd h (by simp [Form.behind])
  | _ =>
    obtain ⟨rfl, -⟩ := List.cons_prefix_cons.1 h
    exact ⟨_, rfl, by decide, by decide⟩

theorem Spells.noSign_of_prefix {gs : List Glyph} (hg : gs <+: f.behind) (h : Spells gs ts)
    (hq : (next q).1.isStop = true) : Expr.NoSign (ts ++ q) := by
  cases h with
  | nil => exact Expr.noSign_of_isStop hq
  | cons hu _ =>
    obtain ⟨c, rfl, hp, hm⟩ := Form.head_behind hg
    exact ⟨Token.isSymbol_of_ne hu hp, Token.isSymbol_of_ne hu hm⟩

theorem Spells.noSign (h : Spells f.behind ts) (hq : (next q).1.isStop = true) :
    Expr.NoSign (ts ++ q) := h.noSign_of_prefix List.prefix_rfl hq

theorem run_address_append (h : Quantity labels addressMarks width ts z)
    (hts : [t] ++ s = ts ++ q) (hq : Expr.NoSign q) :
    (address site (Expr.sum labels) width t).run s =
      .ok z (putBack (next q).1 (next q).2) := by
  obtain ⟨v, hv, hz⟩ := heeds_addressMarks.read_iff.2 ⟨ts, q, hts, h, hq, rfl⟩
  exact run_address_eq_ok.2 ⟨v, run_evaluate_of_ok hv, hz⟩

theorem exists_address (hp : site.pass = .final)
    (h : (address site (Expr.sum labels) width t).run s = .ok z r) :
    ∃ ts q, [t] ++ s = ts ++ q ∧ Quantity labels addressMarks width ts z ∧ Expr.NoSign q ∧
      r = putBack (next q).1 (next q).2 := by
  obtain ⟨v, hv, hz⟩ := run_address_eq_ok.1 h
  exact heeds_addressMarks.read_iff.1 ⟨v, (run_evaluate_eq_ok_final hp).1 hv, hz⟩

theorem exists_body_of_single {y : Opening} (hp : site.pass = .final)
    (hy : Opening.ofToken? base t = some y)
    (h : (body site (Expr.sum labels) memory base width t).run s = .ok o r)
    (hr : (next r).1.isStop = true) :
    ∃ x, Body labels base width ([t] ++ s).words x ∧ x.settle site memory base = .ok o := by
  obtain ⟨z, q, f, hz, hf, ho⟩ := (run_body_eq_ok hy).1 h
  obtain ⟨l, v, hl, hv, hzv⟩ := run_value_eq_ok.1 hz
  obtain rfl : f.opening = y := yields_closing y _ _ _ hf
  obtain ⟨front, p, hs, hfront⟩ := Opening.exists_front (s := s) hy
  obtain ⟨ts, q', rfl, hts, -, rfl⟩ := (Opening.read_iff hfront hs).1
    ⟨l, v, hl, (run_evaluate_eq_ok_final hp).1 hv, hzv⟩
  have hb := spells_of_closing hf hr
  rw [Line.words_putBack_next] at hb
  refine ⟨.single f z, ?_, ho⟩
  rw [hs, Line.words_append hfront.not_isStop, Line.words_append hts.not_isStop,
    ← List.append_assoc]
  exact .single (Form.allowed_of_ofToken? hy) hfront hts hb

theorem settle_move_eq_ok {z' : Sized} :
    (Reading.move z z').settle site memory base = .ok o ↔
      Domain.blockSource.Holds z.value ∧ Domain.blockDestination.Holds z'.value ∧
        o = ⟨.blockMove, z.value + 0x100 * z'.value, z'.width, false⟩ := by
  have hs : (Reading.move z z').settle site memory base =
      (Domain.blockSource.check z.value).bind fun low ↦
        (Domain.blockDestination.check z'.value).map fun high ↦
          ⟨.blockMove, low + 0x100 * high, z'.width, false⟩ := by
    simp only [Reading.settle]
    cases Domain.blockDestination.check z'.value <;> rfl
  rw [hs]
  simp only [bind_eq_ok, map_eq_ok, Domain.check_eq_ok_iff]
  constructor
  · rintro ⟨_, ⟨hl, rfl⟩, _, ⟨hh, rfl⟩, ho⟩
    exact ⟨hl, hh, ho⟩
  · rintro ⟨hl, hh, ho⟩
    exact ⟨_, ⟨hl, rfl⟩, _, ⟨hh, rfl⟩, ho⟩

/-- The source bank of a block move is checked in front of the destination bank. -/
theorem settle_move_eq_error {z' : Sized} {e : Fault} :
    (Reading.move z z').settle site memory base = .error e ↔
      Domain.blockSource.check z.value = .error e ∨
        Domain.blockSource.Holds z.value ∧ Domain.blockDestination.check z'.value = .error e := by
  by_cases hl : Domain.blockSource.Holds z.value
  · by_cases hh : Domain.blockDestination.Holds z'.value
    · have hs : (Reading.move z z').settle site memory base = .ok _ :=
        settle_move_eq_ok.2 ⟨hl, hh, rfl⟩
      simp [hs, Domain.check_of_holds, hl, hh]
    · simp only [Reading.settle, Domain.check_of_holds hl, Domain.check_of_not_holds hh, hl]
      change Except.error _ = _ ↔ _
      simp
  · simp only [Reading.settle, Domain.check_of_not_holds hl, hl]
    change Except.error _ = _ ↔ _
    simp

theorem run_blockMove_of_settle_error {z' : Sized} {e : Fault}
    (hz : (address site (Expr.sum labels) width t).run s = .ok z q)
    (hc : (next q).1.isSymbol ',' = true) (hn : (next (next q).2).1.isStop = false)
    (hz' : (address site (Expr.sum labels) z.width (next (next q).2).1).run (next (next q).2).2 =
      .ok z' r)
    (he : (Reading.move z z').settle site memory base = .error e) :
    ∃ r', (blockMove site (Expr.sum labels) width t).run s = .error e r' := by
  unfold blockMove
  rcases settle_move_eq_error.1 he with hl | ⟨hl, hh⟩
  · exact ⟨q, run_bind_eq_error.2 (.inr ⟨z, q, hz, run_bind_eq_error.2
      (.inl (run_ofExcept_eq_error.2 ⟨hl, rfl⟩))⟩)⟩
  · refine ⟨r, run_bind_eq_error.2 (.inr ⟨z, q, hz, ?_⟩)⟩
    refine run_bind_eq_error.2 (.inr ⟨z.value, q, ?_, ?_⟩)
    · exact run_ofExcept_eq_ok.2 ⟨Domain.check_of_holds hl, rfl⟩
    refine run_bind_eq_error.2 (.inr ⟨(), _, run_symbol_eq_ok.2 ⟨hc, rfl⟩, ?_⟩)
    refine run_bind_eq_error.2 (.inr ⟨_, _, run_present_eq_ok.2 ⟨hn, rfl, rfl⟩, ?_⟩)
    refine run_bind_eq_error.2 (.inr ⟨z', r, hz', ?_⟩)
    exact run_bind_eq_error.2 (.inl (run_ofExcept_eq_error.2 ⟨hh, rfl⟩))

theorem exists_body_of_blockMove (hp : site.pass = .final)
    (h : (blockMove site (Expr.sum labels) width t).run s = .ok o r)
    (hr : (next r).1.isStop = true) :
    ∃ x, Body labels .blockMove width ([t] ++ s).words x ∧
      x.settle site memory .blockMove = .ok o := by
  obtain ⟨z, _, z', hz, hc, hn, hz', ho⟩ := run_blockMove_eq_ok.1 h
  obtain ⟨ts, p, hs, hts, -, rfl⟩ := exists_address hp hz
  obtain ⟨us, p', hs', hus, -, rfl⟩ := exists_address hp hz'
  have hrest : (next p).2.words = us := by
    have hp' : p'.words = [] := Line.words_of_isStop hr
    rw [Line.eq_next_append (l := (next p).2) hn]
    exact (congrArg Line.words hs').trans (by rw [Line.words_append hus.not_isStop, hp',
      List.append_nil])
  have hwords : ([t] ++ s).words = ts ++ (next p).1 :: us := by
    have hp' : p.words = (next p).1 :: (next p).2.words :=
      Line.words_of_next (Token.not_isStop_of_isSymbol hc)
    rw [hs, Line.words_append hts.not_isStop, hp', hrest]
  refine ⟨.move z z', ?_, settle_move_eq_ok.2 ho⟩
  rw [hwords]
  exact .move rfl hts hc hus

/-- The final pass reads nothing but what is written. -/
theorem exists_body (hp : site.pass = .final)
    (h : (body site (Expr.sum labels) memory base width t).run s = .ok o r)
    (hr : (next r).1.isStop = true) :
    ∃ x, Body labels base width ([t] ++ s).words x ∧ x.settle site memory base = .ok o := by
  cases hy : Opening.ofToken? base t with
  | some y => exact exists_body_of_single hp hy h hr
  | none =>
    obtain rfl := Opening.eq_blockMove_of_ofToken? hy
    exact exists_body_of_blockMove hp h hr

theorem read_single_append {front behind : List Token} (hf : f.Allowed base)
    (hfront : Spells f.opening.front front) (hz : Quantity labels f.opening.marks width us z)
    (hb : Spells f.behind behind) (hts : front ++ us ++ behind = t :: ts)
    (hq : (next q).1.isStop = true) :
    ∃ q' r, Opening.ofToken? base t = some f.opening ∧
      (f.opening.value site (Expr.sum labels) width t).run (ts ++ q) = .ok z q' ∧
      f.opening.closing.run q' = .ok f r ∧ (next r).1.isStop = true := by
  have hs : [t] ++ (ts ++ q) = front ++ (us ++ (behind ++ q)) :=
    (Line.cons_append_eq hts.symm q).trans (Line.append_append front us _)
  obtain ⟨l, v, hl, hv, hzv⟩ := (Opening.read_iff hfront hs).2
    ⟨us, behind ++ q, rfl, hz, hb.noSign hq, rfl⟩
  obtain ⟨q', hput, hq'⟩ := Line.putBack_next_append behind q
  obtain ⟨r, hr, hstop⟩ := closing_append hb (q := q') (by rw [hq', hq])
  rw [hput] at hv
  exact ⟨behind ++ q', r, Form.ofToken?_eq_some hf hfront hz hts,
    run_value_eq_ok.2 ⟨l, v, hl, run_evaluate_of_ok hv, hzv⟩, hr, hstop⟩

theorem read_move_append {u : Token} {vs : List Token} {z' : Sized}
    (hz : Quantity labels addressMarks width us z) (hc : u.isSymbol ',' = true)
    (hz' : Quantity labels addressMarks z.width vs z') (hts : us ++ u :: vs = t :: ts)
    (hq : (next q).1.isStop = true) :
    (address site (Expr.sum labels) width t).run (ts ++ q) = .ok z (u :: vs ++ q) ∧
      (next (vs ++ q)).1.isStop = false ∧
      (address site (Expr.sum labels) z.width (next (vs ++ q)).1).run (next (vs ++ q)).2 =
        .ok z' (putBack (next q).1 (next q).2) := by
  have hs : [t] ++ (ts ++ q) = us ++ (u :: vs ++ q) := Line.cons_append_eq hts.symm q
  have hn : Expr.NoSign (u :: vs ++ q) :=
    ⟨Token.isSymbol_of_ne hc (by decide), Token.isSymbol_of_ne hc (by decide)⟩
  have hv : (next (vs ++ q)).1.isStop = false := hz'.not_isStop_next q
  exact ⟨run_address_append hz hs hn, hv,
    run_address_append hz' (Line.eq_next_append hv).symm (Expr.noSign_of_isStop hq)⟩

theorem run_body_append (h : Body labels base width (t :: ts) x)
    (ho : x.settle site memory base = .ok o) (hq : (next q).1.isStop = true) :
    ∃ r, (body site (Expr.sum labels) memory base width t).run (ts ++ q) = .ok o r ∧
      (next r).1.isStop = true := by
  generalize hts : t :: ts = tokens at h
  cases h with
  | nothing => cases hts
  | single hf hfront hz hb =>
    obtain ⟨q', r, hy, hv, hr, hstop⟩ := read_single_append hf hfront hz hb hts.symm hq
    exact ⟨r, (run_body_eq_ok hy).2 ⟨_, q', _, hv, hr, ho⟩, hstop⟩
  | move hbase hz hc hz' =>
    subst hbase
    obtain ⟨ha, hn, ha'⟩ := read_move_append hz hc hz' hts.symm hq
    exact ⟨_, run_blockMove_eq_ok.2 ⟨_, _, _, ha, hc, hn, ha', settle_move_eq_ok.1 ho⟩, hq⟩

theorem run_body_append_error {e : Fault} (h : Body labels base width (t :: ts) x)
    (he : x.settle site memory base = .error e) (hq : (next q).1.isStop = true) :
    ∃ r, (body site (Expr.sum labels) memory base width t).run (ts ++ q) = .error e r := by
  generalize hts : t :: ts = tokens at h
  cases h with
  | nothing => cases hts
  | single hf hfront hz hb =>
    obtain ⟨q', r, hy, hv, hr, -⟩ := read_single_append hf hfront hz hb hts.symm hq
    exact run_body_of_settle_error hy hv hr he
  | move hbase hz hc hz' =>
    subst hbase
    obtain ⟨ha, hn, ha'⟩ := read_move_append hz hc hz' hts.symm hq
    exact run_blockMove_of_settle_error ha hc hn ha' he

theorem Body.not_isStop (h : Body labels base width ts x) : ∀ t ∈ ts, t.isStop = false := by
  cases h with
  | nothing => simp
  | single _ hfront hz hb =>
    exact List.forall_mem_append.2
      ⟨List.forall_mem_append.2 ⟨hfront.not_isStop, hz.not_isStop⟩, hb.not_isStop⟩
  | move _ hz hc hz' =>
    exact List.forall_mem_append.2
      ⟨hz.not_isStop, List.forall_mem_cons.2 ⟨Token.not_isStop_of_isSymbol hc, hz'.not_isStop⟩⟩

theorem Body.eq_nothing (h : Body labels base width [] x) : x = .nothing width := by
  generalize hts : ([] : List Token) = tokens at h
  cases h with
  | nothing => rfl
  | single _ _ hz _ =>
    obtain ⟨u, us, rfl⟩ := hz.exists_cons
    simp at hts
  | move => simp at hts

theorem Body.not_dot (h : Body labels base width (t :: ts) x) : t.isSymbol '.' = false := by
  generalize hts : t :: ts = tokens at h
  have hquantity {marks : List Mark} {w : Option Width} {z : Sized} {us vs : List Token}
      (hz : Quantity labels marks w us z) (hm : ∀ m ∈ marks, m.1 ≠ '.')
      (hus : t :: ts = us ++ vs) : t.isSymbol '.' = false := by
    obtain ⟨u, us, rfl, hu⟩ := hz.head (by decide) hm
    obtain ⟨rfl, -⟩ := List.cons.inj hus
    exact hu
  cases h with
  | nothing => cases hts
  | move _ hz _ _ => exact hquantity hz (by decide) hts
  | @single f front us behind z _ hfront hz _ =>
    have hm : ∀ m ∈ f.opening.marks, m.1 ≠ '.' := by
      cases f.opening <;> simp [Opening.marks, constantMarks, addressMarks]
    cases hfront' : f.opening.front with
    | nil =>
      rw [hfront'] at hfront
      obtain rfl := List.forall₂_nil_left_iff.1 hfront
      exact hquantity hz hm hts
    | cons g gs =>
      rw [hfront'] at hfront
      obtain ⟨u, _, hu, -, rfl⟩ := List.forall₂_cons_left_iff.1 hfront
      obtain ⟨rfl, -⟩ := List.cons.inj hts
      cases hy : f.opening <;> rw [hy] at hfront' <;> cases hfront' <;>
        exact Token.isSymbol_of_ne hu (by decide)

theorem written_of_suffix {w : Option Width} (h : (suffix width).run s = .ok (w, t) q) :
    ∃ p, t = (next p).1 ∧ q = (next p).2 ∧ ∀ labels base x, Body labels base w p.words x →
      Written labels base width s.words x := by
  rcases run_suffix_eq_ok.1 h with ⟨-, rfl, rfl, rfl⟩ | ⟨hd, hk, ⟨v, hv, rfl⟩, rfl, rfl⟩
  · exact ⟨s, rfl, rfl, fun _ _ _ hx ↦ .plain hx⟩
  · refine ⟨(next (next s).2).2, rfl, rfl, fun _ _ _ hx ↦ ?_⟩
    rw [Line.words_of_next (Token.not_isStop_of_isSymbol hd),
      Line.words_of_next (l := (next s).2) (by simp [Token.isStop, hk])]
    exact .suffixed hd hk hv hx

theorem suffix_of_written (h : Written labels base width s.words x) :
    ∃ w p, Body labels base w p.words x ∧
      (suffix width).run s = .ok (w, (next p).1) (next p).2 := by
  generalize hw : s.words = tokens at h
  cases h with
  | plain hx =>
    refine ⟨width, s, hw ▸ hx, run_suffix_eq_ok.2 (.inl ⟨?_, rfl, rfl, rfl⟩)⟩
    cases hs : (next s).1.isStop with
    | true => exact Token.isSymbol_of_isStop hs '.'
    | false =>
      rw [Line.words_of_next hs] at hw
      subst hw
      exact hx.not_dot
  | @suffixed dot name w ts x hd hk hv hx =>
    obtain ⟨rfl, hrest⟩ := Line.next_of_words_eq_cons hw
    obtain ⟨rfl, hts⟩ := Line.next_of_words_eq_cons hrest
    exact ⟨some w, (next (next s).2).2, hts ▸ hx,
      run_suffix_eq_ok.2 (.inr ⟨hd, hk, ⟨w, hv, rfl⟩, rfl, rfl⟩)⟩

/-- The final pass reads an operand only as it is written. -/
theorem exists_written (hp : site.pass = .final)
    (h : (parse site (Expr.sum labels) memory base width).run s = .ok o r) :
    ∃ x, Written labels base width s.words x ∧ x.settle site memory base = .ok o := by
  obtain ⟨w, t, q, hs, ⟨ht, rfl, -⟩ | ⟨ht, q', hb, hend⟩⟩ := run_parse_eq_ok.1 h
  · obtain ⟨p, rfl, -, hwritten⟩ := written_of_suffix hs
    refine ⟨.nothing w, hwritten _ _ _ ?_, rfl⟩
    rw [Line.words_of_isStop ht]
    exact .nothing
  · obtain ⟨p, rfl, rfl, hwritten⟩ := written_of_suffix hs
    obtain ⟨x, hx, ho⟩ := exists_body hp hb (run_endOfLine_eq_ok.1 hend).1
    rw [← Line.eq_next_append ht] at hx
    exact ⟨x, hwritten _ _ _ hx, ho⟩

theorem run_parse_of_written (h : Written labels base width s.words x)
    (ho : x.settle site memory base = .ok o) :
    ∃ r, (parse site (Expr.sum labels) memory base width).run s = .ok o r := by
  obtain ⟨w, p, hx, hs⟩ := suffix_of_written h
  obtain ⟨q, hp, hq⟩ := Line.eq_words_append p
  cases hw : p.words with
  | nil =>
    rw [hw] at hx hp
    obtain rfl := hx.eq_nothing
    cases ho
    subst hp
    exact ⟨_, run_parse_eq_ok.2 ⟨w, _, _, hs, .inl ⟨hq, rfl, rfl⟩⟩⟩
  | cons t ts =>
    have ht : t.isStop = false := Line.not_isStop_of_mem_words (l := p) (by simp [hw])
    rw [hw] at hx hp
    subst hp
    obtain ⟨r, hb, hr⟩ := run_body_append hx ho hq
    exact ⟨_, run_parse_eq_ok.2 ⟨w, _, _, hs, .inr ⟨ht, r, hb, run_endOfLine_eq_ok.2 ⟨hr, rfl⟩⟩⟩⟩

theorem run_parse_of_written_error {e : Fault} (h : Written labels base width s.words x)
    (he : x.settle site memory base = .error e) :
    ∃ r, (parse site (Expr.sum labels) memory base width).run s = .error e r := by
  obtain ⟨w, p, hx, hs⟩ := suffix_of_written h
  obtain ⟨q, hp, hq⟩ := Line.eq_words_append p
  cases hw : p.words with
  | nil =>
    rw [hw] at hx
    obtain rfl := hx.eq_nothing
    cases he
  | cons t ts =>
    have ht : t.isStop = false := Line.not_isStop_of_mem_words (l := p) (by simp [hw])
    rw [hw] at hx hp
    subst hp
    obtain ⟨r, hb⟩ := run_body_append_error hx he hq
    exact ⟨r, run_parse_of_body_error hs ht hb⟩

/-- An operand that is written comes to what its reading settles to. -/
theorem exists_run_parse_eq_ok_iff (h : Written labels base width s.words x) :
    (∃ r, (parse site (Expr.sum labels) memory base width).run s = .ok o r) ↔
      x.settle site memory base = .ok o := by
  constructor
  · rintro ⟨r, hr⟩
    cases hx : x.settle site memory base with
    | ok o' =>
      obtain ⟨r', hr'⟩ := run_parse_of_written h hx
      rw [hr] at hr'
      cases hr'
      rfl
    | error e =>
      obtain ⟨r', hr'⟩ := run_parse_of_written_error h hx
      rw [hr] at hr'
      cases hr'
  · exact run_parse_of_written h

end

end Asm65816.Operand
