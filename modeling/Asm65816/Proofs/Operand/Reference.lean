import Asm65816.Proofs.Operand.Direct

namespace Asm65816

def Line.RefersTo (line : Line) (name : String) : Prop :=
  ∃ front t behind, line.tokens = front ++ t :: behind ∧ t.kind = .identifier ∧ t.text = name ∧
    (front = [] ∨ ∃ dot letter, front = [dot, letter] ∧ dot.isSymbol '.' = true) ∧
    (behind = [] ∨ ∃ comma index, behind = [comma, index] ∧ comma.isSymbol ',' = true ∧
      (index.isLetter 'x' = true ∨ index.isLetter 'y' = true))

namespace Operand

open TokenSource Grammar

variable {site : Site} {labels : String → Option Int} {memory : UInt32 → UInt8} {base : Mode}
variable {width w : Option Width} {t u : Token} {behind : List Token} {stop : UInt32}
variable {line q r : Line} {o : Operand} {z : Int}

theorem run_suffix_of_refersTo {front : List Token}
    (hfront : front = [] ∨ ∃ dot letter, front = [dot, letter] ∧ dot.isSymbol '.' = true)
    (hk : t.kind = .identifier)
    (h : (suffix width).run ⟨front ++ t :: behind, stop⟩ = .ok (w, u) q) :
    u = t ∧ q = ⟨behind, stop⟩ := by
  obtain ⟨v, p, hv, h⟩ := run_bind_eq_ok.1 h
  obtain ⟨rfl, rfl⟩ := run_pull_eq_ok.1 hv
  rcases hfront with rfl | ⟨dot, letter, rfl, hdot⟩
  · have hn : t.isSymbol '.' = false := Token.isSymbol_of_kind (by simp [hk]) '.'
    change (if t.isSymbol '.' then _ else _ : Reader Line _).run _ = _ at h
    rw [if_neg (by simp [hn])] at h
    obtain ⟨heq, rfl⟩ := run_pure_eq_ok.1 h
    cases heq
    exact ⟨rfl, rfl⟩
  · change (if dot.isSymbol '.' then _ else _ : Reader Line _).run _ = _ at h
    rw [if_pos hdot] at h
    obtain ⟨name, p, hn, h⟩ := run_bind_eq_ok.1 h
    obtain ⟨-, rfl, rfl⟩ := run_expect_eq_ok.1 hn
    obtain ⟨t', ht, heq⟩ := run_return_eq_ok.1 h
    obtain ⟨rfl, rfl⟩ := run_pull_eq_ok.1 ht
    exact ⟨(Prod.mk.inj heq).2, rfl⟩

theorem run_sum_of_label (hk : t.kind = .identifier) (hl : labels t.text = some z)
    (hp : (next q).1.isSymbol '+' = false) (hm : (next q).1.isSymbol '-' = false) :
    (Expr.sum labels).run (putBack t q) = .ok z (putBack (next q).1 (next q).2) := by
  have ht : Expr.term labels (putBack t q) = .ok z q := by
    have hv : labels (next (putBack t q)).1.text = some z := hl
    rw [Expr.term_of_identifier hk, hv]
    rfl
  unfold EStateM.run Expr.sum
  rw [ht]
  change Expr.terms labels z q = _
  rw [Expr.terms, if_neg (by simp [hp]), if_neg (by simp [hm])]

theorem part?_of_identifier (hk : t.kind = .identifier) : part? t = none := by
  have hn (c : Char) : t.isSymbol c = false := Token.isSymbol_of_kind (by simp [hk]) c
  simp [part?, hn]

theorem mark?_of_identifier (hk : t.kind = .identifier) : mark? t = none := by
  have hn (c : Char) : t.isSymbol c = false := Token.isSymbol_of_kind (by simp [hk]) c
  simp [mark?, hn]

theorem opening_of_identifier {x : Opening} (hk : t.kind = .identifier)
    (hx : Opening.ofToken? base t = some x) :
    base = .relative ∧ x = .target .short ∨ base = .relativeLong ∧ x = .target .long ∨
      base ∉ [Mode.relative, .relativeLong, .blockMove] ∧ x = .bare := by
  have hn (c : Char) : t.isSymbol c = false := Token.isSymbol_of_kind (by simp [hk]) c
  unfold Opening.ofToken? at hx
  simp only [hn, Bool.false_eq_true, if_false] at hx
  split at hx
  · cases hx
    exact .inl ⟨rfl, rfl⟩
  · cases hx
    exact .inr (.inl ⟨rfl, rfl⟩)
  · cases hx
  · next h₁ h₂ h₃ =>
    cases hx
    refine .inr (.inr ⟨?_, rfl⟩)
    simp only [List.mem_cons, List.not_mem_nil, or_false, not_or]
    exact ⟨h₁, h₂, h₃⟩

theorem form_of_closing {f : Form}
    (hb : behind = [] ∨ ∃ comma index, behind = [comma, index] ∧ comma.isSymbol ',' = true ∧
      (index.isLetter 'x' = true ∨ index.isLetter 'y' = true))
    (h : Opening.bare.closing.run (putBack (next (Line.mk behind stop)).1
      (next (Line.mk behind stop)).2) = .ok f r) :
    f = .plain ∨ f = .indexedX ∨ f = .indexedY := by
  obtain ⟨b, q, hq, h⟩ := run_bind_eq_ok.1 h
  obtain ⟨hc, rfl⟩ := run_accept_eq_ok.1 hq
  cases b with
  | false =>
    obtain ⟨rfl, -⟩ := run_pure_eq_ok.1 h
    exact .inl rfl
  | true =>
    rcases hb with rfl | ⟨comma, index, rfl, -, hi⟩
    · cases hc
    · obtain ⟨i, p, hp, h⟩ := run_bind_eq_ok.1 h
      obtain ⟨-, rfl, rfl⟩ := run_present_eq_ok.1 hp
      change (if Token.isLetter _ 'x' then _ else _ : Reader Line Form).run _ = _ at h
      split at h
      · obtain ⟨rfl, -⟩ := run_pure_eq_ok.1 h
        exact .inr (.inl rfl)
      · next hx =>
        rw [if_pos (hi.resolve_left hx)] at h
        obtain ⟨rfl, -⟩ := run_pure_eq_ok.1 h
        exact .inr (.inr rfl)

/-- What the final pass makes of an operand that is a label. -/
theorem run_parse_of_refersTo {name : String} (hline : line.RefersTo name)
    (hl : labels name = some z) (hb : base ≠ .blockMove)
    (h : (parse site (Expr.sum labels) memory base width).run line = .ok o r) :
    ∃ (f : Form) (w : Option Width), f.settle site memory base ⟨z, w⟩ = .ok o ∧
      (base = .relative ∧ f = .target .short ∨ base = .relativeLong ∧ f = .target .long ∨
        base ∉ [Mode.relative, .relativeLong, .blockMove] ∧
          (f = .plain ∨ f = .indexedX ∨ f = .indexedY)) := by
  obtain ⟨front, t, behind, htokens, hk, rfl, hfront, hbehind⟩ := hline
  obtain ⟨_, stop⟩ := line
  cases htokens
  have hstop : t.isStop = false := by simp [Token.isStop, hk]
  obtain ⟨w, u, q, hs, ⟨hu, -, -⟩ | ⟨-, q', hbody, -⟩⟩ := run_parse_eq_ok.1 h
  · obtain ⟨rfl, -⟩ := run_suffix_of_refersTo hfront hk hs
    rw [hstop] at hu
    cases hu
  · obtain ⟨rfl, rfl⟩ := run_suffix_of_refersTo hfront hk hs
    cases hx : Opening.ofToken? base u with
    | none => exact absurd (Opening.eq_blockMove_of_ofToken? hx) hb
    | some x =>
      obtain ⟨z', p, f, hz, hf, ho⟩ := (run_body_eq_ok hx).1 hbody
      obtain ⟨l, v, hlead, hv, rfl⟩ := run_value_eq_ok.1 hz
      have hlead' : l = ⟨putBack u ⟨behind, stop⟩, fun v ↦ ⟨v, w⟩⟩ := by
        rcases opening_of_identifier hk hx with ⟨-, rfl⟩ | ⟨-, rfl⟩ | ⟨-, rfl⟩ <;> cases hlead <;>
          simp [Lead.ofConstant, Lead.ofAddress, part?_of_identifier hk, mark?_of_identifier hk]
      subst hlead'
      have hsum : (Expr.sum labels).run (putBack u ⟨behind, stop⟩) =
          .ok z (putBack (next (Line.mk behind stop)).1 (next (Line.mk behind stop)).2) := by
        refine run_sum_of_label hk hl ?_ ?_ <;> rcases hbehind with rfl | ⟨c, i, rfl, hc, -⟩
        · rfl
        · exact Token.isSymbol_of_ne hc (by decide)
        · rfl
        · exact Token.isSymbol_of_ne hc (by decide)
      rw [run_evaluate_of_ok hsum] at hv
      cases hv
      refine ⟨f, w, ho, ?_⟩
      rcases opening_of_identifier hk hx with ⟨hbase, rfl⟩ | ⟨hbase, rfl⟩ | ⟨hbase, rfl⟩
      · exact .inl ⟨hbase, (run_pure_eq_ok.1 hf).1⟩
      · exact .inr (.inl ⟨hbase, (run_pure_eq_ok.1 hf).1⟩)
      · exact .inr (.inr ⟨hbase, form_of_closing hbehind hf⟩)

end Operand

end Asm65816
