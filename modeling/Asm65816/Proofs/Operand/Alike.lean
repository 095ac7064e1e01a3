import Asm65816.Encode
import Asm65816.Proofs.Operand.Deferral

namespace Asm65816

open TokenSource Operand

/-- Nothing that reads tokens tells one token from another. Each has labels of its own. -/
structure Token.Like (labels labels' : String → Option Int) (u v : Token) : Prop where
  kind : u.kind = v.kind
  isSymbol (c : Char) : u.isSymbol c = v.isSymbol c
  isLetter (c : Char) : u.isLetter c = v.isLetter c
  suffix : Width.ofSuffix? u.text = Width.ofSuffix? v.text
  number : u.kind = .number → Numeral.value? u.text.toList = Numeral.value? v.text.toList
  label : u.kind = .identifier → labels u.text = labels' v.text

inductive Expr.Fault.Alike (Same : Token → Token → Prop) : Expr.Fault → Expr.Fault → Prop
  | undefined {u v : Token} : Same u v → Alike Same (.undefined u.text) (.undefined v.text)
  | malformed {u v : Token} : Same u v → Alike Same (.malformed u) (.malformed v)

inductive Fault.Alike (Same : Token → Token → Prop) : Fault → Fault → Prop
  | unexpected {u v : Token} : Same u v → Alike Same (.unexpected u) (.unexpected v)
  | expression {e f : Expr.Fault} :
    Expr.Fault.Alike Same e f → Alike Same (.expression e) (.expression f)
  | refl (f : Fault) : Alike Same f f

/-- Two token sources that are read side by side, and what holds between them: as long as no token
is put back, and when at most one is. -/
structure Twins (σ τ : Type) [TokenSource σ] [TokenSource τ]
    (labels labels' : String → Option Int) where
  Same : Token → Token → Prop
  Free : σ → τ → Prop
  Held : σ → τ → Prop
  like {u v : Token} : Same u v → u.Like labels labels' v
  held_of_free {s : σ} {t : τ} : Free s t → Held s t
  next {s : σ} {t : τ} : Held s t →
    Same (TokenSource.next s).1 (TokenSource.next t).1 ∧
      Free (TokenSource.next s).2 (TokenSource.next t).2
  putBack {u v : Token} {s : σ} {t : τ} : Same u v → Free s t →
    Held (TokenSource.putBack u s) (TokenSource.putBack v t)

section

variable {labels labels' : String → Option Int} {u v : Token}

namespace Token.Like

theorem isStop (h : u.Like labels labels' v) : u.isStop = v.isStop := by
  rw [Token.isStop, Token.isStop, h.kind]

theorem opens (h : u.Like labels labels' v) : opens u = opens v := by
  rw [Operand.opens, Operand.opens, h.isSymbol, h.isSymbol]

theorem closes (h : u.Like labels labels' v) : closes u = closes v := by
  rw [Operand.closes, Operand.closes, h.isSymbol, h.isSymbol]

theorem part? (h : u.Like labels labels' v) : Grammar.part? u = Grammar.part? v := by
  rw [Grammar.part?, Grammar.part?, h.isSymbol, h.isSymbol]

theorem mark? (h : u.Like labels labels' v) : Grammar.mark? u = Grammar.mark? v := by
  rw [Grammar.mark?, Grammar.mark?, h.isSymbol, h.isSymbol, h.isSymbol]

theorem refl (labels : String → Option Int) (u : Token) : u.Like labels labels u :=
  ⟨rfl, fun _ ↦ rfl, fun _ ↦ rfl, rfl, fun _ ↦ rfl, fun _ ↦ rfl⟩

end Token.Like

variable {Same : Token → Token → Prop}

theorem Expr.Fault.Alike.eq {e f : Expr.Fault} (h : Expr.Fault.Alike Same e f)
    (hsame : ∀ u v, Same u v → u = v) : e = f := by
  cases h with
  | undefined h => rw [hsame _ _ h]
  | malformed h => rw [hsame _ _ h]

theorem Fault.Alike.eq {e f : Fault} (h : Fault.Alike Same e f)
    (hsame : ∀ u v, Same u v → u = v) : e = f := by
  cases h with
  | unexpected h => rw [hsame _ _ h]
  | expression h => rw [h.eq hsame]
  | refl => rfl

end

namespace Twins

variable {σ τ : Type} [TokenSource σ] [TokenSource τ] {labels labels' : String → Option Int}
variable (P : Twins σ τ labels labels') {ε α β : Type}

inductive Results (F : ε → ε → Prop) : EStateM.Result ε σ α → EStateM.Result ε τ α → Prop
  | ok {a : α} {s : σ} {t : τ} : P.Held s t → Results F (.ok a s) (.ok a t)
  | error {e f : ε} {s : σ} {t : τ} : F e f → P.Held s t → Results F (.error e s) (.error f t)

def Alike (A : σ → τ → Prop) (x : Grammar.Reader σ α) (y : Grammar.Reader τ α) : Prop :=
  ∀ s t, A s t → P.Results (Fault.Alike P.Same) (x.run s) (y.run t)

variable {P} {s : σ} {t : τ}

theorem Results.of_ok {F : ε → ε → Prop} {a : α} {y : EStateM.Result ε τ α}
    (h : P.Results F (.ok a s) y) : ∃ t, y = .ok a t ∧ P.Held s t := by
  cases h with
  | ok h => exact ⟨_, rfl, h⟩

theorem Results.of_error {F : ε → ε → Prop} {e : ε} {y : EStateM.Result ε τ α}
    (h : P.Results F (.error e s) y) : ∃ f t, y = .error f t ∧ F e f ∧ P.Held s t := by
  cases h with
  | error he h => exact ⟨_, _, rfl, he, h⟩

theorem Results.eq {P : Twins σ σ labels labels'} {F : ε → ε → Prop} {x y : EStateM.Result ε σ α}
    (h : P.Results F x y) (hF : ∀ e f, F e f → e = f) (hheld : ∀ s t, P.Held s t → s = t) :
    x = y := by
  cases h with
  | ok h => rw [hheld _ _ h]
  | error he h => rw [hF _ _ he, hheld _ _ h]

theorem term (h : P.Held s t) :
    P.Results (Expr.Fault.Alike P.Same) (Expr.term labels s) (Expr.term labels' t) := by
  induction hn : remaining s using Nat.strongRecOn generalizing s t with
  | ind n ih =>
    obtain ⟨hsame, hfree⟩ := P.next h
    have hheld := P.held_of_free hfree
    have hlike := P.like hsame
    have hstray (hn : (TokenSource.next s).1.kind ≠ .number)
        (hi : (TokenSource.next s).1.kind ≠ .identifier)
        (hm : (TokenSource.next s).1.isSymbol '-' = false) :
        P.Results (Expr.Fault.Alike P.Same) (Expr.term labels s) (Expr.term labels' t) := by
      rw [Expr.term_of_stray hn hi hm, Expr.term_of_stray (hlike.kind ▸ hn) (hlike.kind ▸ hi)
        ((hlike.isSymbol '-').symm.trans hm)]
      exact .error (.malformed hsame) hheld
    cases hk : (TokenSource.next s).1.kind with
    | number =>
      rw [Expr.term_of_number hk, Expr.term_of_number (hlike.kind ▸ hk), ← hlike.number hk]
      cases Numeral.value? (TokenSource.next s).1.text.toList with
      | some v => exact .ok hheld
      | none => exact .error (.malformed hsame) hheld
    | identifier =>
      rw [Expr.term_of_identifier hk, Expr.term_of_identifier (hlike.kind ▸ hk), ← hlike.label hk]
      cases labels (TokenSource.next s).1.text with
      | some v => exact .ok hheld
      | none => exact .error (.undefined hsame) hheld
    | symbol =>
      cases hm : (TokenSource.next s).1.isSymbol '-' with
      | true =>
        have hlt := hn ▸ remaining_next s (Token.not_isStop_of_isSymbol hm)
        rw [Expr.term_of_minus hm, Expr.term_of_minus ((hlike.isSymbol '-').symm.trans hm)]
        have hterm := ih _ hlt hheld rfl
        cases hw : Expr.term labels (TokenSource.next s).2 with
        | ok w r =>
          rw [hw] at hterm
          obtain ⟨r', hw', hrest⟩ := hterm.of_ok
          rw [hw']
          exact .ok hrest
        | error e r =>
          rw [hw] at hterm
          obtain ⟨f, r', hw', hf, hrest⟩ := hterm.of_error
          rw [hw']
          exact .error hf hrest
      | false => exact hstray (by simp [hk]) (by simp [hk]) hm
    | endOfLine =>
      exact hstray (by simp [hk]) (by simp [hk]) (Token.isSymbol_of_kind (by simp [hk]) '-')

theorem terms {v : Int} (h : P.Held s t) :
    P.Results (Expr.Fault.Alike P.Same) (Expr.terms labels v s) (Expr.terms labels' v t) := by
  induction hn : remaining s using Nat.strongRecOn generalizing v s t with
  | ind n ih =>
    obtain ⟨hsame, hfree⟩ := P.next h
    have hplus := (P.like hsame).isSymbol '+'
    have hminus := (P.like hsame).isSymbol '-'
    have hterm := term (P.held_of_free hfree)
    have hmore {c : Char} {w : Int} {r : σ} (hc : (TokenSource.next s).1.isSymbol c = true)
        (hw : Expr.term labels (TokenSource.next s).2 = .ok w r) :
        ∃ r', Expr.term labels' (TokenSource.next t).2 = .ok w r' ∧ ∀ v : Int,
          P.Results (Expr.Fault.Alike P.Same) (Expr.terms labels v r)
            (Expr.terms labels' v r') := by
      have hlt := Nat.lt_trans (Expr.remaining_of_term labels hw)
        (remaining_next s (Token.not_isStop_of_isSymbol hc))
      rw [hw] at hterm
      obtain ⟨r', hw', hrest⟩ := hterm.of_ok
      exact ⟨r', hw', fun v ↦ ih _ (hn ▸ hlt) hrest rfl⟩
    cases hp : (TokenSource.next s).1.isSymbol '+' with
    | true =>
      rw [Expr.terms_of_plus hp, Expr.terms_of_plus (hplus.symm.trans hp)]
      cases hw : Expr.term labels (TokenSource.next s).2 with
      | ok w r =>
        obtain ⟨r', hw', hrest⟩ := hmore hp hw
        rw [hw']
        exact hrest (v + w)
      | error e r =>
        rw [hw] at hterm
        obtain ⟨f, r', hw', hf, hrest⟩ := hterm.of_error
        rw [hw']
        exact .error hf hrest
    | false =>
      cases hm : (TokenSource.next s).1.isSymbol '-' with
      | true =>
        rw [Expr.terms_of_minus hm, Expr.terms_of_minus (hminus.symm.trans hm)]
        cases hw : Expr.term labels (TokenSource.next s).2 with
        | ok w r =>
          obtain ⟨r', hw', hrest⟩ := hmore hm hw
          rw [hw']
          exact hrest (v - w)
        | error e r =>
          rw [hw] at hterm
          obtain ⟨f, r', hw', hf, hrest⟩ := hterm.of_error
          rw [hw']
          exact .error hf hrest
      | false =>
        rw [Expr.terms, Expr.terms.eq_def labels' v t]
        simp only [hp, hm, ← hplus, ← hminus, Bool.false_eq_true, if_false]
        exact .ok (P.putBack hsame hfree)

theorem sum (h : P.Held s t) :
    P.Results (Expr.Fault.Alike P.Same) ((Expr.sum labels).run s) ((Expr.sum labels').run t) := by
  have hterm := term h
  unfold EStateM.run Expr.sum
  cases hw : Expr.term labels s with
  | ok w r =>
    rw [hw] at hterm
    obtain ⟨r', hw', hrest⟩ := hterm.of_ok
    rw [hw']
    exact terms hrest
  | error e r =>
    rw [hw] at hterm
    obtain ⟨f, r', hw', hf, hrest⟩ := hterm.of_error
    rw [hw']
    exact .error hf hrest

theorem skip (d : Nat) (h : P.Held s t) : P.Held (Operand.skip d s) (Operand.skip d t) := by
  induction hn : remaining s using Nat.strongRecOn generalizing d s t with
  | ind n ih =>
    obtain ⟨hsame, hfree⟩ := P.next h
    have hlike := P.like hsame
    rw [Operand.skip, Operand.skip.eq_def d t]
    simp only [← hlike.isStop, ← hlike.opens, ← hlike.closes, ← hlike.isSymbol]
    by_cases hs : (TokenSource.next s).1.isStop = true
    · rw [if_pos hs, if_pos hs]
      exact P.putBack hsame hfree
    · have hlt := hn ▸ remaining_next s (Bool.eq_false_iff.2 hs)
      have hmore (d : Nat) : P.Held (Operand.skip d (TokenSource.next s).2)
          (Operand.skip d (TokenSource.next t).2) := ih _ hlt d (P.held_of_free hfree) rfl
      rw [if_neg hs, if_neg hs]
      split
      · exact hmore (d + 1)
      · split
        · exact P.putBack hsame hfree
        · split
          · exact hmore (d - 1)
          · exact hmore d

variable {site : Site} {memory : UInt32 → UInt8} {base : Mode} {width : Option Width}

theorem evaluate : P.Alike P.Held (Operand.evaluate site (Expr.sum labels))
    (Operand.evaluate site (Expr.sum labels')) := by
  intro s t h
  have hsum := sum h
  cases hw : (Expr.sum labels).run s with
  | ok v r =>
    rw [hw] at hsum
    obtain ⟨r', hw', hrest⟩ := hsum.of_ok
    rw [run_evaluate_of_ok hw, run_evaluate_of_ok hw']
    exact .ok hrest
  | error e r =>
    rw [hw] at hsum
    obtain ⟨f, r', hw', hf, hrest⟩ := hsum.of_error
    cases hp : site.pass with
    | first =>
      rw [run_evaluate_first hp hw, run_evaluate_first hp hw']
      exact .ok (skip 0 hrest)
    | final =>
      rw [run_evaluate_final hp hw, run_evaluate_final hp hw']
      exact .error (.expression hf) hrest

namespace Alike

open Grammar

variable {A : σ → τ → Prop} {u v : Token}

theorem of_free {x : Reader σ α} {y : Reader τ α} (h : P.Alike P.Held x y) : P.Alike P.Free x y :=
  fun s t hst ↦ h s t (P.held_of_free hst)

theorem pure (a : α) : P.Alike P.Held (Pure.pure a) (Pure.pure a) := fun _ _ h ↦ .ok h

theorem throw {e f : Fault} (h : Fault.Alike P.Same e f) :
    P.Alike P.Held (MonadExcept.throw e : Reader σ α) (MonadExcept.throw f) :=
  fun _ _ hst ↦ .error h hst

theorem ofExcept (x : Except Fault α) :
    P.Alike P.Held (MonadExcept.ofExcept x) (MonadExcept.ofExcept x) := by
  cases x with
  | ok a => exact .pure a
  | error f => exact .throw (.refl f)

theorem bind {x : Reader σ α} {y : Reader τ α} {f : α → Reader σ β} {g : α → Reader τ β}
    (h : P.Alike A x y) (hf : ∀ a, P.Alike P.Held (f a) (g a)) :
    P.Alike A (x >>= f) (y >>= g) := by
  intro s t hst
  have hxy := h s t hst
  rw [EStateM.run_bind, EStateM.run_bind]
  cases hx : x.run s with
  | ok a r =>
    rw [hx] at hxy
    obtain ⟨r', hy, hrest⟩ := hxy.of_ok
    rw [hy]
    exact hf a r r' hrest
  | error e r =>
    rw [hx] at hxy
    obtain ⟨e', r', hy, he, hrest⟩ := hxy.of_error
    rw [hy]
    exact .error he hrest

theorem ite {b b' : Bool} (hb : b = b') {x y : Reader σ α} {x' y' : Reader τ α}
    (hx : P.Alike A x x') (hy : P.Alike A y y') :
    P.Alike A (if b then x else y) (if b' then x' else y') := by
  cases hb
  split <;> assumption

theorem push (h : P.Same u v) : P.Alike P.Free (TokenSource.push u) (TokenSource.push v) :=
  fun _ _ hst ↦ .ok (P.putBack h hst)

/-- What goes on from a token finds no other token put back. -/
theorem pull_bind {f : Token → Reader σ α} {g : Token → Reader τ α}
    (h : ∀ u v, P.Same u v → P.Alike P.Free (f u) (g v)) :
    P.Alike P.Held (pull >>= f) (pull >>= g) := by
  intro s t hst
  obtain ⟨hsame, hfree⟩ := P.next hst
  exact h _ _ hsame _ _ hfree

theorem expect_bind {p : Token → Bool} {f : Token → Reader σ α} {g : Token → Reader τ α}
    (hp : ∀ u v, P.Same u v → p u = p v)
    (h : ∀ u v, P.Same u v → P.Alike P.Free (f u) (g v)) :
    P.Alike P.Held (expect p >>= f) (expect p >>= g) := by
  unfold expect
  rw [bind_assoc, bind_assoc]
  refine .pull_bind fun u v huv ↦ ?_
  rw [← hp u v huv]
  split
  · rw [pure_bind, pure_bind]
    exact h u v huv
  · exact fun _ _ hst ↦ .error (.unexpected huv) (P.held_of_free hst)

theorem present_bind {f : Token → Reader σ α} {g : Token → Reader τ α}
    (h : ∀ u v, P.Same u v → P.Alike P.Free (f u) (g v)) :
    P.Alike P.Held (present >>= f) (present >>= g) :=
  .expect_bind (fun _ _ huv ↦ congrArg (!·) (P.like huv).isStop) h

theorem symbol (c : Char) : P.Alike P.Held (Grammar.symbol c) (Grammar.symbol c) :=
  .expect_bind (fun _ _ huv ↦ (P.like huv).isSymbol c) fun _ _ _ ↦ .of_free (.pure ())

theorem letter (c : Char) : P.Alike P.Held (Grammar.letter c) (Grammar.letter c) :=
  .expect_bind (fun _ _ huv ↦ (P.like huv).isLetter c) fun _ _ _ ↦ .of_free (.pure ())

theorem endOfLine : P.Alike P.Held Grammar.endOfLine Grammar.endOfLine :=
  .expect_bind (fun _ _ huv ↦ (P.like huv).isStop) fun _ _ _ ↦ .of_free (.pure ())

theorem accept (c : Char) : P.Alike P.Held (Grammar.accept c) (Grammar.accept c) :=
  .pull_bind fun _ _ huv ↦ .ite ((P.like huv).isSymbol c) (.of_free (.pure true))
    (.bind (.push huv) fun _ ↦ .pure false)

theorem constant (h : P.Same u v) :
    P.Alike P.Free (Grammar.constant site (Expr.sum labels) width u)
      (Grammar.constant site (Expr.sum labels') width v) := by
  unfold Grammar.constant
  rw [← (P.like h).part?]
  cases part? u with
  | some part => exact .of_free (.bind evaluate fun _ ↦ .pure _)
  | none => exact .bind (.push h) fun _ ↦ .bind evaluate fun _ ↦ .pure _

theorem address (h : P.Same u v) :
    P.Alike P.Free (Grammar.address site (Expr.sum labels) width u)
      (Grammar.address site (Expr.sum labels') width v) := by
  unfold Grammar.address
  rw [← (P.like h).mark?]
  cases mark? u with
  | some w => exact .of_free (.bind evaluate fun _ ↦ .pure _)
  | none => exact .bind (.push h) fun _ ↦ .bind evaluate fun _ ↦ .pure _

theorem branch {b : Branch} (h : P.Same u v) :
    P.Alike P.Free (Grammar.branch site (Expr.sum labels) b width u)
      (Grammar.branch site (Expr.sum labels') b width v) := by
  refine .ite ((P.like h).isSymbol '#') (.of_free (.present_bind fun _ _ h ↦ ?_)) ?_
  · exact .bind (.constant h) fun _ ↦ .bind (.ofExcept _) fun _ ↦ .pure _
  · exact .bind (.constant h) fun _ ↦ .bind (.ofExcept _) fun _ ↦ .pure _

theorem blockMove (h : P.Same u v) :
    P.Alike P.Free (Grammar.blockMove site (Expr.sum labels) width u)
      (Grammar.blockMove site (Expr.sum labels') width v) := by
  refine .bind (.address h) fun _ ↦ .bind (.ofExcept _) fun _ ↦ .bind (.symbol ',') fun _ ↦ ?_
  exact .present_bind fun _ _ h ↦ .bind (.address h) fun _ ↦ .bind (.ofExcept _) fun _ ↦ .pure _

theorem immediate :
    P.Alike P.Held (Grammar.immediate site (Expr.sum labels) base width)
      (Grammar.immediate site (Expr.sum labels') base width) :=
  .present_bind fun _ _ h ↦ .bind (.constant h) fun _ ↦ .ofExcept _

theorem indirect :
    P.Alike P.Held (Grammar.indirect site (Expr.sum labels) width)
      (Grammar.indirect site (Expr.sum labels') width) := by
  refine .present_bind fun _ _ h ↦ .bind (.address h) fun _ ↦ .present_bind fun _ _ h ↦ ?_
  refine .of_free (.ite ((P.like h).isSymbol ',') (.present_bind fun _ _ h ↦ ?_) ?_)
  · refine .of_free (.ite ((P.like h).isLetter 'x') (.bind (.symbol ')') fun _ ↦ .ofExcept _) ?_)
    refine .ite ((P.like h).isLetter 's') ?_ (.throw (.unexpected h))
    refine .bind (.symbol ')') fun _ ↦ .bind (.symbol ',') fun _ ↦ ?_
    exact .bind (.letter 'y') fun _ ↦ .ofExcept _
  · refine .ite ((P.like h).isSymbol ')') ?_ (.throw (.unexpected h))
    refine .bind (.accept ',') fun _ ↦ .ite rfl ?_ (.ofExcept _)
    exact .bind (.letter 'y') fun _ ↦ .ofExcept _

theorem indirectLong :
    P.Alike P.Held (Grammar.indirectLong site (Expr.sum labels) width)
      (Grammar.indirectLong site (Expr.sum labels') width) := by
  refine .present_bind fun _ _ h ↦ .bind (.address h) fun _ ↦ .bind (.symbol ']') fun _ ↦ ?_
  refine .bind (.accept ',') fun _ ↦ .ite rfl ?_ (.ofExcept _)
  exact .bind (.letter 'y') fun _ ↦ .ofExcept _

theorem direct (h : P.Same u v) :
    P.Alike P.Free (Grammar.direct site (Expr.sum labels) memory width u)
      (Grammar.direct site (Expr.sum labels') memory width v) := by
  refine .bind (.address h) fun _ ↦ .bind (.ofExcept _) fun _ ↦ .bind (.accept ',') fun _ ↦ ?_
  refine .ite rfl (.present_bind fun _ _ h ↦ .of_free ?_) (.pure _)
  refine .ite ((P.like h).isLetter 'x') (.pure _) (.ite ((P.like h).isLetter 'y') ?_
    (.ite ((P.like h).isLetter 's') ?_ (.throw (.unexpected h))))
  · exact .bind (.ofExcept _) fun _ ↦ .pure _
  · exact .bind (.ofExcept _) fun _ ↦ .pure _

theorem body (h : P.Same u v) :
    P.Alike P.Free (Grammar.body site (Expr.sum labels) memory base width u)
      (Grammar.body site (Expr.sum labels') memory base width v) := by
  have hsymbol := (P.like h).isSymbol
  unfold Grammar.body
  split
  · exact .branch h
  · exact .branch h
  · exact .blockMove h
  · exact .ite (hsymbol '#') (.of_free .immediate) (.ite (hsymbol '(') (.of_free .indirect)
      (.ite (hsymbol '[') (.of_free .indirectLong) (.direct h)))

theorem suffix_bind {f : Option Width × Token → Reader σ α} {g : Option Width × Token → Reader τ α}
    (h : ∀ w u v, P.Same u v → P.Alike P.Free (f (w, u)) (g (w, v))) :
    P.Alike P.Held (suffix width >>= f) (suffix width >>= g) := by
  have hname (u v : Token) (huv : P.Same u v) :
      (u.kind = .identifier && (Width.ofSuffix? u.text).isSome) =
        (v.kind = .identifier && (Width.ofSuffix? v.text).isSome) := by
    rw [(P.like huv).kind, (P.like huv).suffix]
  unfold suffix
  rw [bind_assoc, bind_assoc]
  refine .pull_bind fun u v huv ↦ ?_
  rw [← (P.like huv).isSymbol '.']
  split
  · simp only [bind_assoc, pure_bind]
    refine .of_free (.expect_bind hname fun u v huv ↦ .of_free (.pull_bind fun u' v' huv' ↦ ?_))
    rw [(P.like huv).suffix]
    exact h _ _ _ huv'
  · rw [pure_bind, pure_bind]
    exact h _ _ _ huv

theorem parse :
    P.Alike P.Held (Grammar.parse site (Expr.sum labels) memory base width)
      (Grammar.parse site (Expr.sum labels') memory base width) := by
  refine .suffix_bind fun w u v huv ↦ .ite (P.like huv).isStop (.of_free (.pure _)) ?_
  exact .bind (.body huv) fun _ ↦ .bind .endOfLine fun _ ↦ .pure _

theorem encode (set : InstructionSet) (name : String) :
    P.Alike P.Held (set.encode site (Expr.sum labels) memory name)
      (set.encode site (Expr.sum labels') memory name) := by
  have hoperand : P.Alike P.Held (set.operand site (Expr.sum labels) memory name)
      (set.operand site (Expr.sum labels') memory name) := by
    unfold InstructionSet.operand
    cases set.lookup? name with
    | none => exact .throw (.refl _)
    | some e => exact .bind .parse fun _ ↦ .pure _
  exact .bind hoperand fun _ ↦ .ofExcept _

end Alike

end Twins

end Asm65816
