import Asm65816.Proofs.Lossless
import Asm65816.Proofs.Operand.Refusal
import Asm65816.Proofs.Operand.Unforced

namespace Asm65816

namespace Operand

open TokenSource MonadExcept Grammar

variable {σ α β : Type}

/-- What the first pass comes to beside the final pass: the same, unless the final pass lacks the
value of an expression. Where the final result has the property, both go on with results of their
own. -/
inductive Concurs (P : α → Prop) :
    EStateM.Result Fault σ α → EStateM.Result Fault σ α → Prop
  | same (x : EStateM.Result Fault σ α) : Concurs P x x
  | valueless (x : EStateM.Result Fault σ α) (e : Expr.Fault) (r : σ) :
    Concurs P x (.error (.expression e) r)
  | apart (a b : α) (r : σ) : P b → Concurs P (.ok a r) (.ok b r)

theorem Concurs.mono {P Q : α → Prop} {x y : EStateM.Result Fault σ α} (h : ∀ a, P a → Q a)
    (hx : Concurs P x y) : Concurs Q x y := by
  cases hx with
  | same => exact .same x
  | valueless _ e r => exact .valueless x e r
  | apart a b r hb => exact .apart a b r (h b hb)

def Vanishes (o : Operand) : Prop := o.isFlexible = true ∧ o.value = 0

def Follows (P : α → Prop) (x y : Reader σ α) : Prop := ∀ s, Concurs P (x.run s) (y.run s)

theorem Concurs.bind {P : α → Prop} {R : β → Prop} {x y : Reader σ α} {f g : α → Reader σ β} {s : σ}
    (hx : Concurs P (x.run s) (y.run s)) (hf : ∀ a, Follows R (f a) (g a))
    (hP : ∀ a b, P b → Follows R (f a) (g b)) :
    Concurs R ((x >>= f).run s) ((y >>= g).run s) := by
  rw [EStateM.run_bind, EStateM.run_bind]
  generalize x.run s = u at hx ⊢
  generalize y.run s = v at hx ⊢
  cases hx with
  | same =>
    cases u with
    | ok a t => exact hf a t
    | error e t => exact .same _
  | valueless _ e r => exact .valueless _ e r
  | apart a b r hb => exact hP a b hb r

namespace Follows

variable {P Q : α → Prop} {R : β → Prop}

theorem refl (x : Reader σ α) : Follows P x x := fun _ ↦ .same _

theorem pure {a b : α} (h : P b) : Follows P (pure a : Reader σ α) (pure b) :=
  fun s ↦ .apart a b s h

theorem bind_of {x y : Reader σ α} {f g : α → Reader σ β} (hx : Follows P x y)
    (hf : ∀ a, Follows R (f a) (g a)) (hP : ∀ a b, P b → Follows R (f a) (g b)) :
    Follows R (x >>= f) (y >>= g) :=
  fun s ↦ (hx s).bind hf hP

theorem bind {x y : Reader σ α} {f g : α → Reader σ β} (hx : Follows (fun _ ↦ False) x y)
    (hf : ∀ a, Follows R (f a) (g a)) : Follows R (x >>= f) (y >>= g) :=
  bind_of hx hf fun _ _ h ↦ h.elim

theorem ite {c : Prop} [Decidable c] {x x' y y' : Reader σ α} (hx : Follows P x y)
    (hx' : Follows P x' y') : Follows P (if c then x else x') (if c then y else y') := by
  split <;> assumption

variable [TokenSource σ] {site site' : Site} {eval : Expr.Evaluator σ}
variable {memory memory' : UInt32 → UInt8} {base : Mode} {width : Option Width} {t : Token}
variable (hp : site.pass = .first) (hp' : site'.pass = .final)

theorem evaluate (hp' : site'.pass = .final) {P : Int → Prop} :
    Follows P (evaluate site eval) (evaluate site' eval) := by
  intro s
  cases h : eval.run s with
  | ok v r =>
    rw [run_evaluate_of_ok h, run_evaluate_of_ok h]
    exact .same _
  | error e r =>
    rw [run_evaluate_final hp' h]
    exact .valueless _ e r

include hp'

theorem constant {P : Sized → Prop} :
    Follows P (constant site eval width t) (constant site' eval width t) := by
  unfold Grammar.constant
  split
  · exact bind (evaluate hp') fun _ ↦ refl _
  · exact bind (refl _) fun _ ↦ bind (evaluate hp') fun _ ↦ refl _

theorem address {P : Sized → Prop} :
    Follows P (address site eval width t) (address site' eval width t) := by
  unfold Grammar.address
  split
  · exact bind (evaluate hp') fun _ ↦ refl _
  · exact bind (refl _) fun _ ↦ bind (evaluate hp') fun _ ↦ refl _

variable {P : Operand → Prop}

theorem branch {b : Branch} (ht : t.isSymbol '#' = true) :
    Follows P (branch site eval b width t) (branch site' eval b width t) := by
  unfold Grammar.branch
  rw [if_pos ht, if_pos ht]
  exact bind (refl _) fun _ ↦ bind (constant hp') fun _ ↦ refl _

theorem blockMove : Follows P (blockMove site eval width t) (blockMove site' eval width t) := by
  refine bind (address hp') fun _ ↦ bind (refl _) fun _ ↦ bind (refl _) fun _ ↦ ?_
  exact bind (refl _) fun _ ↦ bind (address hp') fun _ ↦ refl _

theorem immediate :
    Follows P (immediate site eval base width) (immediate site' eval base width) :=
  bind (refl _) fun _ ↦ bind (constant hp') fun _ ↦ refl _

theorem indirect : Follows P (indirect site eval width) (indirect site' eval width) :=
  bind (refl _) fun _ ↦ bind (address hp') fun _ ↦ refl _

theorem indirectLong : Follows P (indirectLong site eval width) (indirectLong site' eval width) :=
  bind (refl _) fun _ ↦ bind (address hp') fun _ ↦ refl _

variable (hmemory : site'.isForward memory' = false)

include hp hmemory

omit [TokenSource σ] in
/-- Both passes make the same of a value, unless it is a zero whose width is open. -/
theorem ofSized_passes {z : Sized} (hz : z ≠ ⟨0, none⟩) :
    Address.ofSized site memory z = Address.ofSized site' memory' z := by
  have hopen : ¬(z.width = none ∧ z.value = 0) := by
    rintro ⟨hw, hv⟩
    exact hz (by rw [← hv, ← hw])
  unfold Address.ofSized
  cases ha : z.address with
  | error e => rfl
  | ok v =>
    obtain ⟨-, -, rfl⟩ := Sized.address_eq_ok.1 ha
    simp [Except.map, isForward_first hp, hmemory, hp, hp', hopen]

theorem direct :
    Follows Vanishes (direct site eval memory width t) (direct site' eval memory' width t) := by
  refine bind (address hp') fun z ↦ ?_
  by_cases hz : z = ⟨0, none⟩
  · have ha : Address.ofSized site memory ⟨0, none⟩ = .ok ⟨0, none, false, true⟩ :=
      Address.ofSized_eq_ok.2
        ⟨by decide, by simp, by simp [isForward_first hp, isWide_first hp]⟩
    have ha' : Address.ofSized site' memory' ⟨0, none⟩ = .ok ⟨0, none, false, false⟩ :=
      Address.ofSized_eq_ok.2
        ⟨by decide, by simp, by simp [hmemory, isWide_final hp']⟩
    rw [hz, ha, ha']
    change Follows Vanishes (Pure.pure _ >>= _) (Pure.pure _ >>= _)
    rw [pure_bind, pure_bind]
    refine bind (refl _) fun b ↦ ite (bind (refl _) fun index ↦ ?_) (pure ⟨rfl, rfl⟩)
    refine ite (pure ⟨rfl, rfl⟩) (ite ?_ (ite (refl _) (refl _)))
    have hy : Vanishes ⟨.directY, 0, none, false⟩ := ⟨rfl, rfl⟩
    exact pure hy
  · rw [ofSized_passes hp hp' hmemory hz]
    exact bind (refl _) fun _ ↦ refl _

theorem body (ht : (base = .relative ∨ base = .relativeLong) → t.isSymbol '#' = true) :
    Follows Vanishes (body site eval memory base width t)
      (body site' eval memory' base width t) := by
  unfold Grammar.body
  split
  · exact branch hp' (ht (.inl rfl))
  · exact branch hp' (ht (.inr rfl))
  · exact blockMove hp'
  · exact ite (immediate hp') (ite (indirect hp')
      (ite (indirectLong hp') (direct hp hp' hmemory)))

end Follows

section

variable [TokenSource σ] {site site' : Site} {eval : Expr.Evaluator σ}
variable {memory memory' : UInt32 → UInt8} {base : Mode} {width : Option Width} {s : σ}

theorem concurs_parse (hp : site.pass = .first) (hp' : site'.pass = .final)
    (hmemory : site'.isForward memory' = false) (ht : ¬Aims base width s) :
    Concurs (fun o ↦ Vanishes o ∧ ¬IsMissing width s)
      ((parse site eval memory base width).run s)
      ((parse site' eval memory' base width).run s) := by
  unfold parse
  rw [EStateM.run_bind, EStateM.run_bind]
  cases hs : (suffix width).run s with
  | error f q => exact .same _
  | ok a q =>
    obtain ⟨w, t⟩ := a
    cases hstop : t.isStop with
    | true =>
      simp only [hstop]
      exact .same _
    | false =>
      have hmark (hb : base = .relative ∨ base = .relativeLong) : t.isSymbol '#' = true := by
        by_contra h
        exact ht ⟨hb, w, t, q, hs, hstop, Bool.eq_false_iff.2 h⟩
      have hmissing : ¬IsMissing width s := by
        rintro ⟨w', t', q', hs', hstop'⟩
        rw [hs] at hs'
        cases hs'
        rw [hstop] at hstop'
        cases hstop'
      simp only [hstop, Bool.false_eq_true, if_false]
      refine Concurs.mono (fun o ho ↦ ⟨ho, hmissing⟩) ?_
      refine Follows.bind_of (Follows.body hp hp' hmemory hmark) (fun _ ↦ .refl _) ?_ q
      exact fun o o' ho ↦ .bind (.refl _) fun _ ↦ .pure ho

/-- Nothing is filled up where the final pass sees no room that was made. -/
theorem isPadded_of_run_parse {o : Operand} {r : σ} {m : Mnemonic}
    (h : (parse site eval memory base width).run s = .ok o r)
    (hmemory : site.isForward memory = false) : o.isPadded m = false := by
  rcases run_parse_eq_ok_iff_settle h with ⟨hs, -⟩ | ⟨f, z, hz, -⟩
  · exact isPadded_of_not_isSlack hs
  · cases ho : o.isFlexible with
    | true => exact InstructionSet.isPadded_of_forward ((forward_of_isFlexible ho hz).trans hmemory)
    | false => exact isPadded_of_not_isFlexible ho

end

end Operand

namespace InstructionSet

open Operand TokenSource Grammar

variable {σ : Type} [TokenSource σ] {set : InstructionSet} {site site' : Site}
variable {eval : Expr.Evaluator σ} {memory memory' : UInt32 → UInt8} {name : String} {s : σ}

/-- An address is read whose width is open and whose value is zero. -/
def Vanishes (set : InstructionSet) (site : Site) (eval : Expr.Evaluator σ)
    (memory : UInt32 → UInt8) (name : String) (s : σ) : Prop :=
  ∃ e o r, (set.operand site eval memory name).run s = .ok (e, o) r ∧ o.Vanishes ∧
    ¬IsMissing e.width s

theorem vanishes_iff_unforced {labels : String → Option Int} {line : Line}
    (hp : site.pass = .final) :
    set.Vanishes site (Expr.sum labels) memory name line ↔
      ∃ e, set.lookup? name = some e ∧ Unforced labels e.base e.width line.words 0 := by
  constructor
  · rintro ⟨e, o, r, ho, ⟨hf, hv⟩, hm⟩
    obtain ⟨hl, hparse⟩ := run_operand_eq_ok.1 ho
    exact ⟨e, hl, hv ▸ unforced_of_run_parse hp hparse hf hm⟩
  · rintro ⟨e, hl, hx⟩
    obtain ⟨o, r, hparse, hv⟩ : ∃ o r, (parse site (Expr.sum labels) memory e.base e.width).run
        line = .ok o r ∧ o.value = 0 := run_parse_of_unforced_zero hx
    exact ⟨e, o, r, run_operand_eq_ok.2 ⟨hl, hparse⟩, ⟨isFlexible_of_unforced hx hparse, hv⟩,
      not_isMissing_of_unforced hx⟩

/-- Of one operand both passes make one instruction, or the final pass has none and the first pass
holds its place. -/
theorem join_passes {e : Entry} {o : Operand} (ho : o.isPadded e.mnemonic = false) :
    (∃ en, set.join .first e o = .ok en ∧ set.join .final e o = .ok en) ∨
      set.join .final e o = .error (.unsupportedMode e.name o.mode) ∧
        set.join .first e o = .ok ⟨placeholder, o.value, lengthIn o.width o.mode⟩ := by
  unfold join choose
  rw [if_neg (by simp [ho]), if_neg (by simp [ho])]
  cases set.select? e.mnemonic o.mode with
  | some row => exact .inl ⟨_, rfl, rfl⟩
  | none => exact .inr ⟨rfl, rfl⟩

theorem concurs_operand (hp : site.pass = .first) (hp' : site'.pass = .final)
    (hmemory : site'.isForward memory' = false) (htarget : ¬set.Aims name s) :
    Concurs (fun eo ↦ eo.2.Vanishes ∧ ¬IsMissing eo.1.width s)
      ((set.operand site eval memory name).run s)
      ((set.operand site' eval memory' name).run s) := by
  unfold operand
  cases hl : set.lookup? name with
  | none => exact .same _
  | some e =>
    have hparse : Concurs _ ((parse site eval memory e.base e.width).run s)
        ((parse site' eval memory' e.base e.width).run s) :=
      concurs_parse hp hp' hmemory fun ha ↦ htarget ⟨e, hl, ha⟩
    exact hparse.bind (fun _ ↦ .refl _) fun _ _ ho ↦ .pure ho

theorem encode_passes_of_operand {e : Entry} {o : Operand} {r : σ} (hp : site.pass = .first)
    (hp' : site'.pass = .final)
    (h : (set.operand site eval memory name).run s = .ok (e, o) r)
    (h' : (set.operand site' eval memory' name).run s = .ok (e, o) r)
    (ho : o.isPadded e.mnemonic = false) :
    (∃ en, (set.encode site eval memory name).run s = .ok en r ∧
        (set.encode site' eval memory' name).run s = .ok en r) ∨
      (set.encode site' eval memory' name).run s = .error (.unsupportedMode e.name o.mode) r ∧
        (set.encode site eval memory name).run s =
          .ok ⟨placeholder, o.value, lengthIn o.width o.mode⟩ r := by
  rw [run_encode_of_operand h, run_encode_of_operand h', hp, hp']
  rcases join_passes ho with ⟨en, hj, hj'⟩ | ⟨hj', hj⟩
  · rw [hj, hj']
    exact .inl ⟨en, rfl, rfl⟩
  · rw [hj, hj']
    exact .inr ⟨rfl, rfl⟩

/-- A line is resolved on the first pass as on the final one where every expression has a value, no
target is aimed at, no room was made that the final pass would see, and no zero asks for room. What
the final pass then refuses is an instruction that does not exist, and the first pass holds its
place. -/
theorem encode_passes_of_resolved (hp : site.pass = .first) (hp' : site'.pass = .final)
    (hexpr : ∀ f r, (set.encode site' eval memory' name).run s ≠ .error (.expression f) r)
    (htarget : ¬set.Aims name s)
    (hmemory : ¬(memory' (site'.address + 1) = 0 ∧ memory' (site'.address + 2) = 0 ∧
      memory' (site'.address + 3) = 0))
    (hzero : ¬set.Vanishes site' eval memory' name s) :
    ((∀ n m r, (set.encode site' eval memory' name).run s ≠ .error (.unsupportedMode n m) r) →
        (set.encode site eval memory name).run s = (set.encode site' eval memory' name).run s) ∧
      ∀ n m r, (set.encode site' eval memory' name).run s = .error (.unsupportedMode n m) r →
        ∃ e o, (set.operand site' eval memory' name).run s = .ok (e, o) r ∧ n = e.name ∧
          m = o.mode ∧
          (set.encode site eval memory name).run s =
            .ok ⟨placeholder, o.value, lengthIn o.width m⟩ r := by
  have hforward : site'.isForward memory' = false :=
    Bool.eq_false_iff.2 fun h ↦ hmemory (Site.isForward_iff.1 h).2
  have hconcurs : Concurs _ ((set.operand site eval memory name).run s)
      ((set.operand site' eval memory' name).run s) := concurs_operand hp hp' hforward htarget
  generalize hx : (set.operand site eval memory name).run s = x at hconcurs
  generalize hy : (set.operand site' eval memory' name).run s = y at hconcurs
  cases hconcurs with
  | valueless _ f r => exact absurd (run_encode_eq_error.2 (.inl hy)) (hexpr f r)
  | apart _ b r hb => exact absurd ⟨b.1, b.2, r, hy, hb⟩ hzero
  | same =>
    cases x with
    | error f r =>
      have hfirst : (set.encode site eval memory name).run s = .error f r :=
        run_encode_eq_error.2 (.inl hx)
      have hfinal : (set.encode site' eval memory' name).run s = .error f r :=
        run_encode_eq_error.2 (.inl hy)
      refine ⟨fun _ ↦ hfirst.trans hfinal.symm, fun n m q h ↦ ?_⟩
      rw [hfinal] at h
      cases h
      rcases run_operand_eq_error.1 hy with ⟨-, ⟨⟩, -⟩ | ⟨_, -, h⟩
      exact (Refuses.parse _ _ _ h).elim
    | ok eo r =>
      have hpad : eo.2.isPadded eo.1.mnemonic = false :=
        isPadded_of_run_parse (run_operand_eq_ok.1 hy).2 hforward
      rcases encode_passes_of_operand hp hp' hx hy hpad with
        ⟨en, hfirst, hfinal⟩ | ⟨hfinal, hfirst⟩
      · refine ⟨fun _ ↦ hfirst.trans hfinal.symm, fun n m q h ↦ ?_⟩
        rw [hfinal] at h
        cases h
      · refine ⟨fun h ↦ absurd hfinal (h _ _ _), fun n m q h ↦ ?_⟩
        rw [hfinal] at h
        cases h
        exact ⟨eo.1, eo.2, rfl, rfl, rfl, hfirst⟩

def byteConstant : Line :=
  ⟨[⟨.symbol, ".", 4⟩, ⟨.identifier, "b", 5⟩, ⟨.symbol, "#", 7⟩, ⟨.number, "$12", 8⟩], 11⟩

/-- A constant cannot be stored in, but the first pass has room for its byte. -/
theorem encode_passes_byteConstant :
    ∃ r, (standard.encode (.ofAddress .first 0x8000) (Expr.sum fun _ ↦ none) (fun _ ↦ 0)
      "sta").run byteConstant = .ok ⟨0xFF, 0x12, 2⟩ r := by
  have hlookup : standard.lookup? "sta" = some ⟨"sta", .sta, .implied, none⟩ := by decide +kernel
  have hoperand : Assembly.Visit.result? ((standard.operand (.ofAddress .final 0x8000)
      (Expr.sum fun _ ↦ none) (fun _ ↦ 0xFF) "sta").run byteConstant) =
        some (⟨"sta", .sta, .implied, none⟩, ⟨.immediate16, 0x12, some .byte, false⟩) := by
    decide +kernel
  have hrun : Assembly.Visit.fault? ((standard.encode (.ofAddress .final 0x8000)
      (Expr.sum fun _ ↦ none) (fun _ ↦ 0xFF) "sta").run byteConstant) =
        some (.unsupportedMode "sta" .immediate16) := by
    decide +kernel
  obtain ⟨_, ho⟩ := Assembly.Visit.result?_eq_some_iff.1 hoperand
  obtain ⟨r, h⟩ := Assembly.Visit.fault?_eq_some_iff.1 hrun
  have htarget : ¬standard.Aims "sta" byteConstant := by
    rintro ⟨e, hl, hb, -⟩
    rw [hlookup] at hl
    cases hl
    simp at hb
  have hzero : ¬standard.Vanishes (.ofAddress .final 0x8000) (Expr.sum fun _ ↦ none)
      (fun _ ↦ 0xFF) "sta" byteConstant := by
    rintro ⟨e, o, r, ho', ⟨hf, -⟩, -⟩
    rw [ho] at ho'
    cases ho'
    cases hf
  have hexpr (f : Expr.Fault) (q : Line) : (standard.encode (.ofAddress .final 0x8000)
      (Expr.sum fun _ ↦ none) (fun _ ↦ 0xFF) "sta").run byteConstant ≠
        .error (.expression f) q := by
    rw [h]
    simp
  obtain ⟨e, o, ho', -, -, hfirst⟩ : ∃ e o, (standard.operand (.ofAddress .final 0x8000)
      (Expr.sum fun _ ↦ none) (fun _ ↦ 0xFF) "sta").run byteConstant = .ok (e, o) r ∧
        "sta" = e.name ∧ .immediate16 = o.mode ∧
        (standard.encode (.ofAddress .first 0x8000) (Expr.sum fun _ ↦ none) (fun _ ↦ 0)
          "sta").run byteConstant = .ok ⟨placeholder, o.value, lengthIn o.width .immediate16⟩ r :=
    And.right (encode_passes_of_resolved rfl rfl hexpr htarget (by decide) hzero) _ _ _ h
  rw [ho] at ho'
  cases ho'
  exact ⟨_, hfirst⟩

end InstructionSet

end Asm65816
