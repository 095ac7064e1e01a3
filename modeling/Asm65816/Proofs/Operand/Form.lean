import Asm65816.Operand.Grammar

namespace Asm65816.Operand

open TokenSource MonadExcept Grammar

inductive Form
  | target (b : Branch)
  | distance (b : Branch)
  | immediate
  | plain
  | indexedX
  | indexedY
  | onStack
  | indirect
  | indirectY
  | indexedIndirect
  | stackIndirectY
  | indirectLong
  | indirectLongY
  deriving DecidableEq

def Form.settle (site : Site) (memory : UInt32 → UInt8) (base : Mode) (s : Sized) :
    Form → Except Fault Operand
  | target b => (b.operand site s.value).map fun v ↦ ⟨b.mode, v, s.width, false⟩
  | distance b =>
    (b.constants.check s.value).map fun v ↦ ⟨b.mode, b.width.truncate v, s.width, false⟩
  | immediate => s.immediate base
  | plain => (Address.ofSized site memory s).map fun a ↦ a.toOperand a.plain
  | indexedX => (Address.ofSized site memory s).map fun a ↦ a.toOperand a.indexedX
  | indexedY => (Address.ofSized site memory s).bind fun a ↦ a.indexedY.map a.toOperand
  | onStack => (Address.ofSized site memory s).bind fun a ↦ a.onStack.map a.toOperand
  | indirect => s.nearOrFar .indirect .absoluteIndirect
  | indirectY => s.fixed .indirectY .directPage
  | indexedIndirect => s.nearOrFar .indexedIndirect .absoluteIndexedIndirect
  | stackIndirectY => s.fixed .stackRelativeIndirectY .stackOffset
  | indirectLong => s.nearOrFar .indirectLong .absoluteIndirectLong
  | indirectLongY => s.fixed .indirectLongY .directPage

inductive Opening
  | target (b : Branch)
  | distance (b : Branch)
  | immediate
  | bare
  | parenthesis
  | bracket
  deriving DecidableEq

def Form.opening : Form → Opening
  | target b => .target b
  | distance b => .distance b
  | immediate => .immediate
  | plain | indexedX | indexedY | onStack => .bare
  | indirect | indirectY | indexedIndirect | stackIndirectY => .parenthesis
  | indirectLong | indirectLongY => .bracket

structure Lead (σ : Type) where
  start : σ
  take : Int → Sized

variable {σ α β : Type} [TokenSource σ]

namespace Lead

def ofConstant (width : Option Width) (t : Token) (s : σ) : Lead σ :=
  match part? t with
  | some part => ⟨s, fun v ↦ ⟨part v, some .byte⟩⟩
  | none => ⟨putBack t s, fun v ↦ ⟨v, width⟩⟩

def ofAddress (width : Option Width) (t : Token) (s : σ) : Lead σ :=
  match mark? t with
  | some w => ⟨s, fun v ↦ ⟨w.truncate v, some w⟩⟩
  | none => ⟨putBack t s, fun v ↦ ⟨v, width⟩⟩

end Lead

namespace Opening

/-- Block moves have two expressions and are left out. -/
def ofToken? (base : Mode) (t : Token) : Option Opening :=
  match base with
  | .relative => some (if t.isSymbol '#' then .distance .short else .target .short)
  | .relativeLong => some (if t.isSymbol '#' then .distance .long else .target .long)
  | .blockMove => none
  | _ =>
    if t.isSymbol '#' then some .immediate
    else if t.isSymbol '(' then some .parenthesis
    else if t.isSymbol '[' then some .bracket
    else some .bare

def lead? (width : Option Width) (t : Token) (s : σ) : Opening → Option (Lead σ)
  | target _ => some (.ofConstant width t s)
  | bare => some (.ofAddress width t s)
  | distance _ | immediate =>
    if (next s).1.isStop then none else some (.ofConstant width (next s).1 (next s).2)
  | parenthesis | bracket =>
    if (next s).1.isStop then none else some (.ofAddress width (next s).1 (next s).2)

def value (site : Site) (eval : Expr.Evaluator σ) (width : Option Width) (t : Token) :
    Opening → Reader σ Sized
  | target _ => constant site eval width t
  | bare => address site eval width t
  | distance _ | immediate => do constant site eval width (← present)
  | parenthesis | bracket => do address site eval width (← present)

def closing : Opening → Reader σ Form
  | target b => return .target b
  | distance b => return .distance b
  | immediate => return .immediate
  | bare => do
    if ← accept ',' then
      let index ← present
      if index.isLetter 'x' then return .indexedX
      else if index.isLetter 'y' then return .indexedY
      else if index.isLetter 's' then return .onStack
      else throw (.unexpected index)
    else return .plain
  | parenthesis => do
    let t ← present
    if t.isSymbol ',' then
      let index ← present
      if index.isLetter 'x' then
        symbol ')'
        return .indexedIndirect
      else if index.isLetter 's' then
        symbol ')'
        symbol ','
        letter 'y'
        return .stackIndirectY
      else throw (.unexpected index)
    else if t.isSymbol ')' then
      if ← accept ',' then
        letter 'y'
        return .indirectY
      else return .indirect
    else throw (.unexpected t)
  | bracket => do
    symbol ']'
    if ← accept ',' then
      letter 'y'
      return .indirectLongY
    else return .indirectLong

end Opening

namespace Grammar

section

omit [TokenSource σ]

theorem run_bind_eq_ok {x : Reader σ α} {f : α → Reader σ β} {s r : σ} {b : β} :
    (x >>= f).run s = .ok b r ↔ ∃ a t, x.run s = .ok a t ∧ (f a).run t = .ok b r := by
  rw [EStateM.run_bind]
  cases hx : x.run s with
  | ok a t =>
    constructor
    · exact fun h ↦ ⟨a, t, rfl, h⟩
    · intro h'
      obtain ⟨a, t, ⟨⟩, h⟩ := h'
      exact h
  | error f t => simp

theorem run_bind_eq_error {x : Reader σ α} {g : α → Reader σ β} {s r : σ} {f : Fault} :
    (x >>= g).run s = .error f r ↔
      x.run s = .error f r ∨ ∃ a t, x.run s = .ok a t ∧ (g a).run t = .error f r := by
  rw [EStateM.run_bind]
  cases hx : x.run s with
  | ok a t =>
    constructor
    · exact fun h ↦ .inr ⟨a, t, rfl, h⟩
    · intro h'
      obtain ⟨⟨⟩⟩ | ⟨a, t, ⟨⟩, h⟩ := h'
      exact h
  | error f t => simp

theorem run_pure_eq_ok {s r : σ} {a b : α} :
    (pure a : Reader σ α).run s = .ok b r ↔ b = a ∧ r = s := by
  simp [eq_comm]

theorem run_throw_eq_ok {s r : σ} {f : Fault} {a : α} :
    (throw f : Reader σ α).run s = .ok a r ↔ False := by
  simp

theorem return_ofExcept (x : Except Fault α) (g : α → β) :
    (do return g (← ofExcept x) : Reader σ β) = ofExcept (x.map g) := by cases x <;> rfl

theorem run_ofExcept_eq_ok {x : Except Fault α} {s r : σ} {a : α} :
    (ofExcept x : Reader σ α).run s = .ok a r ↔ x = .ok a ∧ r = s := by
  cases x <;> simp [eq_comm]

theorem run_ofExcept_eq_error {x : Except Fault α} {s r : σ} {f : Fault} :
    (ofExcept x : Reader σ α).run s = .error f r ↔ x = .error f ∧ r = s := by
  cases x <;> simp [eq_comm]

end

section

variable {s r : σ}

theorem run_present_eq_ok {t : Token} :
    present.run s = .ok t r ↔ (next s).1.isStop = false ∧ t = (next s).1 ∧ r = (next s).2 := by
  rw [run_present]
  cases (next s).1.isStop <;> simp [eq_comm]

theorem run_symbol_eq_ok {c : Char} {u : Unit} :
    (symbol c).run s = .ok u r ↔ (next s).1.isSymbol c = true ∧ r = (next s).2 := by
  rw [run_symbol]
  cases (next s).1.isSymbol c <;> simp [eq_comm]

theorem run_endOfLine_eq_ok {u : Unit} :
    endOfLine.run s = .ok u r ↔ (next s).1.isStop = true ∧ r = (next s).2 := by
  rw [run_endOfLine]
  cases (next s).1.isStop <;> simp [eq_comm]

theorem run_accept_eq_ok {c : Char} {b : Bool} :
    (accept c).run s = .ok b r ↔
      (next s).1.isSymbol c = b ∧ r = if b then (next s).2 else putBack (next s).1 (next s).2 := by
  rw [run_accept]
  cases (next s).1.isSymbol c <;> cases b <;> simp [eq_comm]

end

variable {site : Site} {eval : Expr.Evaluator σ} {memory : UInt32 → UInt8}
variable {base : Mode} {width : Option Width} {t : Token} {s r : σ} {o : Operand} {z : Sized}
variable {e : Fault}

omit [TokenSource σ] in
theorem run_return_eq_ok {x : Reader σ α} {g : α → β} {s r : σ} {b : β} :
    (do return g (← x) : Reader σ β).run s = .ok b r ↔ ∃ a, x.run s = .ok a r ∧ b = g a := by
  simp only [run_bind_eq_ok, run_pure_eq_ok]
  constructor
  · intro h
    obtain ⟨a, r, ha, rfl, rfl⟩ := h
    exact ⟨a, ha, rfl⟩
  · intro h
    obtain ⟨a, ha, rfl⟩ := h
    exact ⟨a, r, ha, rfl, rfl⟩

theorem run_constant_eq_ok :
    (constant site eval width t).run s = .ok z r ↔
      ∃ v, (evaluate site eval).run (Lead.ofConstant width t s).start = .ok v r ∧
        z = (Lead.ofConstant width t s).take v := by
  unfold constant Lead.ofConstant
  cases part? t with
  | some part => exact run_return_eq_ok
  | none => exact run_return_eq_ok (s := putBack t s)

theorem run_address_eq_ok :
    (address site eval width t).run s = .ok z r ↔
      ∃ v, (evaluate site eval).run (Lead.ofAddress width t s).start = .ok v r ∧
        z = (Lead.ofAddress width t s).take v := by
  unfold address Lead.ofAddress
  cases mark? t with
  | some w => exact run_return_eq_ok
  | none => exact run_return_eq_ok (s := putBack t s)

theorem run_value_eq_ok {x : Opening} :
    (x.value site eval width t).run s = .ok z r ↔
      ∃ l v, x.lead? width t s = some l ∧ (evaluate site eval).run l.start = .ok v r ∧
        z = l.take v := by
  have hp {f : Token → Reader σ Sized} {g : Token → σ → Lead σ}
      (h : ∀ t s, (f t).run s = .ok z r ↔
        ∃ v, (evaluate site eval).run (g t s).start = .ok v r ∧ z = (g t s).take v) :
      (present >>= f).run s = .ok z r ↔
        ∃ l v, (if (next s).1.isStop then none else some (g (next s).1 (next s).2)) = some l ∧
          (evaluate site eval).run l.start = .ok v r ∧ z = l.take v := by
    simp only [run_bind_eq_ok, run_present_eq_ok]
    constructor
    · intro h'
      obtain ⟨t, q, ⟨ht, rfl, rfl⟩, hz⟩ := h'
      obtain ⟨v, hv, hz⟩ := (h _ _).1 hz
      exact ⟨_, v, by simp [ht], hv, hz⟩
    · intro h'
      obtain ⟨l, v, hl, hv, hz⟩ := h'
      split at hl
      · cases hl
      · next ht =>
        cases hl
        exact ⟨_, _, ⟨Bool.eq_false_iff.2 ht, rfl, rfl⟩, (h _ _).2 ⟨v, hv, hz⟩⟩
  cases x with
  | target b => simpa [Opening.value, Opening.lead?] using run_constant_eq_ok
  | bare => simpa [Opening.value, Opening.lead?] using run_address_eq_ok
  | distance b => exact hp fun _ _ ↦ run_constant_eq_ok
  | immediate => exact hp fun _ _ ↦ run_constant_eq_ok
  | parenthesis => exact hp fun _ _ ↦ run_address_eq_ok
  | bracket => exact hp fun _ _ ↦ run_address_eq_ok

theorem run_constant_of_evaluate_error
    (h : (evaluate site eval).run (Lead.ofConstant width t s).start = .error e r) :
    (constant site eval width t).run s = .error e r := by
  unfold Lead.ofConstant at h
  unfold constant
  cases hp : part? t with
  | some part =>
    rw [hp] at h
    exact run_bind_eq_error.2 (.inl h)
  | none =>
    rw [hp] at h
    exact run_bind_eq_error.2 (.inr ⟨(), putBack t s, rfl, run_bind_eq_error.2 (.inl h)⟩)

theorem run_address_of_evaluate_error
    (h : (evaluate site eval).run (Lead.ofAddress width t s).start = .error e r) :
    (address site eval width t).run s = .error e r := by
  unfold Lead.ofAddress at h
  unfold address
  cases hm : mark? t with
  | some w =>
    rw [hm] at h
    exact run_bind_eq_error.2 (.inl h)
  | none =>
    rw [hm] at h
    exact run_bind_eq_error.2 (.inr ⟨(), putBack t s, rfl, run_bind_eq_error.2 (.inl h)⟩)

theorem run_value_of_evaluate_error {x : Opening} {l : Lead σ} (hl : x.lead? width t s = some l)
    (h : (evaluate site eval).run l.start = .error e r) :
    (x.value site eval width t).run s = .error e r := by
  have hp {f : Token → Reader σ Sized} {g : Token → σ → Lead σ}
      (hl : (if (next s).1.isStop then none else some (g (next s).1 (next s).2)) = some l)
      (hf : (evaluate site eval).run (g (next s).1 (next s).2).start = .error e r →
        (f (next s).1).run (next s).2 = .error e r) :
      (present >>= f).run s = .error e r := by
    split at hl
    · cases hl
    · next hs =>
      cases hl
      have hpresent := run_present_eq_ok.2 ⟨Bool.eq_false_iff.2 hs, rfl, rfl⟩
      exact run_bind_eq_error.2 (.inr ⟨_, _, hpresent, hf h⟩)
  cases x with
  | target b =>
    cases hl
    exact run_constant_of_evaluate_error h
  | bare =>
    cases hl
    exact run_address_of_evaluate_error h
  | distance b => exact hp hl run_constant_of_evaluate_error
  | immediate => exact hp hl run_constant_of_evaluate_error
  | parenthesis => exact hp hl run_address_of_evaluate_error
  | bracket => exact hp hl run_address_of_evaluate_error

theorem run_present_of_isStop (h : (next s).1.isStop = true) :
    present.run s = .error (.unexpected (next s).1) (next s).2 := by
  rw [run_present, if_pos h]

def Yields (x : Reader σ α) (P : α → Prop) : Prop := ∀ s a r, x.run s = .ok a r → P a

/-- One reader gives an operand just where another one gives a form that settles to it. -/
def Settles (site : Site) (memory : UInt32 → UInt8) (base : Mode) (z : Sized)
    (x : Reader σ Operand) (y : Reader σ Form) : Prop :=
  ∀ s o r, x.run s = .ok o r ↔ ∃ f, y.run s = .ok f r ∧ f.settle site memory base z = .ok o

def Rejects (site : Site) (memory : UInt32 → UInt8) (base : Mode) (z : Sized)
    (x : Reader σ Operand) (y : Reader σ Form) : Prop :=
  ∀ s f r e, y.run s = .ok f r → f.settle site memory base z = .error e →
    ∃ r', x.run s = .error e r'

def Breaks (x : Reader σ Operand) (y : Reader σ Form) : Prop :=
  ∀ s e r, y.run s = .error e r → x.run s = .error e r

/-- One reader gives the form of an operand, and another one what that form settles to. -/
structure Concludes (site : Site) (memory : UInt32 → UInt8) (base : Mode) (z : Sized)
    (x : Reader σ Operand) (y : Reader σ Form) : Prop where
  settles : Settles site memory base z x y
  rejects : Rejects site memory base z x y

section

omit [TokenSource σ]

variable {P : α → Prop}

theorem Yields.pure {a : α} (h : P a) : Yields (pure a : Reader σ α) P := by
  intro s b r hb
  obtain ⟨rfl, -⟩ := run_pure_eq_ok.1 hb
  exact h

theorem Yields.throw {f : Fault} : Yields (throw f : Reader σ α) P := by
  intro s b r hb
  cases run_throw_eq_ok.1 hb

theorem Yields.bind {x : Reader σ β} {g : β → Reader σ α} (h : ∀ b, Yields (g b) P) :
    Yields (x >>= g) P := by
  intro s a r ha
  obtain ⟨b, t, -, ha⟩ := run_bind_eq_ok.1 ha
  exact h b t a r ha

theorem Yields.ite {c : Prop} [Decidable c] {x y : Reader σ α} (hx : Yields x P)
    (hy : Yields y P) : Yields (if c then x else y) P := by
  split <;> assumption

theorem Breaks.pure {x : Reader σ Operand} {f : Form} : Breaks x (pure f) := by
  intro s e r h
  cases h

theorem Breaks.throw {f : Fault} : Breaks (throw f : Reader σ Operand) (throw f) := by
  intro s e r h
  cases h
  rfl

theorem Breaks.bind {x : Reader σ β} {g : β → Reader σ Operand} {h : β → Reader σ Form}
    (hg : ∀ b, Breaks (g b) (h b)) : Breaks (x >>= g) (x >>= h) := by
  intro s e r he
  rcases run_bind_eq_error.1 he with hx | ⟨b, t, hb, he⟩
  · exact run_bind_eq_error.2 (.inl hx)
  · exact run_bind_eq_error.2 (.inr ⟨b, t, hb, hg b t e r he⟩)

theorem Breaks.ite {c : Prop} [Decidable c] {x x' : Reader σ Operand} {y y' : Reader σ Form}
    (hx : Breaks x y) (hy : Breaks x' y') :
    Breaks (if c then x else x') (if c then y else y') := by
  split <;> assumption

theorem Concludes.pure {f : Form} {x : Reader σ Operand}
    (h : x = ofExcept (f.settle site memory base z)) :
    Concludes site memory base z x (pure f) := by
  subst h
  constructor
  · intro s o r
    rw [run_ofExcept_eq_ok]
    constructor
    · intro h'
      obtain ⟨ho, rfl⟩ := h'
      exact ⟨f, rfl, ho⟩
    · intro h'
      obtain ⟨g, hg, ho⟩ := h'
      obtain ⟨rfl, rfl⟩ := run_pure_eq_ok.1 hg
      exact ⟨ho, rfl⟩
  · intro s g r e hg he
    obtain ⟨rfl, -⟩ := run_pure_eq_ok.1 hg
    exact ⟨s, run_ofExcept_eq_error.2 ⟨he, rfl⟩⟩

theorem Concludes.throw {f g : Fault} :
    Concludes site memory base z (throw f : Reader σ Operand) (throw g) := by
  constructor
  · intro s o r
    simp
  · intro s f r e hf
    cases run_throw_eq_ok.1 hf

theorem Concludes.bind {x : Reader σ β} {g : β → Reader σ Operand} {h : β → Reader σ Form}
    (hg : ∀ b, Concludes site memory base z (g b) (h b)) :
    Concludes site memory base z (x >>= g) (x >>= h) := by
  constructor
  · intro s o r
    simp only [run_bind_eq_ok, (hg _).settles _ _ _]
    constructor
    · intro h'
      obtain ⟨b, t, hb, f, hf, ho⟩ := h'
      exact ⟨f, ⟨b, t, hb, hf⟩, ho⟩
    · intro h'
      obtain ⟨f, ⟨b, t, hb, hf⟩, ho⟩ := h'
      exact ⟨b, t, hb, f, hf, ho⟩
  · intro s f r e hf he
    obtain ⟨b, t, hb, hf⟩ := run_bind_eq_ok.1 hf
    obtain ⟨r', hr⟩ := (hg b).rejects t f r e hf he
    exact ⟨r', run_bind_eq_error.2 (.inr ⟨b, t, hb, hr⟩)⟩

theorem Concludes.ite {c : Prop} [Decidable c] {x x' : Reader σ Operand} {y y' : Reader σ Form}
    (hx : Concludes site memory base z x y) (hy : Concludes site memory base z x' y') :
    Concludes site memory base z (if c then x else x') (if c then y else y') := by
  split <;> assumption

end

theorem yields_closing (x : Opening) : Yields (x.closing : Reader σ Form) (·.opening = x) := by
  cases x with
  | target b => exact .pure rfl
  | distance b => exact .pure rfl
  | immediate => exact .pure rfl
  | bare =>
    refine .bind fun b ↦ .ite (.bind fun index ↦ ?_) (.pure rfl)
    exact .ite (.pure rfl) (.ite (.pure rfl) (.ite (.pure rfl) .throw))
  | parenthesis =>
    refine .bind fun t ↦ .ite (.bind fun index ↦ ?_) (.ite (.bind fun b ↦ ?_) .throw)
    · refine .ite (.bind fun _ ↦ .pure rfl) (.ite (.bind fun _ ↦ .bind fun _ ↦ ?_) .throw)
      exact .bind fun _ ↦ .pure rfl
    · exact .ite (.bind fun _ ↦ .pure rfl) (.pure rfl)
  | bracket =>
    refine .bind fun _ ↦ .bind fun b ↦ .ite (.bind fun _ ↦ .pure rfl) (.pure rfl)

omit [TokenSource σ] in
theorem concludes_of_eq {f : Form} {x : Except Fault Operand}
    (h : f.settle site memory base z = x) :
    Concludes site memory base z (ofExcept x : Reader σ Operand) (pure f) :=
  .pure (by rw [h])

omit [TokenSource σ] in
/-- What a bare expression comes to when its value is no address, whatever stands behind it. -/
theorem settle_bare_of_error {f : Form} {e : Fault} (hf : f.opening = .bare)
    (h : Address.ofSized site memory z = .error e) :
    f.settle site memory base z = .error e := by
  cases f <;> cases hf <;> rw [Form.settle, h] <;> rfl

theorem concludes_direct :
    Concludes site memory base z
      (do
        let a ← ofExcept (Address.ofSized site memory z)
        if ← accept ',' then
          let index ← present
          if index.isLetter 'x' then
            return a.toOperand a.indexedX
          else if index.isLetter 'y' then
            return a.toOperand (← ofExcept a.indexedY)
          else if index.isLetter 's' then
            return a.toOperand (← ofExcept a.onStack)
          else
            throw (.unexpected index)
        else
          return a.toOperand a.plain)
      (Opening.bare.closing : Reader σ Form) := by
  cases h : Address.ofSized site memory z with
  | error e =>
    constructor
    · intro q o r
      constructor
      · intro ho
        cases ho
      · intro h'
        obtain ⟨f, hf, ho⟩ := h'
        rw [settle_bare_of_error (yields_closing .bare q f r hf) h] at ho
        cases ho
    · intro q f r e' hf he
      rw [settle_bare_of_error (yields_closing .bare q f r hf) h] at he
      cases he
      exact ⟨q, rfl⟩
  | ok a =>
    change Concludes site memory base z (pure a >>= _ : Reader σ Operand) _
    rw [pure_bind]
    have hs {f : Form} {x : Except Fault Operand} (hf : f.settle site memory base z = x) :
        Concludes site memory base z (ofExcept x : Reader σ Operand) (pure f) :=
      concludes_of_eq hf
    refine .bind fun b ↦ .ite (.bind fun index ↦ .ite ?_ (.ite ?_ (.ite ?_ .throw))) ?_
    · exact hs (x := .ok _) (by rw [Form.settle, h]; rfl)
    · rw [return_ofExcept]
      exact hs (by rw [Form.settle, h]; rfl)
    · rw [return_ofExcept]
      exact hs (by rw [Form.settle, h]; rfl)
    · exact hs (x := .ok _) (by rw [Form.settle, h]; rfl)

theorem run_value_bind_eq_ok {x : Opening} {g : Sized → Reader σ Operand}
    (h : ∀ z, Concludes site memory base z (g z) x.closing) :
    (x.value site eval width t >>= g).run s = .ok o r ↔
      ∃ z q f, (x.value site eval width t).run s = .ok z q ∧ x.closing.run q = .ok f r ∧
        f.settle site memory base z = .ok o := by
  rw [run_bind_eq_ok]
  refine exists_congr fun z ↦ exists_congr fun q ↦ ?_
  rw [exists_and_left, and_congr_right_iff]
  exact fun _ ↦ (h z).settles q o r

/-- A reader of operands reads a value behind an opening and goes on to a form. It gives up where no
form can be read. From a bare value that is no address it does not go on. -/
def Reads (site : Site) (eval : Expr.Evaluator σ) (memory : UInt32 → UInt8) (base : Mode)
    (width : Option Width) (t : Token) (x : Opening) (y : Reader σ Operand) : Prop :=
  ∃ g : Sized → Reader σ Operand, y = x.value site eval width t >>= g ∧
    (∀ z, Concludes site memory base z (g z) x.closing) ∧
    ∀ z, (x = .bare → ∃ a, Address.ofSized site memory z = .ok a) → Breaks (g z) x.closing

theorem reads_branch {b : Branch} {x : Opening}
    (hx : (if t.isSymbol '#' then .distance b else .target b) = x) :
    Reads site eval memory base width t x (branch site eval b width t) := by
  unfold branch
  split at hx
  · next ht =>
    subst hx
    refine ⟨fun z ↦ do
      let v ← ofExcept (b.constants.check z.value)
      return ⟨b.mode, b.width.truncate v, z.width, false⟩, ?_, fun z ↦ ?_, fun _ _ ↦ .pure⟩
    · rw [if_pos ht, Opening.value, bind_assoc]
    · dsimp only
      rw [return_ofExcept]
      exact concludes_of_eq rfl
  · next ht =>
    subst hx
    refine ⟨fun z ↦ do
      let v ← ofExcept (b.operand site z.value)
      return ⟨b.mode, v, z.width, false⟩, ?_, fun z ↦ ?_, fun _ _ ↦ .pure⟩
    · rw [if_neg ht]
      rfl
    · dsimp only
      rw [return_ofExcept]
      exact concludes_of_eq rfl

theorem reads_immediate :
    Reads site eval memory base width t .immediate (immediate site eval base width) := by
  refine ⟨fun z ↦ ofExcept (z.immediate base), ?_, fun z ↦ concludes_of_eq rfl, fun _ _ ↦ .pure⟩
  rw [Opening.value, bind_assoc]
  rfl

theorem reads_indirect :
    Reads site eval memory base width t .parenthesis (indirect site eval width) := by
  unfold indirect
  refine ⟨_, by rw [Opening.value, bind_assoc], fun z ↦ ?_, fun z _ ↦ ?_⟩
  · refine .bind fun t ↦ .ite (.bind fun index ↦ .ite ?_ (.ite ?_ .throw)) (.ite ?_ .throw)
    · exact .bind fun _ ↦ concludes_of_eq rfl
    · exact .bind fun _ ↦ .bind fun _ ↦ .bind fun _ ↦ concludes_of_eq rfl
    · refine .bind fun b ↦ .ite (.bind fun _ ↦ concludes_of_eq rfl) (concludes_of_eq rfl)
  · refine .bind fun t ↦ .ite (.bind fun index ↦ .ite ?_ (.ite ?_ .throw)) (.ite ?_ .throw)
    · exact .bind fun _ ↦ .pure
    · exact .bind fun _ ↦ .bind fun _ ↦ .bind fun _ ↦ .pure
    · exact .bind fun b ↦ .ite (.bind fun _ ↦ .pure) .pure

theorem reads_indirectLong :
    Reads site eval memory base width t .bracket (indirectLong site eval width) := by
  unfold indirectLong
  refine ⟨_, by rw [Opening.value, bind_assoc], fun z ↦ ?_, fun z _ ↦ ?_⟩
  · refine .bind fun _ ↦ .bind fun b ↦ .ite (.bind fun _ ↦ ?_) ?_
    · exact concludes_of_eq rfl
    · exact concludes_of_eq rfl
  · exact .bind fun _ ↦ .bind fun b ↦ .ite (.bind fun _ ↦ .pure) .pure

theorem reads_direct :
    Reads site eval memory base width t .bare (direct site eval memory width t) := by
  refine ⟨_, rfl, fun _ ↦ concludes_direct, fun z hz ↦ ?_⟩
  obtain ⟨a, ha⟩ := hz rfl
  rw [ha]
  change Breaks (pure a >>= _ : Reader σ Operand) _
  rw [pure_bind]
  exact .bind fun b ↦ .ite (.bind fun index ↦ .ite .pure (.ite .pure (.ite .pure .throw))) .pure

section

variable (h₁ : base ≠ .relative) (h₂ : base ≠ .relativeLong) (h₃ : base ≠ .blockMove)

include h₁ h₂ h₃

omit [TokenSource σ] in
theorem ofToken?_of_ne :
    Opening.ofToken? base t =
      if t.isSymbol '#' then some .immediate
      else if t.isSymbol '(' then some .parenthesis
      else if t.isSymbol '[' then some .bracket
      else some .bare := by
  cases base <;> first | rfl | contradiction

theorem body_of_ne :
    (body site eval memory base width t : Reader σ Operand) =
      if t.isSymbol '#' then immediate site eval base width
      else if t.isSymbol '(' then indirect site eval width
      else if t.isSymbol '[' then indirectLong site eval width
      else direct site eval memory width t := by
  cases base <;> first | rfl | contradiction

end

theorem reads_body {x : Opening} (hx : Opening.ofToken? base t = some x) :
    Reads site eval memory base width t x (body site eval memory base width t) := by
  by_cases h₁ : base = .relative
  · subst h₁
    exact reads_branch (Option.some.inj hx)
  by_cases h₂ : base = .relativeLong
  · subst h₂
    exact reads_branch (Option.some.inj hx)
  by_cases h₃ : base = .blockMove
  · subst h₃
    cases hx
  rw [ofToken?_of_ne h₁ h₂ h₃] at hx
  rw [body_of_ne h₁ h₂ h₃]
  by_cases hi : t.isSymbol '#' = true
  · rw [if_pos hi] at hx ⊢
    cases hx
    exact reads_immediate
  rw [if_neg hi] at hx ⊢
  by_cases hp : t.isSymbol '(' = true
  · rw [if_pos hp] at hx ⊢
    cases hx
    exact reads_indirect
  rw [if_neg hp] at hx ⊢
  by_cases hb : t.isSymbol '[' = true
  · rw [if_pos hb] at hx ⊢
    cases hx
    exact reads_indirectLong
  rw [if_neg hb] at hx ⊢
  cases hx
  exact reads_direct

/-- An operand other than a block move is an expression with what stands around it. -/
theorem run_body_eq_ok {x : Opening} (hx : Opening.ofToken? base t = some x) :
    (body site eval memory base width t).run s = .ok o r ↔
      ∃ z q f, (x.value site eval width t).run s = .ok z q ∧ x.closing.run q = .ok f r ∧
        f.settle site memory base z = .ok o := by
  obtain ⟨g, hb, hg, -⟩ : Reads site eval memory base width t x _ := reads_body hx
  rw [hb]
  exact run_value_bind_eq_ok hg

theorem run_body_of_settle_error {x : Opening} {q : σ} {f : Form} {e : Fault}
    (hx : Opening.ofToken? base t = some x) (hz : (x.value site eval width t).run s = .ok z q)
    (hf : x.closing.run q = .ok f r) (he : f.settle site memory base z = .error e) :
    ∃ r', (body site eval memory base width t).run s = .error e r' := by
  obtain ⟨g, hb, hg, -⟩ : Reads site eval memory base width t x _ := reads_body hx
  obtain ⟨r', hr⟩ := (hg z).rejects q f r e hf he
  rw [hb]
  exact ⟨r', run_bind_eq_error.2 (.inr ⟨z, q, hz, hr⟩)⟩

theorem run_body_of_value_error {x : Opening} {e : Fault}
    (hx : Opening.ofToken? base t = some x) (hz : (x.value site eval width t).run s = .error e r) :
    (body site eval memory base width t).run s = .error e r := by
  obtain ⟨g, hb, -⟩ : Reads site eval memory base width t x (body site eval memory base width t) :=
    reads_body hx
  rw [hb]
  exact run_bind_eq_error.2 (.inl hz)

/-- Where no form can be read behind a value, the operand is refused for the reason that it cannot,
unless the value is a bare one that is no address. -/
theorem run_body_of_closing_error {x : Opening} {q : σ} {e : Fault}
    (hx : Opening.ofToken? base t = some x) (hz : (x.value site eval width t).run s = .ok z q)
    (ha : x = .bare → ∃ a, Address.ofSized site memory z = .ok a)
    (hc : x.closing.run q = .error e r) :
    (body site eval memory base width t).run s = .error e r := by
  obtain ⟨g, hb, -, hg⟩ : Reads site eval memory base width t x _ := reads_body hx
  rw [hb]
  exact run_bind_eq_error.2 (.inr ⟨z, q, hz, hg z ha q e r hc⟩)

theorem run_blockMove_eq_ok :
    (blockMove site eval width t).run s = .ok o r ↔
      ∃ (z : Sized) (q : σ) (z' : Sized), (address site eval width t).run s = .ok z q ∧
        (next q).1.isSymbol ',' = true ∧ (next (next q).2).1.isStop = false ∧
        (address site eval z.width (next (next q).2).1).run (next (next q).2).2 = .ok z' r ∧
        Domain.blockSource.Holds z.value ∧ Domain.blockDestination.Holds z'.value ∧
        o = ⟨.blockMove, z.value + 0x100 * z'.value, z'.width, false⟩ := by
  unfold blockMove
  simp only [run_bind_eq_ok, run_ofExcept_eq_ok, run_symbol_eq_ok,
    run_present_eq_ok, run_pure_eq_ok, Domain.check_eq_ok_iff]
  constructor
  · rintro ⟨z, q, hz, _, _, ⟨⟨hl, rfl⟩, rfl⟩, _, _, ⟨hc, rfl⟩, _, _, ⟨hn, rfl, rfl⟩, z', _, hz',
      _, _, ⟨⟨hh, rfl⟩, rfl⟩, ho, rfl⟩
    exact ⟨z, _, z', hz, hc, hn, hz', hl, hh, ho⟩
  · rintro ⟨z, q, z', hz, hc, hn, hz', hl, hh, ho⟩
    exact ⟨z, q, hz, _, _, ⟨⟨hl, rfl⟩, rfl⟩, (), _, ⟨hc, rfl⟩, _, _, ⟨hn, rfl, rfl⟩, z', _, hz',
      _, _, ⟨⟨hh, rfl⟩, rfl⟩, ho, rfl⟩

theorem mode_of_run_blockMove (h : (blockMove site eval width t).run s = .ok o r) :
    o.mode = .blockMove := by
  obtain ⟨z, q, z', -, -, -, -, -, -, rfl⟩ := run_blockMove_eq_ok.1 h
  rfl

theorem run_parse_eq_ok :
    (parse site eval memory base width).run s = .ok o r ↔
      ∃ w t q, (suffix width).run s = .ok (w, t) q ∧
        (t.isStop = true ∧ o = ⟨base, 0, w, false⟩ ∧ r = q ∨
          t.isStop = false ∧ ∃ q', (body site eval memory base w t).run q = .ok o q' ∧
            endOfLine.run q' = .ok () r) := by
  unfold parse
  rw [run_bind_eq_ok]
  simp only [Prod.exists]
  refine exists_congr fun w ↦ exists_congr fun t ↦ exists_congr fun q ↦ ?_
  refine and_congr_right fun _ ↦ ?_
  cases ht : t.isStop with
  | true => simp [eq_comm]
  | false =>
    simp only [Bool.false_eq_true, if_false, false_and, false_or, true_and, run_bind_eq_ok,
      run_pure_eq_ok]
    constructor
    · intro h
      obtain ⟨o', q', ho, ⟨⟩, r', hr, rfl, rfl⟩ := h
      exact ⟨q', ho, hr⟩
    · intro h
      obtain ⟨q', ho, hr⟩ := h
      exact ⟨o, q', ho, (), r, hr, rfl, rfl⟩

theorem run_parse_of_body_error {w : Option Width} {q : σ} {e : Fault}
    (hs : (suffix width).run s = .ok (w, t) q) (ht : t.isStop = false)
    (hb : (body site eval memory base w t).run q = .error e r) :
    (parse site eval memory base width).run s = .error e r := by
  refine run_bind_eq_error.2 (.inr ⟨(w, t), q, hs, ?_⟩)
  dsimp only
  rw [if_neg (by simp [ht])]
  exact run_bind_eq_error.2 (.inl hb)

end Grammar

end Asm65816.Operand
