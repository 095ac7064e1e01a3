import Asm65816.Proofs.Operand.Form

namespace Asm65816

/-- The faults of an operand. An expression without a value is one on the final pass only. -/
def Fault.OfOperand (pass : Pass) : Fault → Prop
  | unexpected _ | outOfRange .. | longImmediate | longIndexedY => True
  | expression _ => pass = .final
  | unsupportedMode .. | unknownMnemonic _ => False

namespace Operand

open TokenSource MonadExcept Grammar

def Raises {α : Type} (pass : Pass) (x : Except Fault α) : Prop :=
  ∀ f, x = .error f → f.OfOperand pass

namespace Raises

variable {α β : Type} {pass : Pass} {site : Site} {z : Sized} {a : Address}

theorem ok (a : α) : Raises pass (.ok a : Except Fault α) := by
  intro f h
  cases h

theorem error {f : Fault} (hf : f.OfOperand pass) : Raises pass (.error f : Except Fault α) := by
  intro g h
  cases h
  exact hf

theorem map {x : Except Fault α} (g : α → β) (h : Raises pass x) : Raises pass (x.map g) := by
  cases x with
  | ok a => exact ok _
  | error f => exact error (h f rfl)

theorem bind {x : Except Fault α} {g : α → Except Fault β} (hx : Raises pass x)
    (hg : ∀ a, Raises pass (g a)) : Raises pass (x >>= g) := by
  cases x with
  | ok a => exact hg a
  | error f => exact error (hx f rfl)

theorem check (d : Domain) (v : Int) : Raises pass (d.check v) := by
  by_cases h : d.Holds v
  · rw [Domain.check_of_holds h]
    exact ok v
  · rw [Domain.check_of_not_holds h]
    exact error trivial

theorem operand (b : Branch) (v : Int) : Raises pass (b.operand site v) := by
  cases hp : site.pass with
  | first =>
    rw [Branch.operand_first hp]
    exact ok v
  | final =>
    rw [Branch.operand_final hp]
    exact map _ (check _ _)

theorem fixed (m : Mode) (d : Domain) : Raises pass (z.fixed m d) := map _ (check _ _)

theorem nearOrFar (near far : Mode) : Raises pass (z.nearOrFar near far) := map _ (check _ _)

theorem immediate (base : Mode) : Raises pass (z.immediate base) := by
  unfold Sized.immediate
  dsimp only
  split
  · exact map _ (check _ _)
  · exact map _ (check _ _)
  · exact map _ (check _ _)
  · exact error trivial

theorem address : Raises pass z.address := by
  unfold Sized.address
  refine bind (check _ _) fun v ↦ ?_
  cases z.width with
  | none => exact ok v
  | some w => exact check _ _

theorem ofSized (memory : UInt32 → UInt8) : Raises pass (Address.ofSized site memory z) :=
  map _ address

theorem indexedY : Raises pass a.indexedY := by
  unfold Address.indexedY
  split
  · exact error trivial
  · exact map _ (check _ _)

theorem onStack : Raises pass a.onStack := map _ (check _ _)

end Raises

namespace Grammar

def Refuses {σ α : Type} (pass : Pass) (x : Reader σ α) : Prop :=
  ∀ s f r, x.run s = .error f r → f.OfOperand pass

namespace Refuses

variable {σ α β : Type} {pass : Pass}

theorem pure (a : α) : Refuses pass (pure a : Reader σ α) := by
  intro s f r h
  cases h

theorem throw {f : Fault} (hf : f.OfOperand pass) : Refuses pass (throw f : Reader σ α) := by
  intro s g r h
  cases h
  exact hf

theorem ofExcept {x : Except Fault α} (hx : Raises pass x) :
    Refuses pass (ofExcept x : Reader σ α) := by
  intro s f r h
  exact hx f (run_ofExcept_eq_error.1 h).1

theorem bind {x : Reader σ α} {g : α → Reader σ β} (hx : Refuses pass x)
    (hg : ∀ a, Refuses pass (g a)) : Refuses pass (x >>= g) := by
  intro s f r h
  rcases run_bind_eq_error.1 h with h | ⟨a, t, -, h⟩
  · exact hx s f r h
  · exact hg a t f r h

theorem ite {c : Prop} [Decidable c] {x y : Reader σ α} (hx : Refuses pass x)
    (hy : Refuses pass y) : Refuses pass (if c then x else y) := by
  split <;> assumption

variable [TokenSource σ]

theorem pull : Refuses pass (pull : Reader σ Token) := by
  intro s f r h
  cases h

theorem push (t : Token) : Refuses pass (push t : Reader σ Unit) := by
  intro s f r h
  cases h

theorem expect (p : Token → Bool) : Refuses pass (expect p : Reader σ Token) :=
  bind pull fun _ ↦ ite (pure _) (throw trivial)

theorem symbol (c : Char) : Refuses pass (symbol c : Reader σ Unit) :=
  bind (expect _) fun _ ↦ pure _

theorem letter (c : Char) : Refuses pass (letter c : Reader σ Unit) :=
  bind (expect _) fun _ ↦ pure _

theorem endOfLine : Refuses pass (endOfLine : Reader σ Unit) := bind (expect _) fun _ ↦ pure _

theorem accept (c : Char) : Refuses pass (accept c : Reader σ Bool) :=
  bind pull fun _ ↦ ite (pure _) (bind (push _) fun _ ↦ pure _)

variable {site : Site} {eval : Expr.Evaluator σ} {memory : UInt32 → UInt8} {base : Mode}
variable {width : Option Width} {t : Token}

theorem evaluate : Refuses site.pass (evaluate site eval) := by
  intro s f r h
  cases he : eval.run s with
  | ok v q =>
    rw [run_evaluate_of_ok he] at h
    cases h
  | error e q =>
    cases hp : site.pass with
    | first =>
      rw [run_evaluate_first hp he] at h
      cases h
    | final =>
      rw [run_evaluate_final hp he] at h
      cases h
      exact rfl

theorem constant : Refuses site.pass (constant site eval width t) := by
  unfold Grammar.constant
  split
  · exact bind evaluate fun _ ↦ pure _
  · exact bind (push t) fun _ ↦ bind evaluate fun _ ↦ pure _

theorem address : Refuses site.pass (address site eval width t) := by
  unfold Grammar.address
  split
  · exact bind evaluate fun _ ↦ pure _
  · exact bind (push t) fun _ ↦ bind evaluate fun _ ↦ pure _

theorem branch (b : Branch) : Refuses site.pass (branch site eval b width t) := by
  refine ite (bind (expect _) fun _ ↦ bind constant fun _ ↦ ?_) (bind constant fun _ ↦ ?_)
  · exact bind (ofExcept (.check _ _)) fun _ ↦ pure _
  · exact bind (ofExcept (.operand b _)) fun _ ↦ pure _

theorem blockMove : Refuses site.pass (blockMove site eval width t) := by
  refine bind address fun _ ↦ bind (ofExcept (.check _ _)) fun _ ↦ bind (symbol ',') fun _ ↦ ?_
  refine bind (expect _) fun _ ↦ bind address fun _ ↦ ?_
  exact bind (ofExcept (.check _ _)) fun _ ↦ pure _

theorem immediate : Refuses site.pass (immediate site eval base width) :=
  bind (expect _) fun _ ↦ bind constant fun _ ↦ ofExcept (.immediate base)

theorem indirect : Refuses site.pass (indirect site eval width) := by
  refine bind (expect _) fun _ ↦ bind address fun _ ↦ bind (expect _) fun _ ↦ ite ?_ ?_
  · refine bind (expect _) fun _ ↦ ite ?_ (ite ?_ (throw trivial))
    · exact bind (symbol ')') fun _ ↦ ofExcept (.nearOrFar _ _)
    · refine bind (symbol ')') fun _ ↦ bind (symbol ',') fun _ ↦ ?_
      exact bind (letter 'y') fun _ ↦ ofExcept (.fixed _ _)
  · refine ite (bind (accept ',') fun _ ↦ ite ?_ ?_) (throw trivial)
    · exact bind (letter 'y') fun _ ↦ ofExcept (.fixed _ _)
    · exact ofExcept (.nearOrFar _ _)

theorem indirectLong : Refuses site.pass (indirectLong site eval width) := by
  refine bind (expect _) fun _ ↦ bind address fun _ ↦ bind (symbol ']') fun _ ↦ ?_
  refine bind (accept ',') fun _ ↦ ite ?_ ?_
  · exact bind (letter 'y') fun _ ↦ ofExcept (.fixed _ _)
  · exact ofExcept (.nearOrFar _ _)

theorem direct : Refuses site.pass (direct site eval memory width t) := by
  refine bind address fun _ ↦ bind (ofExcept (.ofSized memory)) fun _ ↦ ?_
  refine bind (accept ',') fun _ ↦ ite (bind (expect _) fun _ ↦ ?_) (pure _)
  refine ite (pure _) (ite ?_ (ite ?_ (throw trivial)))
  · exact bind (ofExcept .indexedY) fun _ ↦ pure _
  · exact bind (ofExcept .onStack) fun _ ↦ pure _

theorem suffix : Refuses pass (suffix width : Reader σ (Option Width × Token)) :=
  bind pull fun _ ↦ ite (bind (expect _) fun _ ↦ bind pull fun _ ↦ pure _) (pure _)

theorem body : Refuses site.pass (body site eval memory base width t) := by
  unfold Grammar.body
  split
  · exact branch .short
  · exact branch .long
  · exact blockMove
  · exact ite immediate (ite indirect (ite indirectLong direct))

theorem parse : Refuses site.pass (parse site eval memory base width) :=
  bind suffix fun _ ↦ ite (pure _) (bind body fun _ ↦ bind endOfLine fun _ ↦ pure _)

end Refuses

end Grammar

end Operand

end Asm65816
