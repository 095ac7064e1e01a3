import Asm65816.Assembly
import Asm65816.Proofs.Operand.Alike

namespace Asm65816

open TokenSource

/-- A line that counts the tokens that are put back and have not been read again. -/
structure Watched where
  line : Line
  pending : Nat
  /-- The most that have been pending at a time. -/
  most : Nat

instance : TokenSource Watched where
  next w := ((next w.line).1, ⟨(next w.line).2, w.pending - 1, w.most⟩)
  putBack t w := ⟨putBack t w.line, w.pending + 1, max w.most (w.pending + 1)⟩
  remaining w := remaining w.line
  remaining_next w h := remaining_next w.line h

/-- A line with room for a single token in front of it. What is put back takes the place of what
was there. -/
structure Slot where
  back : Option Token
  line : Line

def Slot.toLine (s : Slot) : Line :=
  match s.back with
  | none => s.line
  | some t => putBack t s.line

instance : TokenSource Slot where
  next s :=
    match s.back with
    | none => ((next s.line).1, ⟨none, (next s.line).2⟩)
    | some t => (t, ⟨none, s.line⟩)
  putBack t s := ⟨some t, s.line⟩
  remaining s := remaining s.toLine
  remaining_next s h := by
    obtain ⟨_ | t, line⟩ := s
    · exact remaining_next line h
    · exact Nat.lt_succ_self line.tokens.length

def TokenSource.outcome {ε σ α : Type} : EStateM.Result ε σ α → Except ε α × σ
  | .ok a s => (.ok a, s)
  | .error e s => (.error e, s)

/-- The same reader reads from any source. It keeps at most one token of a line put back at a time,
and a line that has room for one token only gives the same, and leaves the same. -/
def HoldsOne {α : Type} (read : ∀ {σ : Type} [TokenSource σ], σ → α × σ) : Prop :=
  ∀ l : Line,
    (read (⟨l, 0, 0⟩ : Watched)).2.most ≤ 1 ∧
    (read (⟨l, 0, 0⟩ : Watched)).map id Watched.line = read l ∧
    (read (⟨none, l⟩ : Slot)).map id Slot.toLine = read l

namespace Assembly

variable {σ : Type} [TokenSource σ] (set : InstructionSet) (pass : Pass) (number : Nat)
variable (text : String)

def enterFrom (address : UInt32) (name : String) (a : Assembly) (s : σ) :
    EStateM.Result Fault Assembly Unit × σ :=
  match (set.encode (.ofAddress pass address) (Expr.sum a.label?) a.image.read name).run s with
  | .error f rest => (.error (.line f) a, rest)
  | .ok e rest =>
    (measure pass number text e.length { a with image := a.image.emit e.bytes }, rest)

def lineFrom (a : Assembly) (s : σ) : EStateM.Result Fault Assembly Unit × σ :=
  let address := a.image.cursor
  let (label, t, rest) := Source.label s
  let w := label.elim a.toWorkspace fun name ↦ a.toWorkspace.define name address.toNat
  let a := { a with toWorkspace := w }
  if t.isStop then (.ok () a, rest) else enterFrom set pass number text address t.text a rest

theorem line_eq_lineFrom (a : Assembly) :
    line set pass number text a =
      match Line.ofText text with
      | .error offset => .error (.unreadable offset) a
      | .ok l => (lineFrom set pass number text a l).1 := by
  unfold line lineFrom enterFrom Workspace.enter
  cases Line.ofText text with
  | error offset => rfl
  | ok l =>
    dsimp only
    split
    · rfl
    · generalize (set.encode _ _ _ _).run (Source.label l).2.2 = x
      cases x <;> rfl

end Assembly

/-- Two token sources that give the same tokens, as long as at most one is put back. -/
structure Mirror (σ τ : Type) [TokenSource σ] [TokenSource τ] where
  Free : σ → τ → Prop
  Held : σ → τ → Prop
  held_of_free {s : σ} {t : τ} : Free s t → Held s t
  next {s : σ} {t : τ} : Held s t →
    (TokenSource.next s).1 = (TokenSource.next t).1 ∧
      Free (TokenSource.next s).2 (TokenSource.next t).2
  putBack {u : Token} {s : σ} {t : τ} : Free s t →
    Held (TokenSource.putBack u s) (TokenSource.putBack u t)

def Watched.mirror : Mirror Watched Line where
  Free w l := w.line = l ∧ w.pending = 0 ∧ w.most ≤ 1
  Held w l := w.line = l ∧ w.pending ≤ 1 ∧ w.most ≤ 1
  held_of_free h := ⟨h.1, Nat.le_trans (Nat.le_of_eq h.2.1) (Nat.zero_le 1), h.2.2⟩
  next := by
    intro w l h
    obtain ⟨rfl, hpending, hmost⟩ := h
    exact ⟨rfl, rfl, Nat.sub_eq_zero_of_le hpending, hmost⟩
  putBack := by
    intro u w l h
    obtain ⟨rfl, hpending, hmost⟩ := h
    exact ⟨rfl, by simp [putBack, hpending], by simp [putBack, hpending, hmost]⟩

def Slot.mirror : Mirror Slot Line where
  Free s l := s = ⟨none, l⟩
  Held s l := s.toLine = l
  held_of_free h := by
    rw [h]
    rfl
  next := by
    intro s l h
    obtain ⟨_ | t, line⟩ := s
    · cases h
      exact ⟨rfl, rfl⟩
    · cases h
      exact ⟨rfl, rfl⟩
  putBack := by
    intro u s l h
    cases h
    rfl

namespace Mirror

variable {σ τ : Type} [TokenSource σ] [TokenSource τ]

def twins (M : Mirror σ τ) (labels : String → Option Int) : Twins σ τ labels labels where
  Same u v := u = v
  Free := M.Free
  Held := M.Held
  like := by
    intro u v h
    rw [h]
    exact .refl labels v
  held_of_free := M.held_of_free
  next := M.next
  putBack := by
    intro u v s t h
    rw [h]
    exact M.putBack

def Together {α : Type} (M : Mirror σ τ) (x : α × σ) (y : α × τ) : Prop :=
  x.1 = y.1 ∧ M.Held x.2 y.2

variable {M : Mirror σ τ} {s : σ} {t : τ} {labels : String → Option Int} {ε α : Type}
variable (set : InstructionSet) (pass : Pass) (number : Nat) (text : String) (a : Assembly)

theorem outcome {F : ε → ε → Prop} {x : EStateM.Result ε σ α} {y : EStateM.Result ε τ α}
    (h : (M.twins labels).Results F x y) (hF : ∀ e f, F e f → e = f) :
    M.Together (outcome x) (outcome y) := by
  cases h with
  | ok h => exact ⟨rfl, h⟩
  | error he h => exact ⟨congrArg Except.error (hF _ _ he), h⟩

theorem outcome_alike {x : Operand.Grammar.Reader σ α} {y : Operand.Grammar.Reader τ α}
    (hxy : (M.twins labels).Alike M.Held x y) (h : M.Held s t) :
    M.Together (TokenSource.outcome (x.run s)) (TokenSource.outcome (y.run t)) :=
  outcome (hxy s t h) fun _ _ hf ↦ hf.eq fun _ _ h ↦ h

theorem label (h : M.Held s t) :
    (Source.label s).1 = (Source.label t).1 ∧
      M.Together (Source.label s).2 (Source.label t).2 := by
  obtain ⟨hname, hfree⟩ := M.next h
  obtain ⟨hcolon, hfree'⟩ := M.next (M.held_of_free hfree)
  obtain ⟨hbehind, hfree''⟩ := M.next (M.held_of_free hfree')
  simp only [Source.label, ← hname, ← hcolon]
  split
  · split
    · exact ⟨rfl, hbehind, M.held_of_free hfree''⟩
    · exact ⟨rfl, rfl, M.putBack hfree'⟩
  · exact ⟨rfl, rfl, M.held_of_free hfree⟩

theorem enterFrom (address : UInt32) (name : String) (h : M.Held s t) :
    M.Together (a.enterFrom set pass number text address name s)
      (a.enterFrom set pass number text address name t) := by
  have hencode : (M.twins a.label?).Alike M.Held
      (set.encode (.ofAddress pass address) (Expr.sum a.label?) a.image.read name)
      (set.encode (.ofAddress pass address) (Expr.sum a.label?) a.image.read name) :=
    .encode set name
  obtain ⟨hgives, hheld⟩ := outcome_alike hencode h
  unfold Assembly.enterFrom
  revert hgives hheld
  generalize EStateM.run _ s = x
  generalize EStateM.run _ t = y
  intro hgives hheld
  cases x <;> cases y <;> cases hgives
  · exact ⟨rfl, hheld⟩
  · exact ⟨rfl, hheld⟩

theorem lineFrom (h : M.Held s t) :
    M.Together (a.lineFrom set pass number text s) (a.lineFrom set pass number text t) := by
  obtain ⟨hlabel, hname, hheld⟩ := label h
  unfold Assembly.lineFrom
  simp only [← hlabel, ← hname]
  split
  · exact ⟨rfl, hheld⟩
  · exact enterFrom set pass number text _ _ _ hheld

end Mirror

theorem holdsOne_of_mirror {α : Type} {read : ∀ {σ : Type} [TokenSource σ], σ → α × σ}
    (h : ∀ {σ τ : Type} [TokenSource σ] [TokenSource τ] (M : Mirror σ τ) {s : σ} {t : τ},
      M.Held s t → M.Together (read s) (read t)) : HoldsOne read := by
  intro l
  have hheld : Watched.mirror.Held ⟨l, 0, 0⟩ l := ⟨rfl, Nat.zero_le 1, Nat.zero_le 1⟩
  obtain ⟨hgives, hline, -, hmost⟩ := h Watched.mirror hheld
  have hslot : Slot.mirror.Held ⟨none, l⟩ l := rfl
  obtain ⟨hgives', hline'⟩ := h Slot.mirror hslot
  exact ⟨hmost, Prod.ext hgives hline, Prod.ext hgives' hline'⟩

theorem holdsOne_of_alike (labels : String → Option Int) {α : Type}
    {x : ∀ {σ : Type} [TokenSource σ], Operand.Grammar.Reader σ α}
    (h : ∀ {σ τ : Type} [TokenSource σ] [TokenSource τ] (M : Mirror σ τ),
      (M.twins labels).Alike M.Held x x) : HoldsOne (fun s ↦ outcome (x.run s)) :=
  holdsOne_of_mirror fun M _ _ hst ↦ Mirror.outcome_alike (h M) hst

/-- No reader puts a token back in front of another one that has been put back, and none would
notice if there was room for one token only. -/
theorem holdsOne_assembly (set : InstructionSet) (site : Site) (labels : String → Option Int)
    (memory : UInt32 → UInt8) (name : String) (base : Mode) (width : Option Width) (depth : Nat)
    (pass : Pass) (number : Nat) (text : String) (a : Assembly) :
    HoldsOne (fun s ↦ outcome ((Expr.sum labels).run s)) ∧
    HoldsOne (fun s ↦ ((), Operand.skip depth s)) ∧
    HoldsOne (fun s ↦ outcome ((Operand.evaluate site (Expr.sum labels)).run s)) ∧
    HoldsOne (fun s ↦ outcome
      ((Operand.Grammar.parse site (Expr.sum labels) memory base width).run s)) ∧
    HoldsOne (fun s ↦ outcome ((set.encode site (Expr.sum labels) memory name).run s)) ∧
    HoldsOne (a.lineFrom set pass number text) ∧
    Assembly.line set pass number text a =
      match Line.ofText text with
      | .error offset => .error (.unreadable offset) a
      | .ok l => (a.lineFrom set pass number text (⟨none, l⟩ : Slot)).1 := by
  have hline : HoldsOne (a.lineFrom set pass number text) :=
    holdsOne_of_mirror fun M _ _ h ↦ M.lineFrom set pass number text a h
  refine ⟨?_, ?_, ?_, ?_, ?_, hline, ?_⟩
  · refine holdsOne_of_mirror fun M _ _ h ↦ ?_
    have hsum := Twins.sum (P := M.twins labels) h
    exact Mirror.outcome hsum fun _ _ hf ↦ hf.eq fun _ _ h ↦ h
  · exact holdsOne_of_mirror fun M _ _ h ↦ ⟨rfl, (M.twins labels).skip depth h⟩
  · exact holdsOne_of_alike labels fun M ↦ Twins.evaluate
  · exact holdsOne_of_alike labels fun M ↦ Twins.Alike.parse
  · exact holdsOne_of_alike labels fun M ↦ Twins.Alike.encode set name
  · rw [Assembly.line_eq_lineFrom]
    cases Line.ofText text with
    | error offset => rfl
    | ok l => exact congrArg Prod.fst (hline l).2.2.symm

/-- What ends an expression is put back, so that there has to be room for one token. -/
example : (outcome ((Expr.sum fun _ ↦ none).run
    (⟨⟨[⟨.number, "1", 0⟩], 1⟩, 0, 0⟩ : Watched))).2.most = 1 := by
  decide +kernel

end Asm65816
