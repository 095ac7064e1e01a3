import Asm65816.Assembly
import Asm65816.Proofs.Encode
import Asm65816.Proofs.Image

namespace Asm65816

structure Statement where
  label : Option String
  word : Token
  operand : Line
  deriving DecidableEq

namespace Statement

def ofLine (l : Line) : Statement :=
  ⟨(Source.label l).1, (Source.label l).2.1, (Source.label l).2.2⟩

def ofText? (text : String) : Option Statement :=
  match Line.ofText text with
  | .ok l => some (ofLine l)
  | .error _ => none

end Statement

namespace Assembly

structure Visit where
  pass : Pass
  number : Nat
  text : String
  assembly : Assembly

namespace Visit

def result? {ε σ α : Type} : EStateM.Result ε σ α → Option α
  | .ok a _ => some a
  | .error .. => none

def state? {ε σ α : Type} : EStateM.Result ε σ α → Option σ
  | .ok _ s => some s
  | .error .. => none

def fault? {ε σ α : Type} : EStateM.Result ε σ α → Option ε
  | .ok .. => none
  | .error f _ => some f

theorem fault?_eq_some_iff {ε σ α : Type} {r : EStateM.Result ε σ α} {f : ε} :
    fault? r = some f ↔ ∃ s, r = .error f s := by
  cases r <;> simp [fault?]

theorem state?_eq_some_iff {ε σ : Type} {r : EStateM.Result ε σ Unit} {s : σ} :
    state? r = some s ↔ r = .ok () s := by
  cases r <;> simp [state?]

theorem exists_eq_ok_of_isSome {ε σ : Type} {r : EStateM.Result ε σ Unit}
    (h : (state? r).isSome = true) : ∃ s, r = .ok () s := by
  obtain ⟨s, hs⟩ := Option.isSome_iff_exists.1 h
  exact ⟨s, state?_eq_some_iff.1 hs⟩

theorem result?_eq_some_iff {ε σ α : Type} {r : EStateM.Result ε σ α} {a : α} :
    result? r = some a ↔ ∃ s, r = .ok a s := by
  cases r <;> simp [result?]

variable (set : InstructionSet) (v : Visit)

def statement? : Option Statement := Statement.ofText? v.text

def label? : Option String := v.statement?.bind Statement.label

def address : UInt32 := v.assembly.image.cursor

def site : Site := .ofAddress v.pass v.address

def workspace : Workspace :=
  v.label?.elim v.assembly.toWorkspace fun name ↦ v.assembly.toWorkspace.define name v.address.toNat

def instruction? : Option (String × Line) :=
  v.statement?.bind fun s ↦ if s.word.isStop then none else some (s.word.text, s.operand)

def operand? : Option (Entry × Operand) :=
  v.instruction?.bind fun (name, line) ↦
    result?
      ((set.operand v.site (Expr.sum v.workspace.label?) v.workspace.image.read name).run line)

def encoding? : Option Encoding :=
  v.instruction?.bind fun (name, line) ↦
    result? ((set.encode v.site (Expr.sum v.workspace.label?) v.workspace.image.read name).run line)

def length : Nat := (v.encoding? set).elim 0 Encoding.length

def bytes : List UInt8 := (v.encoding? set).elim [] Encoding.bytes

def line : EStateM.Result Fault Assembly Unit :=
  Assembly.line set v.pass v.number v.text v.assembly

def next : Assembly where
  image := v.assembly.image.emit (v.bytes set)
  labels := v.workspace.labels
  origin := v.assembly.origin
  sizes :=
    match v.pass, v.encoding? set with
    | .first, some e => v.assembly.sizes.insert v.number e.length
    | _, _ => v.assembly.sizes

variable {set v}

theorem operand?_eq_some {e : Entry} {o : Operand} :
    v.operand? set = some (e, o) ↔
      ∃ name line r, v.instruction? = some (name, line) ∧ set.lookup? name = some e ∧
        (Operand.Grammar.parse v.site (Expr.sum v.workspace.label?) v.workspace.image.read e.base
          e.width).run line = .ok o r := by
  unfold operand?
  cases v.instruction? with
  | none => simp
  | some i =>
    obtain ⟨name, line⟩ := i
    simp only [Option.bind_some, result?_eq_some_iff, InstructionSet.run_operand_eq_ok,
      Option.some.injEq, Prod.mk.injEq]
    constructor
    · intro h
      obtain ⟨r, hl, ho⟩ := h
      exact ⟨name, line, r, ⟨rfl, rfl⟩, hl, ho⟩
    · intro h
      obtain ⟨_, _, r, ⟨rfl, rfl⟩, hl, ho⟩ := h
      exact ⟨r, hl, ho⟩

theorem encoding?_eq_some {en : Encoding} :
    v.encoding? set = some en ↔
      ∃ e o, v.operand? set = some (e, o) ∧ set.join v.pass e o = .ok en := by
  unfold encoding? operand?
  cases v.instruction? with
  | none => simp
  | some i =>
    simp only [Option.bind_some, result?_eq_some_iff, InstructionSet.run_encode_eq_ok]
    constructor
    · intro h
      obtain ⟨r, e, o, ho, hj⟩ := h
      exact ⟨e, o, ⟨r, ho⟩, hj⟩
    · intro h
      obtain ⟨e, o, ⟨r, ho⟩, hj⟩ := h
      exact ⟨r, e, o, ho, hj⟩

theorem length_of_encoding? {en : Encoding} (h : v.encoding? set = some en) :
    0 < en.length ∧ en.length ≤ 4 := by
  obtain ⟨e, o, -, hj⟩ := encoding?_eq_some.1 h
  exact InstructionSet.length_of_join hj

theorem length_le_four : v.length set ≤ 4 := by
  unfold length
  cases h : v.encoding? set with
  | none => exact Nat.zero_le 4
  | some en => exact (length_of_encoding? h).2

theorem length_bytes : (v.bytes set).length = v.length set := by
  unfold bytes length
  cases h : v.encoding? set with
  | none => rfl
  | some en => exact Encoding.length_bytes (Nat.le_succ_of_le (length_of_encoding? h).2)

theorem line_of_statement? {s : Statement} (hs : v.statement? = some s) :
    v.line set =
      if s.word.isStop then .ok () { v.assembly with toWorkspace := v.workspace }
      else
        match v.workspace.enter set v.site s.word.text s.operand with
        | .error f => .error (.line f) { v.assembly with toWorkspace := v.workspace }
        | .ok (e, w) =>
          measure v.pass v.number v.text e.length { v.assembly with toWorkspace := w } := by
  have hl : v.label? = s.label := by rw [label?, hs]; rfl
  unfold statement? Statement.ofText? at hs
  split at hs
  · next l hl' =>
    cases hs
    simp only [line, Assembly.line, hl', workspace, hl]
    rfl
  · cases hs

theorem enter_eq_ok_iff {s : Statement} (hs : v.statement? = some s) (hw : s.word.isStop = false)
    {e : Encoding} {w : Workspace} :
    v.workspace.enter set v.site s.word.text s.operand = .ok (e, w) ↔
      v.encoding? set = some e ∧ w = ⟨v.workspace.image.emit e.bytes, v.workspace.labels⟩ := by
  have hi : v.instruction? = some (s.word.text, s.operand) := by simp [instruction?, hs, hw]
  simp only [encoding?, hi, Option.bind_some, result?_eq_some_iff, Workspace.enter]
  split
  · next e' r hr =>
    constructor
    · intro h
      cases h
      exact ⟨⟨r, hr⟩, rfl⟩
    · intro h
      obtain ⟨⟨r', hr'⟩, rfl⟩ := h
      rw [hr] at hr'
      cases hr'
      rfl
  · next f r hr => simp [hr]

theorem encoding?_of_stop {s : Statement} (hs : v.statement? = some s)
    (hw : s.word.isStop = true) : v.encoding? set = none := by
  simp [encoding?, instruction?, hs, hw]

@[simp] theorem image_workspace : v.workspace.image = v.assembly.image := by
  unfold workspace
  cases v.label? <;> rfl

theorem next_of_encoding?_none (he : v.encoding? set = none) :
    v.next set = { v.assembly with toWorkspace := v.workspace } := by
  have hb : v.bytes set = [] := by rw [bytes, he]; rfl
  unfold next
  rw [hb, he, Image.emit_nil, ← image_workspace]
  cases v.pass <;> rfl

theorem next_of_encoding? {e : Encoding} (he : v.encoding? set = some e) :
    v.next set =
      { v.assembly with
        toWorkspace := ⟨v.workspace.image.emit e.bytes, v.workspace.labels⟩
        sizes :=
          match v.pass with
          | .first => v.assembly.sizes.insert v.number e.length
          | .final => v.assembly.sizes } := by
  have hb : v.bytes set = e.bytes := by rw [bytes, he]; rfl
  unfold next
  rw [hb, he, image_workspace]
  cases v.pass <;> rfl

theorem line_of_stop {s : Statement} (hs : v.statement? = some s) (hw : s.word.isStop = true) :
    v.line set = .ok () (v.next set) := by
  rw [line_of_statement? hs, if_pos hw, next_of_encoding?_none (encoding?_of_stop hs hw)]

theorem statement?_of_encoding? {e : Encoding} (he : v.encoding? set = some e) :
    ∃ s, v.statement? = some s ∧ s.word.isStop = false := by
  cases hs : v.statement? with
  | none => simp [encoding?, instruction?, hs] at he
  | some s =>
    refine ⟨s, rfl, Bool.eq_false_iff.2 fun hw ↦ ?_⟩
    rw [encoding?_of_stop hs hw] at he
    cases he

/-- An instruction passes, but for one on the final pass that is not as long as noted. -/
theorem line_of_encoding? {e : Encoding} (he : v.encoding? set = some e) :
    v.line set =
      if v.pass = .final ∧ v.assembly.sizes[v.number]? ≠ some e.length then
        .error (.resized v.text v.assembly.sizes[v.number]? e.length) (v.next set)
      else .ok () (v.next set) := by
  obtain ⟨s, hs, hw⟩ := statement?_of_encoding? he
  have hn := (enter_eq_ok_iff hs hw).2 ⟨he, rfl⟩
  rw [line_of_statement? hs, if_neg (by simp [hw]), hn, next_of_encoding? he]
  unfold measure
  cases v.pass with
  | first => simp
  | final =>
    by_cases hm : v.assembly.sizes[v.number]? = some e.length
    · simp [hm]
    · simp [hm]

theorem line_eq_ok {b : Assembly} (h : v.line set = .ok () b) :
    b = v.next set ∧ (v.encoding? set).isSome = v.instruction?.isSome ∧
      (v.pass = .final → ∀ e, v.encoding? set = some e →
        v.assembly.sizes[v.number]? = some e.length) := by
  cases he : v.encoding? set with
  | some e =>
    rw [line_of_encoding? he] at h
    obtain ⟨s, hs, hw⟩ := statement?_of_encoding? he
    split at h
    · cases h
    · next hm =>
      cases h
      refine ⟨rfl, by simp [instruction?, hs, hw], fun hp e' he' ↦ ?_⟩
      cases he'
      exact Decidable.not_not.1 fun hne ↦ hm ⟨hp, hne⟩
  | none =>
    cases hs : v.statement? with
    | none =>
      unfold line Assembly.line at h
      unfold statement? Statement.ofText? at hs
      split at hs
      · cases hs
      · next o ho =>
        rw [ho] at h
        cases h
    | some s =>
      cases hw : s.word.isStop with
      | true =>
        rw [line_of_stop hs hw] at h
        cases h
        refine ⟨rfl, by simp [instruction?, hs, hw], ?_⟩
        intro _ e he'
        cases he'
      | false =>
        rw [line_of_statement? hs, if_neg (by simp [hw])] at h
        split at h
        · cases h
        · next e w hn =>
          rw [((enter_eq_ok_iff hs hw).1 hn).1] at he
          cases he

theorem operand?_of_line {b : Assembly} {i : String × Line} (h : v.line set = .ok () b)
    (hi : v.instruction? = some i) :
    ∃ e o en, v.operand? set = some (e, o) ∧ v.encoding? set = some en ∧
      set.join v.pass e o = .ok en := by
  have hsome := (line_eq_ok h).2.1
  rw [hi] at hsome
  obtain ⟨en, hen⟩ := Option.isSome_iff_exists.1 hsome
  obtain ⟨e, o, ho, hj⟩ := encoding?_eq_some.1 hen
  exact ⟨e, o, en, ho, hen, hj⟩

end Visit

end Assembly

end Asm65816
