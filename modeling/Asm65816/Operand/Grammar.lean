import Asm65816.Branch
import Asm65816.Operand.Sized
import Asm65816.Operand.Value

namespace Asm65816.Operand.Grammar

open TokenSource MonadExcept

variable {σ : Type} [TokenSource σ]

/-- Reads part of an operand. What was read stays read when that fails. -/
abbrev Reader (σ α : Type) := EStateM Fault σ α

def expect (p : Token → Bool) : Reader σ Token := do
  let t ← pull
  if p t then return t else throw (.unexpected t)

def present : Reader σ Token := expect (!·.isStop)

def symbol (c : Char) : Reader σ Unit := do let _ ← expect (·.isSymbol c)

def letter (c : Char) : Reader σ Unit := do let _ ← expect (·.isLetter c)

def endOfLine : Reader σ Unit := do let _ ← expect (·.isStop)

def accept (c : Char) : Reader σ Bool := do
  let t ← pull
  if t.isSymbol c then return true
  push t
  return false

def part? (t : Token) : Option (Int → Int) :=
  if t.isSymbol '<' then some fun v ↦ v % 0x100
  else if t.isSymbol '>' then some fun v ↦ v / 0x100 % 0x100
  else none

def mark? (t : Token) : Option Width :=
  if t.isSymbol '<' then some .byte
  else if t.isSymbol '!' then some .word
  else if t.isSymbol '>' then some .long
  else none

variable (site : Site) (eval : Expr.Evaluator σ) (memory : UInt32 → UInt8)

def constant (width : Option Width) (t : Token) : Reader σ Sized :=
  match part? t with
  | some part => do return ⟨part (← evaluate site eval), some .byte⟩
  | none => do
    push t
    return ⟨← evaluate site eval, width⟩

def address (width : Option Width) (t : Token) : Reader σ Sized :=
  match mark? t with
  | some w => do return ⟨w.truncate (← evaluate site eval), some w⟩
  | none => do
    push t
    return ⟨← evaluate site eval, width⟩

def branch (b : Branch) (width : Option Width) (t : Token) : Reader σ Operand := do
  if t.isSymbol '#' then
    let s ← constant site eval width (← present)
    let v ← ofExcept (b.constants.check s.value)
    return ⟨b.mode, b.width.truncate v, s.width, false⟩
  else
    let s ← constant site eval width t
    let v ← ofExcept (b.operand site s.value)
    return ⟨b.mode, v, s.width, false⟩

def blockMove (width : Option Width) (t : Token) : Reader σ Operand := do
  let source ← address site eval width t
  let low ← ofExcept (Domain.blockSource.check source.value)
  symbol ','
  let destination ← address site eval source.width (← present)
  let high ← ofExcept (Domain.blockDestination.check destination.value)
  return ⟨.blockMove, low + 0x100 * high, destination.width, false⟩

def immediate (base : Mode) (width : Option Width) : Reader σ Operand := do
  let s ← constant site eval width (← present)
  ofExcept (s.immediate base)

def indirect (width : Option Width) : Reader σ Operand := do
  let s ← address site eval width (← present)
  let t ← present
  if t.isSymbol ',' then
    let index ← present
    if index.isLetter 'x' then
      symbol ')'
      ofExcept (s.nearOrFar .indexedIndirect .absoluteIndexedIndirect)
    else if index.isLetter 's' then
      symbol ')'
      symbol ','
      letter 'y'
      ofExcept (s.fixed .stackRelativeIndirectY .stackOffset)
    else
      throw (.unexpected index)
  else if t.isSymbol ')' then
    if ← accept ',' then
      letter 'y'
      ofExcept (s.fixed .indirectY .directPage)
    else
      ofExcept (s.nearOrFar .indirect .absoluteIndirect)
  else
    throw (.unexpected t)

def indirectLong (width : Option Width) : Reader σ Operand := do
  let s ← address site eval width (← present)
  symbol ']'
  if ← accept ',' then
    letter 'y'
    ofExcept (s.fixed .indirectLongY .directPage)
  else
    ofExcept (s.nearOrFar .indirectLong .absoluteIndirectLong)

def direct (width : Option Width) (t : Token) : Reader σ Operand := do
  let s ← address site eval width t
  let a ← ofExcept (Address.ofSized site memory s)
  if ← accept ',' then
    let index ← present
    if index.isLetter 'x' then
      return a.toOperand a.indexedX
    else if index.isLetter 'y' then
      return a.toOperand (← ofExcept a.indexedY)
    else if index.isLetter 's' then
      return a.toOperand (← ofExcept a.onStack)
    else
      throw (.unexpected index)
  else
    return a.toOperand a.plain

/-- A suffix in front of the operand overrides the width that the mnemonic has of its own. Gives
the width in force and the token behind. -/
def suffix (width : Option Width) : Reader σ (Option Width × Token) := do
  let t ← pull
  if t.isSymbol '.' then
    let name ← expect fun t ↦ t.kind = .identifier && (Width.ofSuffix? t.text).isSome
    return (Width.ofSuffix? name.text, ← pull)
  else
    return (width, t)

def body (base : Mode) (width : Option Width) (t : Token) : Reader σ Operand :=
  match base with
  | .relative => branch site eval .short width t
  | .relativeLong => branch site eval .long width t
  | .blockMove => blockMove site eval width t
  | base =>
    if t.isSymbol '#' then immediate site eval base width
    else if t.isSymbol '(' then indirect site eval width
    else if t.isSymbol '[' then indirectLong site eval width
    else direct site eval memory width t

def parse (base : Mode) (width : Option Width) : Reader σ Operand := do
  let (width, t) ← suffix width
  if t.isStop then
    return ⟨base, 0, width, false⟩
  else
    let o ← body site eval memory base width t
    endOfLine
    return o

section

variable {σ α β : Type} (s : σ)

@[simp] theorem run_map (f : α → β) (x : Reader σ α) :
    (f <$> x).run s =
      match x.run s with
      | .ok a s => .ok (f a) s
      | .error e s => .error e s := by
  cases h : x.run s <;> simp [← bind_pure_comp, h]

@[simp] theorem run_throw (f : Fault) : (throw f : Reader σ α).run s = .error f s := rfl

@[simp] theorem run_ofExcept_ok (a : α) : (ofExcept (.ok a) : Reader σ α).run s = .ok a s := rfl

@[simp] theorem run_ofExcept_error (f : Fault) :
    (ofExcept (.error f) : Reader σ α).run s = .error f s := rfl

end

section

variable (s : σ)

theorem run_expect (p : Token → Bool) :
    (expect p).run s =
      if p (next s).1 then .ok (next s).1 (next s).2
      else .error (.unexpected (next s).1) (next s).2 := by
  cases h : p (next s).1 <;> simp [expect, h]

theorem run_present :
    present.run s =
      if (next s).1.isStop then .error (.unexpected (next s).1) (next s).2
      else .ok (next s).1 (next s).2 := by
  cases h : (next s).1.isStop <;> simp [present, run_expect, h]

theorem run_symbol (c : Char) :
    (symbol c).run s =
      if (next s).1.isSymbol c then .ok () (next s).2
      else .error (.unexpected (next s).1) (next s).2 := by
  cases h : (next s).1.isSymbol c <;> simp [symbol, run_expect, h]

theorem run_letter (c : Char) :
    (letter c).run s =
      if (next s).1.isLetter c then .ok () (next s).2
      else .error (.unexpected (next s).1) (next s).2 := by
  cases h : (next s).1.isLetter c <;> simp [letter, run_expect, h]

theorem run_endOfLine :
    endOfLine.run s =
      if (next s).1.isStop then .ok () (next s).2
      else .error (.unexpected (next s).1) (next s).2 := by
  cases h : (next s).1.isStop <;> simp [endOfLine, run_expect, h]

theorem run_accept (c : Char) :
    (accept c).run s =
      if (next s).1.isSymbol c then .ok true (next s).2
      else .ok false (putBack (next s).1 (next s).2) := by
  cases h : (next s).1.isSymbol c <;> simp [accept, h]

end

end Asm65816.Operand.Grammar
