import Asm65816.InstructionSet.Standard
import Asm65816.Lexeme
import Asm65816.Source
import Asm65816.Workspace

namespace Asm65816

/-- A program under assembly. The first pass notes the length of the instruction on each line. -/
structure Assembly extends Workspace where
  origin : UInt32
  sizes : Std.TreeMap Nat Nat

namespace Assembly

inductive Fault
  | line (fault : Asm65816.Fault)
  | unreadable (offset : Nat)
  /-- The instruction on a line is not as long as on the first pass. -/
  | resized (line : String) (before : Option Nat) (after : Nat)
  deriving DecidableEq

def start (origin : UInt32) : Assembly := ⟨.empty origin, origin, ∅⟩

variable (set : InstructionSet)

def measure (pass : Pass) (number : Nat) (text : String) (length : Nat) :
    EStateM Fault Assembly Unit := fun a ↦
  match pass with
  | .first => .ok () { a with sizes := a.sizes.insert number length }
  | .final =>
    if a.sizes[number]? = some length then .ok () a
    else .error (.resized text a.sizes[number]? length) a

def line (pass : Pass) (number : Nat) (text : String) : EStateM Fault Assembly Unit := fun a ↦
  match Line.ofText text with
  | .error offset => .error (.unreadable offset) a
  | .ok tokens =>
    let address := a.image.cursor
    let (label, t, rest) := Source.label tokens
    let w := label.elim a.toWorkspace fun name ↦ a.toWorkspace.define name address.toNat
    let a := { a with toWorkspace := w }
    if t.isStop then .ok () a
    else
      match w.enter set (.ofAddress pass address) t.text rest with
      | .error f => .error (.line f) a
      | .ok (e, w) => measure pass number text e.length { a with toWorkspace := w }

def pass (p : Pass) (source : String) : EStateM Fault Assembly Unit := do
  modify fun a ↦ { a with image := a.image.seek a.origin }
  (Source.lines source).zipIdx.forM fun (text, number) ↦ line set p number text

def passes (source : String) : EStateM Fault Assembly Unit := do
  pass set .first source
  pass set .final source

def output (a : Assembly) : List UInt8 :=
  a.image.slice a.origin (a.image.cursor - a.origin).toNat

end Assembly

def assemble (set : InstructionSet) (source : String) (origin : UInt32) :
    Except Assembly.Fault (List UInt8) :=
  match (Assembly.passes set source).run (.start origin) with
  | .ok _ a => .ok a.output
  | .error f _ => .error f

end Asm65816
