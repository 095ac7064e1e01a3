import Asm65816.Domain
import Asm65816.Expr
import Asm65816.Mode

namespace Asm65816

inductive Fault
  | unexpected (token : Token)
  | outOfRange (domain : Domain) (value : Int)
  | longImmediate
  | longIndexedY
  | unsupportedMode (name : String) (mode : Mode)
  | unknownMnemonic (name : String)
  | expression (fault : Expr.Fault)
  deriving DecidableEq

namespace Fault

def text : Fault → String
  | unexpected t => "unexpected '" ++ t.shown ++ "' @ [" ++ toString t.column ++ "]"
  | outOfRange d v =>
    d.name ++ " out of range: " ++ toString v ++ " not in " ++ toString d.least ++ "..=" ++
      toString d.greatest
  | longImmediate => "cannot force long value in immediate mode"
  | longIndexedY => "absolute long not supported for Y indexing"
  | unsupportedMode name mode =>
    "no instruction found for addressing mode " ++ mode.spelling ++ " (" ++ name ++ ")"
  | unknownMnemonic name => "unknown instruction '" ++ name ++ "'"
  | expression e => e.message

def message (f : Fault) : String := "ERROR: " ++ f.text

def code : Fault → String
  | unexpected _ => "w65816::syntax"
  | outOfRange .. => "w65816::range"
  | longImmediate | longIndexedY => "w65816::width"
  | unsupportedMode .. => "w65816::mode"
  | unknownMnemonic _ => "w65816::mnemonic"
  | expression _ => "w65816::expression"

def help? : Fault → Option String
  | outOfRange .branch _ => some "use brl or a jmp for targets outside -128..=127"
  | outOfRange .directPage _ =>
    some "drop the .b suffix or use '!'/'>' to select a wider address"
  | longImmediate | longIndexedY => some "remove the .l suffix"
  | unsupportedMode .. =>
    some "check the operand syntax against the instruction's addressing modes"
  | _ => none

end Fault

def Domain.check (d : Domain) (v : Int) : Except Fault Int :=
  if d.Holds v then .ok v else .error (.outOfRange d v)

theorem Domain.check_eq_ok_iff {d : Domain} {v w : Int} :
    d.check v = .ok w ↔ d.Holds v ∧ w = v := by
  simp only [check]
  split <;> simp_all [eq_comm]

theorem Domain.check_of_holds {d : Domain} {v : Int} (h : d.Holds v) : d.check v = .ok v :=
  if_pos h

theorem Domain.check_of_not_holds {d : Domain} {v : Int} (h : ¬ d.Holds v) :
    d.check v = .error (.outOfRange d v) := if_neg h

end Asm65816
