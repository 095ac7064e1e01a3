import Asm65816.Numeral
import Asm65816.TokenSource

namespace Asm65816.Expr

open TokenSource

inductive Fault
  | undefined (label : String)
  | malformed (token : Token)
  deriving DecidableEq

def Fault.message : Fault → String
  | undefined label => "undefined label '" ++ label ++ "'"
  | malformed t =>
    "malformed expression at '" ++ t.shown ++ "' @ [" ++ toString t.column ++ "]"

abbrev Evaluator (σ : Type) := EStateM Fault σ Int

variable {σ : Type} [TokenSource σ] (labels : String → Option Int)

def term (s : σ) : EStateM.Result Fault σ Int :=
  let t := (next s).1
  let rest := (next s).2
  match t.kind with
  | .number =>
    match Numeral.value? t.text.toList with
    | some v => .ok v rest
    | none => .error (.malformed t) rest
  | .identifier =>
    match labels t.text with
    | some v => .ok v rest
    | none => .error (.undefined t.text) rest
  | .symbol =>
    if t.isSymbol '-' then
      match term (next s).2 with
      | .ok v rest => .ok (-v) rest
      | .error e rest => .error e rest
    else .error (.malformed t) rest
  | .endOfLine => .error (.malformed t) rest
termination_by remaining s
decreasing_by exact remaining_next s (Token.not_isStop_of_isSymbol ‹_›)

theorem remaining_of_term {s s' : σ} {v : Int} (h : term labels s = .ok v s') :
    remaining s' < remaining s := by
  fun_induction term labels s generalizing v s' with
  | case1 s t rest hk =>
    rw [← (EStateM.Result.ok.inj h).2]
    exact remaining_next s (by simp_all [t, Token.isStop])
  | case3 s t rest hk =>
    rw [← (EStateM.Result.ok.inj h).2]
    exact remaining_next s (by simp_all [t, Token.isStop])
  | case5 s t hk hm w rest hw =>
    rename_i ih
    rw [← (EStateM.Result.ok.inj h).2]
    exact Nat.lt_trans (ih hw) (remaining_next s (Token.not_isStop_of_isSymbol hm))
  | _ => cases h

/-- Goes on from a value with the terms that follow, each behind its sign, and puts back the token
that ends the expression. -/
def terms (v : Int) (s : σ) : EStateM.Result Fault σ Int :=
  let t := (next s).1
  if t.isSymbol '+' then
    match _ : term labels (next s).2 with
    | .ok w rest => terms (v + w) rest
    | .error e rest => .error e rest
  else if t.isSymbol '-' then
    match _ : term labels (next s).2 with
    | .ok w rest => terms (v - w) rest
    | .error e rest => .error e rest
  else .ok v (putBack t (next s).2)
termination_by remaining s
decreasing_by
  all_goals
    exact Nat.lt_trans (remaining_of_term labels ‹_›)
      (remaining_next s (Token.not_isStop_of_isSymbol ‹_›))

def sum : Evaluator σ := fun s ↦
  match term labels s with
  | .ok v rest => terms labels v rest
  | .error e rest => .error e rest

end Asm65816.Expr
