import Asm65816.Fault
import Asm65816.Site

namespace Asm65816.Operand

open TokenSource

variable {σ : Type} [TokenSource σ]

def opens (t : Token) : Bool := t.isSymbol '(' || t.isSymbol '['

def closes (t : Token) : Bool := t.isSymbol ')' || t.isSymbol ']'

/-- Passes over the rest of an expression inside so many brackets. A comma or a closing bracket
outside of all brackets ends it, and so does the end of the line; what ends it is put back. -/
def skip (depth : Nat) (s : σ) : σ :=
  let t := (next s).1
  let rest := (next s).2
  if t.isStop then putBack t rest
  else if opens t then skip (depth + 1) (next s).2
  else if depth = 0 ∧ (closes t ∨ t.isSymbol ',') then putBack t rest
  else if closes t then skip (depth - 1) (next s).2
  else skip depth (next s).2
termination_by remaining s
decreasing_by all_goals exact remaining_next s (Bool.eq_false_iff.2 ‹¬t.isStop = true›)

/-- Reads the value of an expression. The first pass goes on with zero when it cannot be had. -/
def evaluate (site : Site) (eval : Expr.Evaluator σ) : EStateM Fault σ Int := fun s ↦
  match eval.run s with
  | .ok v rest => .ok v rest
  | .error e rest =>
    match site.pass with
    | .first => .ok 0 (skip 0 rest)
    | .final => .error (.expression e) rest

theorem run_evaluate_of_ok {site : Site} {eval : Expr.Evaluator σ} {s rest : σ} {v : Int}
    (h : eval.run s = .ok v rest) : (evaluate site eval).run s = .ok v rest := by
  change (match eval.run s with | .ok v rest => _ | .error e rest => _) = _
  rw [h]

theorem run_evaluate_first {site : Site} {eval : Expr.Evaluator σ} {s rest : σ} {e : Expr.Fault}
    (hp : site.pass = .first) (h : eval.run s = .error e rest) :
    (evaluate site eval).run s = .ok 0 (skip 0 rest) := by
  change (match eval.run s with | .ok v rest => _ | .error e rest => _) = _
  rw [h, hp]

theorem run_evaluate_final {site : Site} {eval : Expr.Evaluator σ} {s rest : σ} {e : Expr.Fault}
    (hp : site.pass = .final) (h : eval.run s = .error e rest) :
    (evaluate site eval).run s = .error (.expression e) rest := by
  change (match eval.run s with | .ok v rest => _ | .error e rest => _) = _
  rw [h, hp]

end Asm65816.Operand
