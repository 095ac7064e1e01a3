import Asm65816.Proofs.Expr.Series
import Asm65816.Proofs.Lexeme

namespace Asm65816.Numeral

open TokenSource

/-- The digits of a number to a radix, with zeros in front of them and their letters in either
case. -/
def Digits (radix n : Nat) (cs : List Char) : Prop :=
  ∃ zeros ds, cs = List.replicate zeros '0' ++ ds ∧ ds.map Char.toLower = Nat.toDigits radix n

inductive Rendering (n : Nat) : List Char → Prop
  | dollar {cs : List Char} : Digits 16 n cs → Rendering n ('$' :: cs)
  | hexadecimal {x : Char} {cs : List Char} :
    x = 'x' ∨ x = 'X' → Digits 16 n cs → Rendering n ('0' :: x :: cs)
  | binary {cs : List Char} : Digits 2 n cs → Rendering n ('%' :: cs)
  | decimal {cs : List Char} : Digits 10 n cs → Rendering n cs

variable {labels : String → Option Int} {radix n : Nat} {cs : List Char} {text : String}
variable {t : Token} {v : Int} {stop : UInt32}

theorem natural?_of_digits (h : Digits radix n cs) (hone : 1 < radix) (hr : radix ≤ 16) :
    natural? radix cs = some n := by
  obtain ⟨zeros, ds, rfl, hds⟩ := h
  have hne : ds ≠ [] := by
    rintro rfl
    exact Nat.toDigits_ne_nil hds.symm
  have hvalues : ds.map (digit? radix) = (Nat.toDigits radix n).map (digit? radix) := by
    rw [← hds, List.map_map]
    exact List.map_congr_left fun c _ ↦ (digit?_toLower radix c).symm
  rw [natural?_zeros (by omega) hne, natural?_congr hvalues, natural?_toDigits hone hr]

theorem Rendering.exists_form (h : Rendering n cs) :
    ∃ f ∈ forms, ∃ ds, cs = f.mark ++ ds ∧ natural? f.radix ds = some n := by
  cases h with
  | dollar h =>
    exact ⟨⟨['$'], 16⟩, by decide, _, rfl, natural?_of_digits h (by decide) (by decide)⟩
  | hexadecimal hx h =>
    rcases hx with rfl | rfl
    · exact ⟨⟨['0', 'x'], 16⟩, by decide, _, rfl, natural?_of_digits h (by decide) (by decide)⟩
    · exact ⟨⟨['0', 'X'], 16⟩, by decide, _, rfl, natural?_of_digits h (by decide) (by decide)⟩
  | binary h =>
    exact ⟨⟨['%'], 2⟩, by decide, _, rfl, natural?_of_digits h (by decide) (by decide)⟩
  | decimal h =>
    exact ⟨⟨[], 10⟩, by decide, _, rfl, natural?_of_digits h (by decide) (by decide)⟩

theorem ofText_of_natural? {f : Form} (hf : f ∈ forms) (htext : text.toList = f.mark ++ cs)
    (h : natural? f.radix cs = some n) :
    Line.ofText text = .ok ⟨[⟨.number, text, 0⟩], UInt32.ofNat text.utf8ByteSize⟩ := by
  have hne : cs ≠ [] := by
    rintro rfl
    cases h
  have hwrites : f.Writes text.toList := ⟨cs, htext, hne, isDigit_of_natural? h⟩
  have hfirst : Lexeme.first? (text.toList ++ []) = some (.number, text.toList, []) :=
    Lexeme.first?_numeral hf hwrites (by decide)
  have hscan : Lexeme.scan 0 text.toList = .ok [⟨.number, text.toList, 0⟩] := by
    rw [← List.append_nil text.toList, Lexeme.scan_of_first? hfirst, Lexeme.scan,
      List.append_nil]
    rfl
  rw [Line.ofText, hscan]
  change Except.ok (Line.mk [⟨.number, String.ofList text.toList, 0⟩] _) = _
  rw [String.ofList_toList]

theorem run_sum_of_value? (hk : t.kind = .number) (hv : value? t.text.toList = some v)
    (stop : UInt32) :
    (Expr.sum labels).run (⟨[t], stop⟩ : Line) = .ok v ⟨[.stop stop], stop⟩ :=
  Expr.run_sum_eq_ok.2 ⟨[t], ⟨[], stop⟩, rfl, .term (.number hk hv), ⟨rfl, rfl⟩, rfl⟩

theorem run_sum_of_value?_none (hk : t.kind = .number) (hv : value? t.text.toList = none)
    (stop : UInt32) :
    (Expr.sum labels).run (⟨[t], stop⟩ : Line) = .error (.malformed t) ⟨[], stop⟩ := by
  have hminus : t.isSymbol '-' = false := Token.isSymbol_of_kind (by simp [hk]) '-'
  have hword : Expr.word? labels t = none := (Expr.word?_of_number hk).trans hv
  have hfails : Expr.Fails labels (⟨[t], stop⟩ : Line) (.ofWord t) ⟨[], stop⟩ :=
    .word (q := ⟨[t], stop⟩) (.first (List.forall_mem_nil _)) hminus hword
  rw [Expr.run_sum_of_fails hfails, Expr.ofWord_of_ne (by simp [hk])]

/-- However a number is written, its text is a single token and is read as the number. A number
that does not fit into 64 bits is refused. -/
theorem ofText_and_sum_of_rendering (h : Rendering n text.toList)
    (labels : String → Option Int) :
    Line.ofText text = .ok ⟨[⟨.number, text, 0⟩], UInt32.ofNat text.utf8ByteSize⟩ ∧
    ∀ stop, (Expr.sum labels).run (⟨[⟨.number, text, 0⟩], stop⟩ : Line) =
      if n ≤ 0x7FFFFFFFFFFFFFFF then .ok (n : Int) ⟨[.stop stop], stop⟩
      else .error (.malformed ⟨.number, text, 0⟩) ⟨[], stop⟩ := by
  obtain ⟨f, hf, cs, htext, hcs⟩ := h.exists_form
  have hfits : Fits n ↔ n ≤ 0x7FFFFFFFFFFFFFFF := by
    unfold Fits
    omega
  have hvalue : value? text.toList = if n ≤ 0x7FFFFFFFFFFFFFFF then some (n : Int) else none := by
    rw [htext, value?_of_natural? hf hcs]
    simp only [hfits]
  refine ⟨ofText_of_natural? hf htext hcs, fun stop ↦ ?_⟩
  by_cases hn : n ≤ 0x7FFFFFFFFFFFFFFF
  · rw [if_pos hn] at hvalue ⊢
    exact run_sum_of_value? (t := ⟨.number, text, 0⟩) rfl hvalue stop
  · rw [if_neg hn] at hvalue ⊢
    exact run_sum_of_value?_none (t := ⟨.number, text, 0⟩) rfl hvalue stop

/-- The greatest number that is read, and the next one, which is not. -/
theorem ofText_and_sum_of_rendering_greatest :
    Line.ofText "$007fFFffFFffFFffFF" = .ok ⟨[⟨.number, "$007fFFffFFffFFffFF", 0⟩], 19⟩ ∧
    (Expr.sum fun _ ↦ none).run (⟨[⟨.number, "$007fFFffFFffFFffFF", 0⟩], 19⟩ : Line) =
      .ok 0x7FFFFFFFFFFFFFFF ⟨[.stop 19], 19⟩ ∧
    (Expr.sum fun _ ↦ none).run (⟨[⟨.number, "09223372036854775808", 0⟩], 20⟩ : Line) =
      .error (.malformed ⟨.number, "09223372036854775808", 0⟩) ⟨[], 20⟩ := by
  have hgreatest : Rendering 0x7FFFFFFFFFFFFFFF "$007fFFffFFffFFffFF".toList :=
    .dollar ⟨2, "7fFFffFFffFFffFF".toList, by decide, by decide +kernel⟩
  have hnext : Rendering 0x8000000000000000 "09223372036854775808".toList :=
    .decimal ⟨1, "9223372036854775808".toList, by decide, by decide +kernel⟩
  obtain ⟨htext, hrun⟩ := ofText_and_sum_of_rendering hgreatest fun _ ↦ none
  exact ⟨htext, hrun 19, (ofText_and_sum_of_rendering hnext fun _ ↦ none).2 20⟩

end Asm65816.Numeral
