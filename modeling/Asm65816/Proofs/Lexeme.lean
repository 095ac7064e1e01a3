import Asm65816.Lexeme
import Asm65816.Proofs.Numeral

namespace Asm65816.Lexeme

abbrev Word := Token.Kind × List Char

def render (ws : List Word) : List Char := ws.flatMap (·.2)

def placed (start : Nat) : List Word → List Lexeme
  | [] => []
  | (kind, text) :: ws => ⟨kind, text, start⟩ :: placed (start + text.length) ws

/-- Words that are told apart although nothing separates them. -/
def Apart : List Word → Prop
  | [] => True
  | w :: ws => first? (w.2 ++ render ws) = some (w.1, w.2, render ws) ∧ Apart ws

instance decidableApart : (ws : List Word) → Decidable (Apart ws)
  | [] => inferInstanceAs (Decidable True)
  | _ :: ws =>
    have := decidableApart ws
    inferInstanceAs (Decidable (_ ∧ Apart ws))

def Breaks (cs : List Char) : Prop :=
  ∀ c, cs.head? = some c → isNameRest c = false ∧ Numeral.isDigit 16 c = false

instance : (cs : List Char) → Decidable (Breaks cs)
  | [] => isTrue fun _ h ↦ nomatch h
  | c :: _ =>
    decidable_of_iff (isNameRest c = false ∧ Numeral.isDigit 16 c = false)
      ⟨fun h _ hc ↦ Option.some.inj hc ▸ h, fun h ↦ h c rfl⟩

variable {c : Char} {cs text rest : List Char} {k : Token.Kind} {ws : List Word} {start : Nat}

@[simp] theorem render_cons (w : Word) (ws : List Word) : render (w :: ws) = w.2 ++ render ws := rfl

theorem placed_append (start : Nat) (vs ws : List Word) :
    placed start (vs ++ ws) = placed start vs ++ placed (start + (render vs).length) ws := by
  induction vs generalizing start with
  | nil => rfl
  | cons v vs ih =>
    simp only [List.cons_append, placed, ih, render_cons, List.length_append, Nat.add_assoc]

theorem first?_number (h : Numeral.first? cs = some (text, rest)) :
    first? cs = some (.number, text, rest) := by
  simp [first?, h]

theorem first?_symbol (h : c ∈ symbols) (cs : List Char) :
    first? (c :: cs) = some (.symbol, [c], cs) := by
  have hall : symbols.all fun c ↦
      !Numeral.isDigit 10 c && c != '$' && c != '%' && !isNameStart c := by decide
  have hc := List.all_eq_true.1 hall c h
  simp only [Bool.and_eq_true, Bool.not_eq_true', bne_iff_ne] at hc
  obtain ⟨⟨⟨hd, hm⟩, hp⟩, hn⟩ := hc
  simp [first?, Numeral.first?_eq_none hd hm hp, name?, hn, symbol?, h]

theorem first?_name (hc : isNameStart c = true) (hd : Numeral.isDigit 10 c = false)
    (hcs : ∀ c ∈ cs, isNameRest c = true) (hr : Breaks rest) :
    first? (c :: cs ++ rest) = some (.identifier, c :: cs, rest) := by
  have hm : c ≠ '$' := by
    rintro rfl
    cases hc
  have hp : c ≠ '%' := by
    rintro rfl
    cases hc
  obtain ⟨htake, hdrop⟩ := span_eq_iff.2 ⟨rfl, hcs, fun c hc ↦ (hr c hc).1⟩
  simp [first?, Numeral.first?_eq_none hd hm hp, name?, hc, htake, hdrop]

theorem first?_numeral {f : Numeral.Form} (hf : f ∈ Numeral.forms) (h : f.Writes text)
    (hr : Breaks rest) : first? (text ++ rest) = some (.number, text, rest) := by
  refine first?_number (Numeral.first?_of_writes hf h fun c hc ↦ ⟨(hr c hc).2, ?_, ?_⟩)
  · rintro rfl
    cases (hr 'x' hc).1
  · rintro rfl
    cases (hr 'X' hc).1

theorem first?_hexadecimal (n : Nat) (hr : Breaks rest) :
    first? ('$' :: (Text.hexadecimal n).toList ++ rest) =
      some (.number, '$' :: (Text.hexadecimal n).toList, rest) :=
  first?_numeral (f := ⟨['$'], 16⟩) (by decide)
    ⟨_, rfl, Numeral.hexadecimal_ne_nil n, Numeral.isDigit_hexadecimal n⟩ hr

theorem scan_of_first? (h : first? (text ++ rest) = some (k, text, rest)) :
    scan start (text ++ rest) = (scan (start + text.length) rest).map (⟨k, text, start⟩ :: ·) := by
  cases ht : text ++ rest with
  | nil => exact absurd (List.append_eq_nil_iff.1 ht).1 (append_of_first? h).2
  | cons c cs =>
    rw [ht] at h
    have hb : isBlank c = false := by
      refine Bool.eq_false_iff.2 fun hb ↦ ?_
      simp only [isBlank, Bool.or_eq_true, decide_eq_true_eq] at hb
      rcases hb with rfl | rfl <;> cases h
    have hs : c ≠ ';' := by
      rintro rfl
      cases h
    rw [scan, if_neg (by simp [hb]), if_neg hs]
    split
    · next hf =>
      rw [h] at hf
      cases hf
    · next hf =>
      rw [h] at hf
      cases hf
      rfl

theorem scan_blank (hb : isBlank c = true) (start : Nat) (cs : List Char) :
    scan start (c :: cs) = scan (start + 1) cs := by
  rw [scan, if_pos hb]

/-- Words that are told apart are read one by one. -/
theorem scan_render (h : Apart ws) (start : Nat) :
    scan start (render ws) = .ok (placed start ws) := by
  induction ws generalizing start with
  | nil => simp [render, scan, placed]
  | cons w ws ih =>
    rw [render_cons, scan_of_first? h.1, ih h.2]
    rfl

end Asm65816.Lexeme
