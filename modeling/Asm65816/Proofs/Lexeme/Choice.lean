import Asm65816.Proofs.Lexeme
import Asm65816.Proofs.Occurrence

namespace Asm65816

namespace Lexeme

/-- A way to write a word: the texts that are written in this way, and the characters that carry
such a text on. -/
structure Rule where
  kind : Token.Kind
  Writes : List Char → Prop
  carriesOn : Char → Bool

namespace Rule

def ofForm (f : Numeral.Form) : Rule := ⟨.number, f.Writes, Numeral.isDigit f.radix⟩

def name : Rule where
  kind := .identifier
  Writes text := ∃ c cs, text = c :: cs ∧ isNameStart c = true ∧ ∀ d ∈ cs, isNameRest d = true
  carriesOn := isNameRest

def symbol : Rule := ⟨.symbol, fun text ↦ ∃ c ∈ symbols, text = [c], fun _ ↦ false⟩

def Applies (r : Rule) (cs : List Char) : Prop := ∃ text rest, cs = text ++ rest ∧ r.Writes text

def Takes (r : Rule) (text rest : List Char) : Prop :=
  r.Writes text ∧ ∀ c, rest.head? = some c → r.carriesOn c = false

end Rule

def rules : List Rule := Numeral.forms.map .ofForm ++ [.name, .symbol]

def Written (w : Word) : Prop := ∃ r ∈ rules, r.kind = w.1 ∧ r.Writes w.2

/-- The word in front of a rest is written in the first way that applies, and goes as far as that
way allows. -/
def Chosen (w : Word) (rest : List Char) : Prop :=
  ∃ r, IsFirst (·.Applies (w.2 ++ rest)) rules r ∧ r.kind = w.1 ∧ r.Takes w.2 rest

variable {f : Numeral.Form} {c : Char} {cs text rest : List Char} {kind : Token.Kind} {w : Word}

open Rule

theorem eq_none_of_not_applies {r : Rule} {x : Option (List Char × List Char)}
    (hx : ∀ text rest, x = some (text, rest) → cs = text ++ rest ∧ r.Takes text rest)
    (h : ¬r.Applies cs) : x = none := by
  cases x with
  | none => rfl
  | some found =>
    obtain ⟨hcs, hw, -⟩ := hx _ _ rfl
    exact absurd ⟨_, _, hcs, hw⟩ h

theorem form_eq_some_iff :
    f.first? cs = some (text, rest) ↔ cs = text ++ rest ∧ (ofForm f).Takes text rest := by
  constructor
  · intro h
    obtain ⟨tail, ht, hd⟩ := Option.bind_eq_some_iff.1 h
    obtain rfl := Numeral.after?_eq_some_iff.1 ht
    dsimp only at hd
    split at hd
    · cases hd
    · next hne =>
      obtain ⟨rfl, rfl⟩ := Prod.mk.inj (Option.some.inj hd)
      obtain ⟨htail, hdigits, hrest⟩ := span_eq_iff.1 ⟨rfl, rfl⟩
      refine ⟨?_, ⟨_, rfl, by simpa using hne, hdigits⟩, hrest⟩
      rw [List.append_assoc, ← htail]
  · intro h
    obtain ⟨rfl, hw, hrest⟩ := h
    exact Numeral.Form.first?_of_writes hw hrest

theorem form_eq_none_iff : f.first? cs = none ↔ ¬(ofForm f).Applies cs := by
  refine ⟨?_, eq_none_of_not_applies fun _ _ ↦ form_eq_some_iff.1⟩
  intro h happlies
  obtain ⟨_, rest, rfl, digits, rfl, hne, hdigits⟩ := happlies
  rw [Numeral.Form.first?, List.append_assoc, Numeral.after?_eq_some_iff.2 rfl, Option.bind_some,
    List.takeWhile_append_of_pos hdigits] at h
  simp [hne] at h

theorem number?_eq_none_iff :
    Numeral.first? cs = none ↔ ∀ f ∈ Numeral.forms, ¬(ofForm f).Applies cs := by
  simp only [← form_eq_none_iff]
  exact List.findSome?_eq_none_iff

theorem number?_eq_some_iff :
    Numeral.first? cs = some (text, rest) ↔ cs = text ++ rest ∧
      ∃ f, IsFirst (fun f ↦ (ofForm f).Applies cs) Numeral.forms f ∧
        (ofForm f).Takes text rest := by
  constructor
  · intro h
    obtain ⟨front, f, behind, hforms, hf, hfront⟩ := List.findSome?_eq_some_iff.1 h
    obtain ⟨hcs, htakes⟩ := form_eq_some_iff.1 hf
    exact ⟨hcs, f, ⟨front, behind, hforms, ⟨text, rest, hcs, htakes.1⟩,
      fun g hg ↦ form_eq_none_iff.1 (hfront g hg)⟩, htakes⟩
  · intro h
    obtain ⟨hcs, f, ⟨front, behind, hforms, -, hfront⟩, htakes⟩ := h
    exact List.findSome?_eq_some_iff.2 ⟨front, f, behind, hforms,
      form_eq_some_iff.2 ⟨hcs, htakes⟩, fun g hg ↦ form_eq_none_iff.2 (hfront g hg)⟩

theorem name?_eq_some_iff :
    name? cs = some (text, rest) ↔ cs = text ++ rest ∧ name.Takes text rest := by
  constructor
  · intro h
    cases cs with
    | nil => cases h
    | cons c cs =>
      rw [name?] at h
      split at h
      · next hc =>
        cases h
        obtain ⟨hcs, hname, hrest⟩ := span_eq_iff.1 ⟨rfl, rfl⟩
        exact ⟨congrArg (c :: ·) hcs, ⟨c, _, rfl, hc, hname⟩, hrest⟩
      · cases h
  · intro h
    obtain ⟨rfl, ⟨c, cs, rfl, hc, hname⟩, hrest⟩ := h
    obtain ⟨htake, hdrop⟩ := span_eq_iff.2 ⟨rfl, hname, hrest⟩
    rw [List.cons_append, name?, if_pos hc, htake, hdrop]

theorem name?_eq_none_iff : name? cs = none ↔ ¬name.Applies cs := by
  refine ⟨?_, eq_none_of_not_applies fun _ _ ↦ name?_eq_some_iff.1⟩
  intro h happlies
  obtain ⟨_, rest, rfl, c, cs, rfl, hc, -⟩ := happlies
  rw [List.cons_append, name?, if_pos hc] at h
  cases h

theorem symbol?_eq_some_iff :
    symbol? cs = some (text, rest) ↔ cs = text ++ rest ∧ symbol.Takes text rest := by
  constructor
  · intro h
    cases cs with
    | nil => cases h
    | cons c cs =>
      rw [symbol?] at h
      split at h
      · next hc =>
        cases h
        exact ⟨rfl, ⟨c, by simpa using hc, rfl⟩, fun _ _ ↦ rfl⟩
      · cases h
  · intro h
    obtain ⟨rfl, ⟨c, hc, rfl⟩, -⟩ := h
    rw [List.singleton_append, symbol?, if_pos (by simpa using hc)]

theorem symbol?_eq_none_iff : symbol? cs = none ↔ ¬symbol.Applies cs := by
  refine ⟨?_, eq_none_of_not_applies fun _ _ ↦ symbol?_eq_some_iff.1⟩
  intro h happlies
  obtain ⟨_, rest, rfl, c, hc, rfl⟩ := happlies
  rw [List.singleton_append, symbol?, if_pos (by simpa using hc)] at h
  cases h

theorem first?_eq_none_iff : first? cs = none ↔ ∀ r ∈ rules, ¬r.Applies cs := by
  simp only [first?, Option.or_eq_none_iff, Option.map_eq_none_iff, number?_eq_none_iff,
    name?_eq_none_iff, symbol?_eq_none_iff, rules, List.forall_mem_append, List.forall_mem_map,
    List.forall_mem_cons, List.not_mem_nil, false_implies, implies_true, and_true]

/-- The word that is read is the one that is chosen. -/
theorem first?_eq_some_iff :
    first? cs = some (kind, text, rest) ↔ cs = text ++ rest ∧ Chosen (kind, text) rest := by
  have hnumber (r : Rule) : IsFirst (·.Applies cs) (Numeral.forms.map .ofForm) r ↔
      ∃ f, IsFirst (fun f ↦ (ofForm f).Applies cs) Numeral.forms f ∧ r = ofForm f := isFirst_map
  have hnone : (∀ r ∈ Numeral.forms.map ofForm, ¬r.Applies cs) ↔ Numeral.first? cs = none := by
    rw [number?_eq_none_iff, List.forall_mem_map]
  simp only [first?, Option.or_eq_some_iff, Option.map_eq_some_iff, Option.map_eq_none_iff,
    Prod.mk.injEq]
  constructor
  · intro h
    obtain ⟨_, h, rfl, rfl⟩ | ⟨hn, ⟨_, h, rfl, rfl⟩ | ⟨hn', _, h, rfl, rfl⟩⟩ := h
    · obtain ⟨rfl, f, hf, htakes⟩ := number?_eq_some_iff.1 h
      exact ⟨rfl, ofForm f, isFirst_append.2 (.inl ((hnumber _).2 ⟨f, hf, rfl⟩)), rfl, htakes⟩
    · obtain ⟨rfl, htakes⟩ := name?_eq_some_iff.1 h
      refine ⟨rfl, name, isFirst_append.2 (.inr ⟨hnone.2 hn, ?_⟩), rfl, htakes⟩
      exact isFirst_cons.2 (.inl ⟨⟨_, _, rfl, htakes.1⟩, rfl⟩)
    · obtain ⟨rfl, htakes⟩ := symbol?_eq_some_iff.1 h
      refine ⟨rfl, symbol, isFirst_append.2 (.inr ⟨hnone.2 hn, ?_⟩), rfl, htakes⟩
      exact isFirst_cons.2 (.inr ⟨name?_eq_none_iff.1 hn',
        isFirst_cons.2 (.inl ⟨⟨_, _, rfl, htakes.1⟩, rfl⟩)⟩)
  · intro h
    obtain ⟨rfl, r, hr, rfl, htakes⟩ := h
    rcases isFirst_append.1 hr with hr | ⟨hn, hr⟩
    · obtain ⟨f, hf, rfl⟩ := (hnumber r).1 hr
      exact .inl ⟨_, number?_eq_some_iff.2 ⟨rfl, f, hf, htakes⟩, rfl, rfl⟩
    · refine .inr ⟨hnone.1 hn, ?_⟩
      rcases isFirst_cons.1 hr with ⟨-, rfl⟩ | ⟨hn', hr⟩
      · exact .inl ⟨_, name?_eq_some_iff.2 ⟨rfl, htakes⟩, rfl, rfl⟩
      · rcases isFirst_cons.1 hr with ⟨-, rfl⟩ | ⟨-, hr⟩
        · exact .inr ⟨name?_eq_none_iff.2 hn', _, symbol?_eq_some_iff.2 ⟨rfl, htakes⟩,
            rfl, rfl⟩
        · exact absurd hr isFirst_nil

theorem digitValue_eq_some {d : Nat} (h : Numeral.digitValue c = some d) :
    (48 ≤ c.toNat ∧ c.toNat ≤ 57 ∧ d = c.toNat - 48) ∨
      (97 ≤ c.toNat ∧ c.toNat ≤ 102 ∧ d = c.toNat - 87) ∨
      65 ≤ c.toNat ∧ c.toNat ≤ 70 ∧ d = c.toNat - 55 := by
  rw [Numeral.digitValue_eq] at h
  grind

theorem between_iff (m n c : Char) : (decide (c.val ≥ m.val) && decide (c.val ≤ n.val)) = true ↔
    m.toNat ≤ c.toNat ∧ c.toNat ≤ n.toNat := by
  rw [Bool.and_eq_true, decide_eq_true_iff, decide_eq_true_iff]
  rfl

theorem isNameStart_iff : isNameStart c = true ↔
    (65 ≤ c.toNat ∧ c.toNat ≤ 90) ∨ (97 ≤ c.toNat ∧ c.toNat ≤ 122) ∨ c.toNat = 95 := by
  have hupper : c.isUpper = true ↔ 65 ≤ c.toNat ∧ c.toNat ≤ 90 := decide_eq_true_iff
  have hlower : c.isLower = true ↔ 97 ≤ c.toNat ∧ c.toNat ≤ 122 := between_iff 'a' 'z' c
  have hunderscore : c = '_' ↔ c.toNat = 95 := by
    rw [Char.ext_iff, ← UInt32.toNat_inj]
    rfl
  have hstart : isNameStart c = ((c.isUpper || c.isLower) || c = '_') := rfl
  rw [hstart, Bool.or_eq_true, Bool.or_eq_true, hupper, hlower, decide_eq_true_iff, hunderscore,
    or_assoc]

theorem isNameRest_iff :
    isNameRest c = true ↔ isNameStart c = true ∨ 48 ≤ c.toNat ∧ c.toNat ≤ 57 := by
  have hdigit : c.isDigit = true ↔ 48 ≤ c.toNat ∧ c.toNat ≤ 57 := between_iff '0' '9' c
  have hrest : isNameRest c = ((c.isAlpha || c.isDigit) || c = '_') := rfl
  rw [hrest, Bool.or_right_comm, Bool.or_eq_true, hdigit]
  rfl

theorem isNameRest_of_isDigit {radix : Nat} (h : Numeral.isDigit radix c = true) :
    isNameRest c = true := by
  obtain ⟨d, hd⟩ := Option.isSome_iff_exists.1 h
  have hcode := digitValue_eq_some (Option.filter_eq_some_iff.1 hd).1
  rw [isNameRest_iff, isNameStart_iff]
  omega

theorem isDigit_of_isNameStart (h : isNameStart c = true) : Numeral.isDigit 10 c = false := by
  refine Bool.eq_false_iff.2 fun hdigit ↦ ?_
  obtain ⟨d, hd⟩ := Option.isSome_iff_exists.1 hdigit
  obtain ⟨hv, hlt⟩ := Option.filter_eq_some_iff.1 hd
  have hcode := digitValue_eq_some hv
  rw [isNameStart_iff] at h
  rw [decide_eq_true_eq] at hlt
  omega

theorem utf8Size_of_isNameRest (h : isNameRest c = true) : c.utf8Size = 1 := by
  rw [isNameRest_iff, isNameStart_iff] at h
  rw [Char.utf8Size_eq_one_iff, UInt32.le_iff_toNat_le]
  change c.toNat ≤ 127
  omega

theorem mem_rules {r : Rule} :
    r ∈ rules ↔ (∃ f ∈ Numeral.forms, r = .ofForm f) ∨ r = .name ∨ r = .symbol := by
  simp only [rules, List.mem_append, List.mem_map, List.mem_cons, List.not_mem_nil, or_false,
    eq_comm (b := r)]

theorem ascii_of_written (h : Written w) : ∀ c ∈ w.2, c.utf8Size = 1 := by
  obtain ⟨r, hr, -, hw⟩ := h
  obtain ⟨f, hf, rfl⟩ | rfl | rfl := mem_rules.1 hr
  · obtain ⟨digits, htext, -, hdigits⟩ := hw
    have hall : Numeral.forms.all fun f ↦ f.mark.all (·.utf8Size = 1) := by decide
    have hmark := List.all_eq_true.1 (List.all_eq_true.1 hall f hf)
    rw [htext, List.forall_mem_append]
    exact ⟨fun c hc ↦ of_decide_eq_true (hmark c hc),
      fun c hc ↦ utf8Size_of_isNameRest (isNameRest_of_isDigit (hdigits c hc))⟩
  · obtain ⟨c, cs, htext, hc, hcs⟩ := hw
    rw [htext, List.forall_mem_cons]
    exact ⟨utf8Size_of_isNameRest (isNameRest_iff.2 (.inl hc)),
      fun d hd ↦ utf8Size_of_isNameRest (hcs d hd)⟩
  · obtain ⟨c, hc, htext⟩ := hw
    have hall : symbols.all (·.utf8Size = 1) := by decide
    rw [htext, List.forall_mem_singleton]
    exact of_decide_eq_true (List.all_eq_true.1 hall c hc)

theorem ne_nil_of_written (h : Written w) : w.2 ≠ [] := by
  obtain ⟨r, hr, -, hw⟩ := h
  obtain ⟨f, -, rfl⟩ | rfl | rfl := mem_rules.1 hr
  · obtain ⟨digits, htext, hne, -⟩ := hw
    rw [htext]
    exact List.append_ne_nil_of_right_ne_nil _ hne
  · obtain ⟨c, cs, htext, -⟩ := hw
    simp [htext]
  · obtain ⟨c, -, htext⟩ := hw
    simp [htext]

theorem written_of_chosen (h : Chosen w rest) : Written w := by
  obtain ⟨r, hr, hkind, htakes⟩ := h
  exact ⟨r, hr.mem, hkind, htakes.1⟩

theorem chosen_of_written (h : Written w) (hr : Breaks rest) : Chosen w rest := by
  obtain ⟨kind, text⟩ := w
  obtain ⟨r, hmem, hkind, hw⟩ := h
  have hfirst : first? (text ++ rest) = some (kind, text, rest) := by
    obtain ⟨f, hf, rfl⟩ | rfl | rfl := mem_rules.1 hmem
    · cases hkind
      exact first?_numeral hf hw hr
    · obtain ⟨c, cs, htext, hc, hcs⟩ := hw
      cases hkind
      cases htext
      exact first?_name hc (isDigit_of_isNameStart hc) hcs hr
    · obtain ⟨c, hc, htext⟩ := hw
      cases hkind
      cases htext
      exact first?_symbol hc rest
  exact (first?_eq_some_iff.1 hfirst).2

end Lexeme

end Asm65816
