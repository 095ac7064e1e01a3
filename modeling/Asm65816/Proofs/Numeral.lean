import Asm65816.Numeral
import Asm65816.Proofs.Occurrence
import Asm65816.Proofs.Text

namespace Asm65816.Numeral

def Form.Writes (f : Form) (text : List Char) : Prop :=
  ∃ digits, text = f.mark ++ digits ∧ digits ≠ [] ∧ ∀ c ∈ digits, isDigit f.radix c = true

def Form.first? (f : Form) (cs : List Char) : Option (List Char × List Char) :=
  (after? f.mark cs).bind fun rest ↦
    let digits := rest.takeWhile (isDigit f.radix)
    if digits.isEmpty then none else some (f.mark ++ digits, rest.dropWhile (isDigit f.radix))

variable {f : Form} {c : Char} {cs ds text rest : List Char} {radix n : Nat}

theorem digitValue_eq (c : Char) :
    digitValue c =
      if 48 ≤ c.toNat ∧ c.toNat ≤ 57 then some (c.toNat - 48)
      else if 97 ≤ c.toNat ∧ c.toNat ≤ 102 then some (c.toNat - 87)
      else if 65 ≤ c.toNat ∧ c.toNat ≤ 70 then some (c.toNat - 55)
      else none := by
  simp only [digitValue, Char.le_def, UInt32.le_iff_toNat_le]
  rfl

theorem digit?_toLower (radix : Nat) (c : Char) : digit? radix c.toLower = digit? radix c := by
  have hvalue : digitValue c.toLower = digitValue c := by
    rw [digitValue_eq, digitValue_eq, Text.toNat_toLower]
    grind
  rw [digit?, hvalue, digit?]

theorem digit?_toUpper (radix : Nat) (c : Char) : digit? radix c.toUpper = digit? radix c := by
  have hvalue : digitValue c.toUpper = digitValue c := by
    rw [digitValue_eq, digitValue_eq, Text.toNat_toUpper]
    grind
  rw [digit?, hvalue, digit?]

theorem isDigit_toLower (radix : Nat) (c : Char) : isDigit radix c.toLower = isDigit radix c :=
  congrArg Option.isSome (digit?_toLower radix c)

theorem digit?_digitChar (hn : n < radix) (hr : radix ≤ 16) :
    digit? radix (Nat.digitChar n) = some n := by
  have hall : ∀ n < 16, digitValue (Nat.digitChar n) = some n := by decide
  rw [digit?, hall n (by omega)]
  simp [hn]

theorem natural?_congr (h : cs.map (digit? radix) = ds.map (digit? radix)) :
    natural? radix cs = natural? radix ds := by
  have hvalues (cs : List Char) : natural? radix cs =
      if (cs.map (digit? radix)).isEmpty then none
      else (cs.map (digit? radix)).foldlM (fun n d ↦ d.map (radix * n + ·)) 0 := by
    rw [natural?, List.foldlM_map, List.isEmpty_map]
  rw [hvalues, h, ← hvalues]

theorem natural?_toDigits (hone : 1 < radix) (hr : radix ≤ 16) (n : Nat) :
    natural? radix (Nat.toDigits radix n) = some n := by
  rw [natural?, if_neg (by simp)]
  induction n using Nat.strongRecOn with
  | ind n ih =>
    by_cases hn : n < radix
    · rw [Nat.toDigits_of_lt_base hn]
      simp [digit?_digitChar hn hr]
    · have hlast := digit?_digitChar (Nat.mod_lt n (by omega : 0 < radix)) hr
      rw [Nat.toDigits_of_base_le hone (by omega), List.foldlM_append,
        ih (n / radix) (Nat.div_lt_self (by omega) hone)]
      simp [hlast, Nat.div_add_mod]

theorem natural?_zeros (hpos : 0 < radix) (hds : ds ≠ []) (k : Nat) :
    natural? radix (List.replicate k '0' ++ ds) = natural? radix ds := by
  have hzero : digit? radix '0' = some 0 := by
    rw [digit?, show digitValue '0' = some 0 from rfl]
    simp [hpos]
  induction k with
  | zero => rfl
  | succ k ih =>
    rw [← ih, List.replicate_succ, List.cons_append, natural?, natural?, if_neg (by simp),
      if_neg (by simp [hds]), List.foldlM_cons, hzero]
    rfl

theorem isDigit_of_natural? (h : natural? radix cs = some n) :
    ∀ c ∈ cs, isDigit radix c = true := by
  have hfold (ds : List Char) (m : Nat)
      (h : ds.foldlM (fun n c ↦ (digit? radix c).map (radix * n + ·)) m = some n) :
      ∀ c ∈ ds, isDigit radix c = true := by
    induction ds generalizing m with
    | nil => simp
    | cons d ds ih =>
      obtain ⟨k, hk, hds⟩ := Option.bind_eq_some_iff.1 h
      obtain ⟨v, hv, -⟩ := Option.map_eq_some_iff.1 hk
      refine List.forall_mem_cons.2 ⟨?_, ih k hds⟩
      rw [isDigit, hv]
      rfl
  rw [natural?] at h
  split at h
  · cases h
  · exact hfold cs 0 h

theorem hexadecimal_ne_nil (n : Nat) : (Text.hexadecimal n).toList ≠ [] := by
  rw [Text.hexadecimal, String.toList_ofList]
  simp

theorem natural?_hexadecimal (n : Nat) : natural? 16 (Text.hexadecimal n).toList = some n := by
  have hdigits := natural?_toDigits (by decide : 1 < 16) (by decide) n
  rw [← hdigits, Text.hexadecimal, String.toList_ofList]
  refine natural?_congr ?_
  rw [List.map_map]
  exact List.map_congr_left fun c _ ↦ digit?_toUpper 16 c

theorem isDigit_hexadecimal (n : Nat) :
    ∀ c ∈ (Text.hexadecimal n).toList, isDigit 16 c = true :=
  isDigit_of_natural? (natural?_hexadecimal n)

theorem signed?_of_isDigit {radix : Nat} (h : ∀ c ∈ cs, isDigit radix c = true) :
    signed? radix cs = (natural? radix cs).map fun n ↦ (n : Int) := by
  have hsign {c : Char} (hc : digitValue c = none) : isDigit radix c = false := by
    simp [isDigit, digit?, hc]
  unfold signed?
  split
  · next ds =>
    have hm := h '-' List.mem_cons_self
    rw [hsign rfl] at hm
    cases hm
  · next ds =>
    have hp := h '+' List.mem_cons_self
    rw [hsign rfl] at hp
    cases hp
  · rfl

theorem isDigit_of_le {radix radix' : Nat} (hle : radix ≤ radix') (h : isDigit radix c = true) :
    isDigit radix' c = true := by
  obtain ⟨n, hn⟩ := Option.isSome_iff_exists.1 h
  obtain ⟨hv, hlt⟩ := Option.filter_eq_some_iff.1 hn
  have hlt' : n < radix' := Nat.lt_of_lt_of_le (of_decide_eq_true hlt) hle
  simp [isDigit, digit?, hv, hlt']

theorem radix_le (hf : f ∈ forms) : f.radix ≤ 16 := by
  have hall : forms.all (·.radix ≤ 16) := by decide
  exact of_decide_eq_true (List.all_eq_true.1 hall f hf)

theorem first?_eq_findSome? (cs : List Char) : first? cs = forms.findSome? (·.first? cs) := rfl

theorem Form.first?_of_after? (h : after? f.mark cs = none) : f.first? cs = none := by
  rw [Form.first?, h]
  rfl

theorem Form.first?_of_writes (h : f.Writes text)
    (hr : ∀ c, rest.head? = some c → isDigit f.radix c = false) :
    f.first? (text ++ rest) = some (text, rest) := by
  obtain ⟨digits, rfl, hne, hdigits⟩ := h
  obtain ⟨htake, hdrop⟩ := span_eq_iff.2 ⟨rfl, hdigits, hr⟩
  rw [Form.first?, List.append_assoc, after?_eq_some_iff.2 rfl, Option.bind_some]
  dsimp only
  rw [htake, hdrop, if_neg (by simpa using hne)]

theorem after?_eq_none {m : Char} (h : ∀ c, cs.head? = some c → c ≠ m) (mark : List Char) :
    after? (m :: mark) cs = none := by
  cases cs with
  | nil => rfl
  | cons c cs => exact if_neg (h c rfl).symm

theorem ne_of_isDigit {m : Char} (hm : m ∈ ['$', '%', 'x', 'X']) (h : isDigit 10 c = true) :
    c ≠ m := by
  have hall : ['$', '%', 'x', 'X'].all (!isDigit 10 ·) := by decide
  intro hc
  have hdigit := List.all_eq_true.1 hall m hm
  rw [← hc, h] at hdigit
  cases hdigit

/-- No form with a mark writes what begins like a decimal number, unless the number is a zero and an
`x` follows it. -/
theorem after?_of_decimal (hf : f ∈ forms.take 4) (hd : isDigit 10 c = true)
    (hcs : ∀ d, cs.head? = some d → d ≠ 'x' ∧ d ≠ 'X') : after? f.mark (c :: cs) = none := by
  have hx (m : Char) (hm : m = 'x' ∨ m = 'X') : after? ['0', m] (c :: cs) = none := by
    rw [after?]
    split
    · refine after?_eq_none (fun d hd ↦ ?_) []
      rcases hm with rfl | rfl
      · exact (hcs d hd).1
      · exact (hcs d hd).2
    · rfl
  simp only [forms, List.take_succ_cons, List.take_zero, List.mem_cons, List.not_mem_nil,
    or_false] at hf
  rcases hf with rfl | rfl | rfl | rfl
  · exact if_neg (ne_of_isDigit (by simp) hd).symm
  · exact hx 'x' (.inl rfl)
  · exact hx 'X' (.inr rfl)
  · exact if_neg (ne_of_isDigit (by simp) hd).symm

/-- No form that is tried before the one that writes a text has a mark that the text begins with,
unless what follows makes a mark of it. -/
theorem exists_forms_of_writes (hf : f ∈ forms) (h : f.Writes text)
    (hr : ∀ c, rest.head? = some c → c ≠ 'x' ∧ c ≠ 'X') :
    ∃ front behind, forms = front ++ f :: behind ∧
      ∀ g ∈ front, after? g.mark (text ++ rest) = none := by
  obtain ⟨digits, rfl, hne, hdigits⟩ := h
  simp only [forms, List.mem_cons, List.not_mem_nil, or_false] at hf
  rcases hf with rfl | rfl | rfl | rfl | rfl
  · exact ⟨[], _, rfl, fun _ hg ↦ nomatch hg⟩
  · exact ⟨forms.take 1, _, rfl, List.forall_mem_singleton.2 rfl⟩
  · exact ⟨forms.take 2, _, rfl, List.forall_mem_cons.2 ⟨rfl, List.forall_mem_singleton.2 rfl⟩⟩
  · refine ⟨forms.take 3, _, rfl, List.forall_mem_cons.2 ⟨rfl, ?_⟩⟩
    exact List.forall_mem_cons.2 ⟨rfl, List.forall_mem_singleton.2 rfl⟩
  · obtain ⟨d, ds, rfl⟩ := List.exists_cons_of_ne_nil hne
    obtain ⟨hd, hds⟩ := List.forall_mem_cons.1 hdigits
    refine ⟨forms.take 4, _, rfl, fun g hg ↦ after?_of_decimal hg hd fun e he ↦ ?_⟩
    cases ds with
    | nil => exact hr e he
    | cons e' ds =>
      cases he
      have hdigit := hds e List.mem_cons_self
      exact ⟨ne_of_isDigit (by simp) hdigit, ne_of_isDigit (by simp) hdigit⟩

/-- What a form writes is a numeral, where neither a digit follows nor what could make a mark of
it. -/
theorem first?_of_writes (hf : f ∈ forms) (h : f.Writes text)
    (hr : ∀ c, rest.head? = some c → isDigit 16 c = false ∧ c ≠ 'x' ∧ c ≠ 'X') :
    first? (text ++ rest) = some (text, rest) := by
  have hform : f.first? (text ++ rest) = some (text, rest) := by
    refine Form.first?_of_writes h fun c hc ↦ Bool.eq_false_iff.2 fun hd ↦ ?_
    simpa [isDigit_of_le (radix_le hf) hd] using hr c hc
  obtain ⟨front, behind, hforms, hfront⟩ := exists_forms_of_writes hf h fun c hc ↦ (hr c hc).2
  rw [first?_eq_findSome?, List.findSome?_eq_some_iff]
  exact ⟨front, f, behind, hforms, hform, fun g hg ↦ Form.first?_of_after? (hfront g hg)⟩

theorem value?_of_natural? (hf : f ∈ forms) (h : natural? f.radix ds = some n) :
    value? (f.mark ++ ds) = if Fits n then some (n : Int) else none := by
  have hdigits := isDigit_of_natural? h
  have hne : ds ≠ [] := by
    rintro rfl
    cases h
  have hends (c : Char) (hc : [].head? = some c) : c ≠ 'x' ∧ c ≠ 'X' := nomatch hc
  obtain ⟨front, behind, hforms, hfront⟩ :=
    exists_forms_of_writes hf ⟨ds, rfl, hne, hdigits⟩ hends
  have hform : forms.findSome? (fun f' ↦ (after? f'.mark (f.mark ++ ds)).map (f'.radix, ·)) =
      some (f.radix, ds) := by
    refine List.findSome?_eq_some_iff.2 ⟨front, f, behind, hforms, ?_, fun g hg ↦ ?_⟩
    · rw [after?_eq_some_iff.2 rfl]
      rfl
    · rw [← List.append_nil (f.mark ++ ds), hfront g hg]
      rfl
  have hsigned : signed? f.radix ds = some (n : Int) := by
    rw [signed?_of_isDigit hdigits, h]
    rfl
  rw [value?, hform, Option.bind_some]
  dsimp only
  rw [hsigned, Option.filter_some]
  simp only [decide_eq_true_eq]

theorem value?_hexadecimal (h : n < 0x8000000000000000) :
    value? ('$' :: (Text.hexadecimal n).toList) = some n := by
  have hf : Fits n := by
    unfold Fits
    omega
  have hv := value?_of_natural? (f := ⟨['$'], 16⟩) (by decide) (natural?_hexadecimal n)
  exact hv.trans (if_pos hf)

theorem first?_eq_none (hd : isDigit 10 c = false) (hm : c ≠ '$') (hp : c ≠ '%') :
    first? (c :: cs) = none := by
  have h0 : c ≠ '0' := by
    rintro rfl
    cases hd
  simp [first?, forms, after?, hd, hm.symm, hp.symm, h0.symm]

end Asm65816.Numeral
