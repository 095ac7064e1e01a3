import Asm65816.Proofs.Lexeme.Layout

namespace Asm65816

open Text

namespace Numeral

variable {cs mark : List Char} {α β : Type} {φ : α → β}
variable {read : Form → List Char → Option α} {read' : Form → List Char → Option β}

theorem after?_lowered (hm : ∀ m ∈ mark, m.toNat < 65) (cs : List Char) :
    after? mark (lowered cs) = (after? mark cs).map lowered := by
  induction mark generalizing cs with
  | nil => rfl
  | cons m mark ih =>
    obtain ⟨hm, hmark⟩ := List.forall_mem_cons.1 hm
    cases cs with
    | nil => rfl
    | cons c cs =>
      have hc : m = c.toLower ↔ m = c := by
        rw [eq_comm, toLower_eq_iff (.inl hm), eq_comm]
      simp only [List.map_cons, after?, hc]
      split
      · exact ih hmark cs
      · rfl

/-- The mark with a small `x` comes of both, and the one with a capital of none. -/
theorem after?_lowered_x (cs : List Char) :
    after? ['0', 'x'] (lowered cs) =
        ((after? ['0', 'x'] cs).or (after? ['0', 'X'] cs)).map lowered ∧
      after? ['0', 'X'] (lowered cs) = none := by
  cases cs with
  | nil => exact ⟨rfl, rfl⟩
  | cons c cs =>
    by_cases hc : c = '0'
    · rw [hc]
      cases cs with
      | nil => exact ⟨rfl, rfl⟩
      | cons d cs =>
        by_cases hsmall : d = 'x'
        · rw [hsmall]
          exact ⟨rfl, rfl⟩
        · by_cases hcapital : d = 'X'
          · rw [hcapital]
            exact ⟨rfl, rfl⟩
          · have hne : 'x' ≠ d.toLower ∧ 'X' ≠ d.toLower := by
              simp only [ne_eq, ← Char.toNat_inj, toNat_toLower, Char.reduceToNat]
                at hsmall hcapital ⊢
              split <;> omega
            simp [after?, hne, Ne.symm hsmall, Ne.symm hcapital]
    · have hzero : c.toLower ≠ '0' := (toLower_eq_iff (by decide)).not.2 hc
      simp [after?, Ne.symm hc, hzero.symm]

theorem findSome?_cons_eq_or {γ : Type} (f : γ → Option α) (x : γ) (xs : List γ) :
    (x :: xs).findSome? f = (f x).or (xs.findSome? f) := by
  rw [List.findSome?_cons]
  cases f x <;> rfl

/-- Forms read the same off characters of either case, when what reads behind their marks does. -/
theorem findSome?_lowered
    (h : ∀ f ∈ forms, ∀ rest, read' ⟨lowered f.mark, f.radix⟩ (lowered rest) = (read f rest).map φ)
    (cs : List Char) :
    forms.findSome? (fun f ↦ (after? f.mark (lowered cs)).bind (read' f)) =
      (forms.findSome? fun f ↦ (after? f.mark cs).bind (read f)).map φ := by
  have hplain (f : Form) (hf : f ∈ forms) (hm : ∀ m ∈ f.mark, m.toNat < 65) :
      (after? f.mark (lowered cs)).bind (read' f) = ((after? f.mark cs).bind (read f)).map φ := by
    have hmark : lowered f.mark = f.mark := by
      refine (List.map_congr_left fun m hm' ↦ ?_).trans (List.map_id f.mark)
      exact (toLower_eq_iff (.inl (hm m hm'))).2 rfl
    rw [after?_lowered hm, Option.map_bind, Option.bind_map]
    congr 1
    funext rest
    rw [Function.comp_apply, Function.comp_apply, ← h f hf, hmark]
  have hx : (after? ['0', 'x'] (lowered cs)).bind (read' ⟨['0', 'x'], 16⟩) =
      (((after? ['0', 'x'] cs).bind (read ⟨['0', 'x'], 16⟩)).or
        ((after? ['0', 'X'] cs).bind (read ⟨['0', 'X'], 16⟩))).map φ := by
    rw [(after?_lowered_x cs).1]
    cases hsmall : after? ['0', 'x'] cs with
    | none =>
      rw [Option.none_or, Option.bind_none, Option.none_or, Option.map_bind, Option.bind_map]
      congr 1
      funext rest
      exact h ⟨['0', 'X'], 16⟩ (by decide) rest
    | some rest =>
      have hcapital : after? ['0', 'X'] cs = none := by
        rw [after?_eq_some_iff.1 hsmall]
        rfl
      simp only [hcapital, Option.bind_none, Option.or_none, Option.map_some, Option.bind_some]
      exact h ⟨['0', 'x'], 16⟩ (by decide) rest
  simp only [forms, findSome?_cons_eq_or, List.findSome?_nil]
  rw [hplain ⟨['$'], 16⟩ (by decide) (List.forall_mem_singleton.2 (by decide)), hx,
    (after?_lowered_x cs).2,
    hplain ⟨['%'], 2⟩ (by decide) (List.forall_mem_singleton.2 (by decide)),
    hplain ⟨[], 10⟩ (by decide) (List.forall_mem_nil _)]
  simp only [Option.bind_none, Option.none_or, Option.map_or, Option.or_assoc, Option.map_none]

theorem first?_lowered (cs : List Char) :
    first? (lowered cs) = (first? cs).map (Prod.map lowered lowered) := by
  refine findSome?_lowered (fun f _ rest ↦ ?_) cs
  have hdigits : isDigit f.radix ∘ Char.toLower = isDigit f.radix :=
    funext (isDigit_toLower f.radix)
  simp only [List.takeWhile_map, List.dropWhile_map, hdigits, List.isEmpty_map]
  split
  · rfl
  · rw [Option.map_some, Prod.map_apply, lowered, lowered, lowered, List.map_append]

theorem signed?_lowered (radix : Nat) (cs : List Char) :
    signed? radix (lowered cs) = signed? radix cs := by
  have hnatural (cs : List Char) : natural? radix (lowered cs) = natural? radix cs := by
    refine natural?_congr ?_
    rw [List.map_map]
    exact List.map_congr_left fun c _ ↦ digit?_toLower radix c
  cases cs with
  | nil => rfl
  | cons c cs =>
    have hunsigned {c : Char} (cs : List Char) (hm : c ≠ '-') (hp : c ≠ '+') :
        signed? radix (c :: cs) = (natural? radix (c :: cs)).map fun n ↦ (n : Int) := by
      unfold signed?
      split <;> simp_all
    by_cases hm : c = '-'
    · rw [hm, lowered, List.map_cons, show '-'.toLower = '-' from rfl, signed?, signed?,
        hnatural]
    · by_cases hp : c = '+'
      · rw [hp, lowered, List.map_cons, show '+'.toLower = '+' from rfl, signed?, signed?,
          hnatural]
      · rw [hunsigned cs hm hp, ← hnatural]
        exact hunsigned _ ((toLower_eq_iff (by decide)).not.2 hm)
          ((toLower_eq_iff (by decide)).not.2 hp)

theorem value?_lowered (cs : List Char) : value? (lowered cs) = value? cs := by
  have hmark :
      forms.findSome? (fun f ↦ (after? f.mark (lowered cs)).bind fun rest ↦ some (f.radix, rest)) =
        (forms.findSome? fun f ↦ (after? f.mark cs).bind fun rest ↦ some (f.radix, rest)).map
          (Prod.map id lowered) :=
    findSome?_lowered (fun _ _ _ ↦ rfl) cs
  simp only [value?, Option.map_eq_bind, Function.comp_def]
  rw [hmark, Option.bind_map]
  congr 1
  funext found
  exact congrArg (Option.filter _) (signed?_lowered found.1 found.2)

end Numeral

namespace Lexeme

variable {c : Char} {cs rest : List Char} {items : List Item} {start : Nat} {x : Lexeme}

def fold (x : Lexeme) : Lexeme := { x with text := lowered x.text }

theorem isBlank_toLower (c : Char) : isBlank c.toLower = isBlank c := by
  simp only [isBlank, toLower_eq_iff (m := ' ') (by decide),
    toLower_eq_iff (m := '\t') (by decide)]

theorem isNameStart_toLower (c : Char) : isNameStart c.toLower = isNameStart c := by
  rw [Bool.eq_iff_iff, isNameStart_iff, isNameStart_iff, toNat_toLower]
  split <;> omega

theorem isNameRest_toLower (c : Char) : isNameRest c.toLower = isNameRest c := by
  rw [Bool.eq_iff_iff, isNameRest_iff, isNameRest_iff, isNameStart_toLower, toNat_toLower]
  rw [isNameStart_iff]
  split <;> omega

theorem toLower_of_mem_symbols (h : c ∈ symbols) : c.toLower = c := by
  have hall : symbols.all fun c ↦ c.toLower = c := by decide
  exact of_decide_eq_true (List.all_eq_true.1 hall c h)

theorem toLower_mem_symbols_iff : c.toLower ∈ symbols ↔ c ∈ symbols := by
  constructor
  · intro h
    have hall : symbols.all fun m ↦ m.toNat < 65 ∨ 90 < m.toNat ∧ m.toNat < 97 := by decide
    have hplain := of_decide_eq_true (List.all_eq_true.1 hall _ h)
    rwa [(toLower_eq_iff (by omega)).1 (Eq.refl c.toLower)]
  · intro h
    rwa [toLower_of_mem_symbols h]

theorem name?_lowered (cs : List Char) :
    name? (lowered cs) = (name? cs).map (Prod.map lowered lowered) := by
  cases cs with
  | nil => rfl
  | cons c cs =>
    have hrest : isNameRest ∘ Char.toLower = isNameRest := funext isNameRest_toLower
    simp only [List.map_cons, name?, isNameStart_toLower, List.takeWhile_map, List.dropWhile_map,
      hrest]
    split <;> rfl

theorem symbol?_lowered (cs : List Char) :
    symbol? (lowered cs) = (symbol? cs).map (Prod.map lowered lowered) := by
  cases cs with
  | nil => rfl
  | cons c cs =>
    simp only [List.map_cons, symbol?, List.contains_iff_mem, toLower_mem_symbols_iff]
    split <;> rfl

theorem first?_lowered (cs : List Char) :
    first? (lowered cs) = (first? cs).map (Prod.map id (Prod.map lowered lowered)) := by
  simp only [first?, Numeral.first?_lowered, name?_lowered, symbol?_lowered, Option.map_or,
    Option.map_map]
  rfl

theorem scan_of_first?_eq_none (hb : isBlank c = false) (hc : c ≠ ';')
    (h : first? (c :: cs) = none) (start : Nat) : scan start (c :: cs) = .error start := by
  refine scan_of_stuck ⟨c, cs, rfl, hc, first?_eq_none_iff.1 h⟩ (fun d hd ↦ ?_) start
  cases hd
  exact hb

/-- Small letters are scanned like letters of either case. -/
theorem scan_lowered (start : Nat) (cs : List Char) :
    scan start (lowered cs) = (scan start cs).map (List.map fold) := by
  induction hn : cs.length using Nat.strongRecOn generalizing start cs with
  | ind n ih =>
    cases cs with
    | nil =>
      rw [lowered, List.map_nil, scan]
      rfl
    | cons c cs =>
      cases hb : isBlank c with
      | true =>
        rw [lowered, List.map_cons, scan_blank ((isBlank_toLower c).trans hb), scan_blank hb]
        exact ih cs.length (by simp [← hn]) (start + 1) cs rfl
      | false =>
        by_cases hc : c = ';'
        · have hends (cs : List Char) : Ends (';' :: cs) := fun d hd ↦ (Option.some.inj hd).symm
          rw [hc, scan_of_ends (hends cs)]
          exact scan_of_ends (hends (lowered cs)) start
        · have hfirst := first?_lowered (c :: cs)
          cases hf : first? (c :: cs) with
          | none =>
            rw [hf] at hfirst
            rw [scan_of_first?_eq_none hb hc hf]
            exact scan_of_first?_eq_none ((isBlank_toLower c).trans hb)
              ((toLower_eq_iff (by decide)).not.2 hc) hfirst start
          | some found =>
            obtain ⟨kind, text, rest⟩ := found
            have hlt := length_of_first? hf
            obtain ⟨hcs, -⟩ := append_of_first? hf
            rw [← hcs] at hf hfirst hlt ⊢
            rw [hf, lowered, List.map_append] at hfirst
            rw [lowered, List.map_append, scan_of_first? hfirst, scan_of_first? hf,
              ih rest.length (hn ▸ hcs ▸ hlt) _ rest rfl, List.length_map]
            cases scan (start + text.length) rest <;> rfl

theorem fold_of_symbol (h : Laid rest items) (hx : x ∈ located start items)
    (hk : x.kind = .symbol) : x.fold = x := by
  obtain ⟨front, behind, w, rfl, rfl⟩ := exists_of_mem_located hx
  obtain ⟨r, hr, hkind, hw⟩ := written_of_chosen (laid_append.1 h).2.1
  obtain ⟨f, -, rfl⟩ | rfl | rfl := mem_rules.1 hr
  · cases hkind.trans hk
  · cases hkind.trans hk
  · obtain ⟨c, hc, htext⟩ := hw
    simp only [fold, htext, List.map_cons, List.map_nil, toLower_of_mem_symbols hc]

theorem bytes_lowered (cs : List Char) : bytes (lowered cs) = bytes cs := by
  induction cs with
  | nil => rfl
  | cons c cs ih =>
    have hc : bytes [c.toLower] = bytes [c] := by
      rw [bytes, bytes, ← String.singleton_eq_ofList, ← String.singleton_eq_ofList,
        String.utf8ByteSize_singleton, String.utf8ByteSize_singleton, utf8Size_toLower]
    rw [← List.singleton_append, lowered, List.map_append, bytes_append, bytes_append]
    exact congrArg₂ (· + ·) hc ih

end Lexeme

end Asm65816
