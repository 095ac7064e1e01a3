namespace Asm65816.Numeral

structure Form where
  mark : List Char
  radix : Nat
  deriving DecidableEq

/-- The ways of writing numbers in the order in which they are tried. Decimal numbers come last,
since they have no mark. -/
def forms : List Form :=
  [⟨['$'], 16⟩, ⟨['0', 'x'], 16⟩, ⟨['0', 'X'], 16⟩, ⟨['%'], 2⟩, ⟨[], 10⟩]

def after? : List Char → List Char → Option (List Char)
  | [], cs => some cs
  | _ :: _, [] => none
  | c :: mark, d :: cs => if c = d then after? mark cs else none

theorem after?_eq_some_iff {mark cs rest : List Char} :
    after? mark cs = some rest ↔ cs = mark ++ rest := by
  induction mark generalizing cs with
  | nil => simp [after?]
  | cons c mark ih =>
    cases cs with
    | nil => simp [after?]
    | cons d cs => by_cases h : c = d <;> simp [after?, ih, h, eq_comm]

def digitValue (c : Char) : Option Nat :=
  if '0' ≤ c ∧ c ≤ '9' then some (c.toNat - 48)
  else if 'a' ≤ c ∧ c ≤ 'f' then some (c.toNat - 87)
  else if 'A' ≤ c ∧ c ≤ 'F' then some (c.toNat - 55)
  else none

def digit? (radix : Nat) (c : Char) : Option Nat := (digitValue c).filter (· < radix)

def isDigit (radix : Nat) (c : Char) : Bool := (digit? radix c).isSome

def first? (cs : List Char) : Option (List Char × List Char) :=
  forms.findSome? fun f ↦
    (after? f.mark cs).bind fun rest ↦
      let digits := rest.takeWhile (isDigit f.radix)
      if digits.isEmpty then none else some (f.mark ++ digits, rest.dropWhile (isDigit f.radix))

def natural? (radix : Nat) (digits : List Char) : Option Nat :=
  if digits.isEmpty then none
  else digits.foldlM (fun n c ↦ (digit? radix c).map (radix * n + ·)) 0

def signed? (radix : Nat) : List Char → Option Int
  | '-' :: digits => (natural? radix digits).map fun n ↦ -(n : Int)
  | '+' :: digits => (natural? radix digits).map fun n ↦ (n : Int)
  | digits => (natural? radix digits).map fun n ↦ (n : Int)

def Fits (v : Int) : Prop := -0x8000000000000000 ≤ v ∧ v < 0x8000000000000000

instance (v : Int) : Decidable (Fits v) := inferInstanceAs (Decidable (_ ∧ _))

def value? (text : List Char) : Option Int :=
  (forms.findSome? fun f ↦ (after? f.mark text).map (f.radix, ·)).bind fun (radix, digits) ↦
    (signed? radix digits).filter (Fits ·)

theorem append_of_first? {cs text rest : List Char} (h : first? cs = some (text, rest)) :
    text ++ rest = cs ∧ text ≠ [] := by
  obtain ⟨f, -, hf⟩ := List.exists_of_findSome?_eq_some h
  obtain ⟨tail, ht, hd⟩ := Option.bind_eq_some_iff.1 hf
  rw [after?_eq_some_iff] at ht
  dsimp only at hd
  split at hd
  · cases hd
  · next hne =>
    simp only [Option.some.injEq, Prod.mk.injEq] at hd
    obtain ⟨rfl, rfl⟩ := hd
    refine ⟨by rw [List.append_assoc, List.takeWhile_append_dropWhile, ht], fun h0 ↦ hne ?_⟩
    simp [(List.append_eq_nil_iff.1 h0).2]

end Asm65816.Numeral
