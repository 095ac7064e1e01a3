import Asm65816.InstructionSet.Standard
import Mathlib.Data.List.Nodup

namespace Asm65816.InstructionSet

variable {m : Mnemonic} {mode : Mode} {e : Entry} {name : String}

theorem opcode?_eq_none_iff {set : InstructionSet} :
    set.opcode? m mode = none ↔ (m, mode) ∉ set.rows := by
  rw [opcode?, Option.map_eq_none_iff, List.idxOf?_eq_none_iff]

/-- No instruction has both a near and a far row for one way of going through memory. -/
theorem opcode?_near_or_far {near far : Mode} (h : near.wider? = some far)
    (hd : near ≠ .direct) (ha : near ≠ .absolute) (m : Mnemonic) :
    standard.opcode? m near = none ∨ standard.opcode? m far = none := by
  have hall : ∀ row ∈ opcodes, row.2 ∈ [Mode.indirect, .indirectLong, .indexedIndirect] →
      ∀ row' ∈ opcodes, row'.1 = row.1 → row.2.wider? ≠ some row'.2 := by
    decide +kernel
  have hk : near ∈ [Mode.indirect, .indirectLong, .indexedIndirect] := by
    cases near <;> first | decide | exact absurd rfl hd | exact absurd rfl ha | cases h
  rw [opcode?_eq_none_iff, opcode?_eq_none_iff, ← Decidable.not_and_iff_not_or_not]
  intro h'
  obtain ⟨hn, hf⟩ := h'
  exact hall (m, near) hn hk (m, far) hf rfl h

theorem mnemonic_of_directY (h : standard.opcode? m .directY ≠ none) : m = .ldx ∨ m = .stx := by
  have hall : ∀ row ∈ opcodes, row.2 = .directY → row.1 = .ldx ∨ row.1 = .stx := by
    decide +kernel
  rw [ne_eq, opcode?_eq_none_iff, Decidable.not_not] at h
  exact hall _ h rfl

/-- Whatever has a long form has an absolute one too. -/
theorem opcode?_long_eq_none (h : standard.opcode? m .absolute = none) :
    standard.opcode? m .long = none := by
  have hall : ∀ row ∈ opcodes, row.2 = .long → (row.1, Mode.absolute) ∈ opcodes := by
    decide +kernel
  rw [opcode?_eq_none_iff] at h ⊢
  exact fun hl ↦ h (hall _ hl rfl)

theorem row_of_opcode? {opcode : UInt8} (h : standard.opcode? m mode = some opcode) :
    opcodes[opcode.toNat]? = some (m, mode) := by
  obtain ⟨i, hi, rfl⟩ := Option.map_eq_some_iff.1 h
  obtain ⟨hlt, hrow, -⟩ := List.idxOf?_eq_some_iff.1 hi
  have hmod : (UInt8.ofNat i).toNat = i := by
    change i < opcodes.length at hlt
    rw [length_opcodes] at hlt
    rw [UInt8.toNat_ofNat']
    exact Nat.mod_eq_of_lt hlt
  rw [hmod]
  exact List.getElem?_eq_some_iff.2 ⟨hlt, hrow⟩

theorem opcode?_of_eq_zero {mode' : Mode} {c : UInt8} (h : standard.opcode? m mode = some 0)
    (h' : standard.opcode? m mode' = some c) : c = 0 := by
  have hall : ∀ row ∈ opcodes, row.1 = .brk → row.2 = .implied := by decide +kernel
  have hmem : (m, mode') ∈ opcodes := List.mem_of_getElem? (row_of_opcode? h')
  have hrow : opcodes[0]? = some (m, mode) := row_of_opcode? h
  cases hrow
  cases hall _ hmem rfl
  rw [h] at h'
  exact (Option.some.inj h').symm

theorem mem_of_lookup? (h : standard.lookup? name = some e) :
    e ∈ standard.entries ∧ e.name = Text.fold name := by
  have hn := List.find?_some h
  exact ⟨List.mem_of_find?_eq_some h, of_decide_eq_true hn⟩

theorem mnemonic_of_lookup? (h : standard.lookup? name = some e) :
    (e.mnemonic = .ldx ↔ Text.fold name = "ldx") ∧
      (e.mnemonic = .stx ↔ Text.fold name = "stx") := by
  have hall : ∀ e ∈ standard.entries,
      (e.mnemonic = .ldx ↔ e.name = "ldx") ∧ (e.mnemonic = .stx ↔ e.name = "stx") := by
    decide +kernel
  obtain ⟨he, hn⟩ := mem_of_lookup? h
  rw [← hn]
  exact hall e he

theorem base_of_lookup? (h : standard.lookup? name = some e) :
    e.base ∈ [Mode.implied, .immediate8, .relative, .relativeLong, .blockMove] := by
  have hall : ∀ e ∈ standard.entries,
      e.base ∈ [Mode.implied, .immediate8, .relative, .relativeLong, .blockMove] := by
    decide +kernel
  exact hall e (mem_of_lookup? h).1

theorem exists_opcode?_of_base (hl : standard.lookup? name = some e)
    (hb : e.base ∈ [Mode.relative, .relativeLong, .blockMove]) :
    ∃ c, standard.opcode? e.mnemonic e.base = some c := by
  have hall : ∀ e ∈ standard.entries, e.base ∈ [Mode.relative, .relativeLong, .blockMove] →
      (e.mnemonic, e.base) ∈ opcodes := by
    decide +kernel
  rw [← Option.ne_none_iff_exists', ne_eq, opcode?_eq_none_iff]
  exact fun h ↦ h (hall e (mem_of_lookup? hl).1 hb)

theorem lookup?_name (m : Mnemonic) : standard.lookup? m.name = some ⟨m.name, m, m.base, none⟩ := by
  have hall : ∀ m ∈ Mnemonic.all, standard.lookup? m.name = some ⟨m.name, m, m.base, none⟩ := by
    decide +kernel
  exact hall m m.mem_all

/-- Numbers that are all different, and not among those whose bits are set. -/
def fresh (seen : Nat) : List Nat → Bool
  | [] => true
  | n :: ns => !seen.testBit n && fresh (seen ||| 1 <<< n) ns

theorem nodup_of_fresh {seen : Nat} {ns : List Nat} (h : fresh seen ns = true) :
    ns.Nodup ∧ ∀ n ∈ ns, seen.testBit n = false := by
  induction ns generalizing seen with
  | nil => simp
  | cons n ns ih =>
    simp only [fresh, Bool.and_eq_true, Bool.not_eq_true'] at h
    obtain ⟨hns, hseen⟩ := ih h.2
    simp only [Nat.testBit_or, Nat.one_shiftLeft, Nat.testBit_two_pow, Bool.or_eq_false_iff,
      decide_eq_false_iff_not] at hseen
    refine ⟨List.nodup_cons.2 ⟨fun hn ↦ (hseen n hn).2 rfl, hns⟩, ?_⟩
    exact List.forall_mem_cons.2 ⟨h.1, fun m hm ↦ (hseen m hm).1⟩

theorem nodup_opcodes : opcodes.Nodup := by
  have h : fresh 0 (opcodes.map fun row ↦ 24 * row.1.ctorIdx + row.2.ctorIdx) = true := by
    decide +kernel
  exact (nodup_of_fresh h).1.of_map

theorem opcode?_of_row {opcode : UInt8} (h : opcodes[opcode.toNat]? = some (m, mode)) :
    standard.opcode? m mode = some opcode := by
  obtain ⟨hi, hrow⟩ := List.getElem?_eq_some_iff.1 h
  have hidx : opcodes.idxOf? (m, mode) = some opcode.toNat := by
    refine List.idxOf?_eq_some_iff.2 ⟨hi, hrow, fun j hj hrow' ↦ ?_⟩
    have := nodup_opcodes.getElem_inj_iff.1 (hrow'.trans hrow.symm)
    omega
  change (opcodes.idxOf? (m, mode)).map UInt8.ofNat = some opcode
  rw [hidx]
  simp

end Asm65816.InstructionSet
