import Asm65816.Proofs.Assembly.References

namespace Asm65816.InstructionSet

open Operand Grammar

section

variable {set : InstructionSet} {site : Site} {labels : String → Option Int}
variable {memory : UInt32 → UInt8} {name : String} {line : Line} {e : Entry} {en : Encoding}
variable {b : Branch} {x : Reading} {w : Option Width} {c : UInt8} {d : Domain} {v : Int}

theorem exists_opcode?_of_branch (hl : standard.lookup? name = some e) (hb : e.base = b.mode) :
    ∃ c, standard.opcode? e.mnemonic b.mode = some c := by
  rw [← hb]
  refine exists_opcode?_of_base hl ?_
  rw [hb]
  cases b <;> decide

theorem join_of_branch (hc : set.opcode? e.mnemonic b.mode = some c) (p : Pass) :
    set.join p e ⟨b.mode, v, w, false⟩ = .ok ⟨c, v, b.mode.length⟩ := by
  refine (join_of_not_padded (isPadded_of_forward rfl)).2 ⟨(c, b.mode), ?_, ?_⟩
  · exact choose_eq_ok.2 (.inl (select?_eq_some.2 (.inl ⟨hc, rfl⟩)))
  · exact congrArg (Encoding.mk c v) lengthIn_of_branch.symm

/-- A line whose operand is held to a range is encoded if its value is in there, and refused
otherwise. -/
theorem encode_of_check {g : Int → Operand} (hl : set.lookup? name = some e)
    (hx : Written labels e.base e.width line.words x)
    (hs : x.settle site memory e.base = (d.check v).map g)
    (hj : set.join site.pass e (g v) = .ok en) :
    ((∃ en' r, (set.encode site (Expr.sum labels) memory name).run line = .ok en' r) ↔
        d.Holds v) ∧
      (¬d.Holds v → ∃ r, (set.encode site (Expr.sum labels) memory name).run line =
        .error (.outOfRange d v) r) ∧
      ∀ en' r, (set.encode site (Expr.sum labels) memory name).run line = .ok en' r →
        d.Holds v ∧ en' = en := by
  have hok (hv : d.Holds v) :
      ∃ r, (set.encode site (Expr.sum labels) memory name).run line = .ok en r := by
    rw [Domain.check_of_holds hv] at hs
    obtain ⟨r, hr⟩ := run_parse_of_written hx hs
    exact ⟨r, run_encode_of_parse hl hr hj⟩
  have herror (hv : ¬d.Holds v) : ∃ r, (set.encode site (Expr.sum labels) memory name).run line =
      .error (.outOfRange d v) r := by
    rw [Domain.check_of_not_holds hv] at hs
    obtain ⟨r, hr⟩ := run_parse_of_written_error hx hs
    exact ⟨r, run_encode_of_parse_error hl hr⟩
  have hunique (en' : Encoding) (r : Line)
      (h : (set.encode site (Expr.sum labels) memory name).run line = .ok en' r) :
      d.Holds v ∧ en' = en := by
    by_cases hv : d.Holds v
    · obtain ⟨r', hr'⟩ := hok hv
      rw [h] at hr'
      cases hr'
      exact ⟨hv, rfl⟩
    · obtain ⟨r', hr'⟩ := herror hv
      rw [h] at hr'
      cases hr'
  refine ⟨⟨?_, fun hv ↦ ⟨en, hok hv⟩⟩, herror, hunique⟩
  rintro ⟨en', r, h⟩
  exact (hunique en' r h).1

/-- A branch reaches the targets in its range, counted from the next instruction, and its operand
leads there. Behind the mark of a distance it takes signed and unsigned numbers of its width, and
these stand in the instruction as they are, wherever it is. -/
theorem encode_branch (hp : site.pass = .final) (hl : standard.lookup? name = some e)
    (hb : e.base = b.mode) :
    (∀ t w, Written labels e.base e.width line.words (.single (.target b) ⟨t, w⟩) →
      ((∃ en r, (standard.encode site (Expr.sum labels) memory name).run line = .ok en r) ↔
        b.displacements.Holds (t - (site.pc + b.mode.length))) ∧
      (¬b.displacements.Holds (t - (site.pc + b.mode.length)) →
        ∃ r, (standard.encode site (Expr.sum labels) memory name).run line =
          .error (.outOfRange b.displacements (t - (site.pc + b.mode.length))) r) ∧
      ∀ en r, (standard.encode site (Expr.sum labels) memory name).run line = .ok en r →
        en.length = b.mode.length ∧
        site.pc + b.mode.length + Int.bmod (ofLittleEndian (en.bytes.drop 1)) b.reach = t) ∧
    ∀ d w, Written labels e.base e.width line.words (.single (.distance b) ⟨d, w⟩) →
      ((∃ en r, (standard.encode site (Expr.sum labels) memory name).run line = .ok en r) ↔
        b.constants.Holds d) ∧
      ∀ en r, (standard.encode site (Expr.sum labels) memory name).run line = .ok en r →
        standard.opcode? e.mnemonic b.mode = some en.opcode ∧ en.length = b.mode.length ∧
        (ofLittleEndian (en.bytes.drop 1) : Int) = d % b.width.size := by
  obtain ⟨c, hc⟩ := exists_opcode?_of_branch hl hb
  have hbytes (v : Int) : (ofLittleEndian ((Encoding.mk c (b.width.truncate v)
      b.mode.length).bytes.drop 1) : Int) = v % b.width.size := by
    rw [← lengthIn_of_branch (w := none), ofLittleEndian_of_branch, Width.truncate]
  refine ⟨fun t w hx ↦ ?_, fun d w hx ↦ ?_⟩
  · have hs : (Reading.single (.target b) ⟨t, w⟩).settle site memory e.base =
        (b.displacements.check (t - (site.pc + b.mode.length))).map fun v ↦
          ⟨b.mode, b.width.truncate v, w, false⟩ := by
      change (Form.target b).settle site memory e.base ⟨t, w⟩ = _
      exact settle_target_eq hp
    obtain ⟨hiff, herror, hunique⟩ := encode_of_check hl hx hs (join_of_branch hc site.pass)
    refine ⟨hiff, herror, fun en r h ↦ ?_⟩
    obtain ⟨hd, rfl⟩ := hunique en r h
    refine ⟨rfl, ?_⟩
    rw [hbytes, bmod_emod_reach hd]
    omega
  · have hs : (Reading.single (.distance b) ⟨d, w⟩).settle site memory e.base =
        (b.constants.check d).map fun v ↦ ⟨b.mode, b.width.truncate v, w, false⟩ := rfl
    obtain ⟨hiff, -, hunique⟩ := encode_of_check hl hx hs (join_of_branch hc site.pass)
    refine ⟨hiff, fun en r h ↦ ?_⟩
    obtain ⟨-, rfl⟩ := hunique en r h
    exact ⟨hc, rfl, hbytes d⟩

def labelAlone : Line := ⟨[⟨.identifier, "later", 4⟩], 9⟩

/-- As far ahead as a branch can go, where addresses count words. -/
theorem encode_branch_labelAlone :
    ∃ en r, (standard.encode ⟨.final, 0x8000, 2⟩ (Expr.sum fun _ ↦ some 0xC002) (fun _ ↦ 0)
      "brl").run labelAlone = .ok en r ∧ en.length = 3 ∧
        0x4000 + 3 + Int.bmod (ofLittleEndian (en.bytes.drop 1)) 0x10000 = 0xC002 := by
  have hl : standard.lookup? "brl" = some ⟨"brl", .brl, .relativeLong, none⟩ := by decide +kernel
  have hx : Written (fun _ ↦ some 0xC002) .relativeLong none labelAlone.words
      (.single (.target .long) ⟨0xC002, none⟩) := by
    have hz : Quantity (fun _ ↦ some 0xC002) (Form.target .long).opening.marks none
        [⟨.identifier, "later", 4⟩] ⟨0xC002, none⟩ := .bare (.term (.label rfl rfl))
    exact .plain (@Body.single _ _ _ (.target .long) [] _ [] _ rfl .nil hz .nil)
  obtain ⟨htarget, -⟩ := @encode_branch ⟨.final, 0x8000, 2⟩ (fun _ ↦ some 0xC002) (fun _ ↦ 0) "brl"
    labelAlone _ .long rfl hl rfl
  obtain ⟨hiff, -, hreach⟩ := htarget _ _ hx
  obtain ⟨en, r, h⟩ := hiff.2 (by decide)
  obtain ⟨hlength, htarget⟩ := hreach en r h
  exact ⟨en, r, h, hlength, htarget⟩

end

end Asm65816.InstructionSet
