import Asm65816.Proofs.Operand.Phrase
import Asm65816.Proofs.Operand.Slack
import Asm65816.Proofs.Unambiguous

namespace Asm65816

def Site.Vacant (s : Site) (memory : UInt32 → UInt8) : Prop :=
  memory (s.address + 1) = 0 ∧ memory (s.address + 2) = 0 ∧ memory (s.address + 3) = 0

/-- An instruction goes by an address of two bytes or of three, with an opcode for each. -/
structure Jump where
  mnemonic : Mnemonic
  near : UInt8
  far : UInt8
  deriving DecidableEq

def jumps : List Jump := [⟨.jmp, 0x4C, 0x5C⟩, ⟨.jsr, 0x20, 0x22⟩]

/-- The byte that fills up the room is the highest one of the number that the instruction keeps. -/
theorem littleEndian_padded {v : Int} (h : 0 ≤ v) (hv : v ≤ 0xFFFF) :
    littleEndian 3 (v + 0x10000 * nop.toNat) = littleEndian 2 v ++ [nop] := by
  change littleEndian 3 (v + 0xEA0000) = _
  have h₀ : (v + 0xEA0000) % 0x100 = v % 0x100 := by omega
  have h₁ : (v + 0xEA0000) / 0x100 % 0x100 = v / 0x100 % 0x100 := by omega
  have h₂ : (v + 0xEA0000) / 0x100 / 0x100 % 0x100 = 0xEA := by omega
  simp only [littleEndian, h₀, h₁, h₂]
  rfl

namespace Operand

theorem Form.rung_indexedX_ne_long (w : Width) : Form.indexedX.rung w ≠ .long := by
  cases w <;> decide

section

variable {σ : Type} [TokenSource σ] {site : Site} {eval : Expr.Evaluator σ}
variable {memory : UInt32 → UInt8} {base : Mode} {width suffix : Option Width} {f : Form}
variable {mark : Option Mark} {m : Mnemonic} {v : Int} {o : Operand} {s r : σ}

theorem Phrase.mem_marks {k : Mark} (h : Phrase site eval base s suffix f (some k) v) :
    k ∈ f.opening.marks := by
  obtain ⟨_, _, _, _, -, -, hm, -⟩ := h.reads
  cases hm with
  | mark hk _ => exact hk

theorem Phrase.of_isPadded (h : Phrase site eval base s suffix f mark v)
    (ho : f.settle site memory base (sized mark (suffix.or width) v) = .ok o)
    (hpad : o.isPadded m = true) :
    f = .plain ∧ mark = none ∧ suffix = none ∧ width = none ∧ v = o.value ∧
      site.isForward memory = true ∧ Domain.address.Holds v := by
  obtain ⟨-, hforward, hwidth, hmode, -⟩ := InstructionSet.isPadded_eq_true.1 hpad
  have hflexible : o.isFlexible = true := isFlexible_eq_true.2 ⟨hwidth, by rw [hmode]; rfl⟩
  obtain ⟨hz, ⟨hf, -⟩ | ⟨-, hy⟩⟩ := form_of_isFlexible hflexible ho
  · rw [hz] at ho
    obtain ⟨hv, heq⟩ := (settle_direct_none hf).1 ho
    obtain rfl : f = .plain := by
      refine hf.resolve_right fun hx ↦ ?_
      rw [hx] at heq
      rw [heq] at hmode
      exact Form.rung_indexedX_ne_long _ hmode
    have hmark : mark = none := by
      cases mark with
      | none => rfl
      | some k =>
        obtain ⟨w, -, hk⟩ := exists_width_of_addressMarks h.mem_marks
        have hnone : (k.2 v).width = none := congrArg Sized.width hz
        rw [hk] at hnone
        cases hnone
    subst hmark
    obtain ⟨hvalue, hw⟩ := Sized.mk.inj hz
    obtain ⟨hs, hw⟩ := Option.or_eq_none_iff.1 hw
    rw [forward_of_isFlexible hflexible ho] at hforward
    exact ⟨rfl, rfl, hs, hw, hvalue, hforward, hvalue ▸ hv⟩
  · rw [hmode] at hy
    cases hy

theorem phrase_of_isPadded [LawfulTokenSource σ] (hpad : o.isPadded m = true)
    (h : (Grammar.parse site eval memory base width).run s = .ok o r) :
    width = none ∧ Phrase site eval base s none .plain none o.value ∧
      site.isForward memory = true ∧ Domain.address.Holds o.value := by
  obtain ⟨-, hforward, -, hmode, -⟩ := InstructionSet.isPadded_eq_true.1 hpad
  obtain ⟨w, rfl⟩ | hm | ⟨suffix, f, mark, v, hphrase, ho⟩ := exists_phrase h
  · cases hforward
  · rw [hmode] at hm
    cases hm
  · obtain ⟨rfl, rfl, rfl, rfl, rfl, hF, hv⟩ := hphrase.of_isPadded ho hpad
    exact ⟨rfl, hphrase, hF, hv⟩

end

end Operand

namespace InstructionSet

open Operand TokenSource

section

variable {σ : Type} [TokenSource σ] [LawfulTokenSource σ] {set : InstructionSet} {site : Site}
variable {eval : Expr.Evaluator σ} {memory : UInt32 → UInt8} {name : String} {s r : σ}
variable {en : Encoding} {e : Entry} {o : Operand} {j : Jump} {v : Int}

/-- The line of a name is a jump or a call by an address, with no suffix, no mark and no index. -/
structure IsJump (site : Site) (eval : Expr.Evaluator σ) (name : String) (s : σ) (j : Jump)
    (v : Int) : Prop where
  mem : j ∈ jumps
  fold_name : Text.fold name = j.mnemonic.name
  phrase : Phrase site eval .implied s none .plain none v

theorem lookup?_of_jump (hj : j ∈ jumps) (hn : Text.fold name = j.mnemonic.name) :
    standard.lookup? name = some ⟨j.mnemonic.name, j.mnemonic, .implied, none⟩ := by
  have hall : ∀ j ∈ jumps, standard.entries.find? (·.name = j.mnemonic.name) =
      some ⟨j.mnemonic.name, j.mnemonic, .implied, none⟩ := by
    decide +kernel
  rw [lookup?, hn]
  exact hall j hj

theorem exists_jump (h : standard.lookup? name = some e)
    (hm : e.mnemonic = .jmp ∨ e.mnemonic = .jsr) (hw : e.width = none) :
    e.base = .implied ∧
      ∃ j ∈ jumps, e.mnemonic = j.mnemonic ∧ Text.fold name = j.mnemonic.name := by
  have hall : ∀ e ∈ standard.entries, (e.mnemonic = .jmp ∨ e.mnemonic = .jsr) → e.width = none →
      e.base = .implied ∧ ∃ j ∈ jumps, e.mnemonic = j.mnemonic ∧ e.name = j.mnemonic.name := by
    decide +kernel
  obtain ⟨he, hn⟩ := mem_of_lookup? h
  rw [← hn]
  exact hall e he hm hw

theorem select?_of_jump (hj : j ∈ jumps) :
    standard.select? j.mnemonic .absolute = some (j.near, .absolute) ∧
      standard.select? j.mnemonic .long = some (j.far, .long) ∧
      (j.mnemonic = .jmp ∨ j.mnemonic = .jsr) ∧ (j.near = 0x4C ∨ j.near = 0x20) := by
  have hall : ∀ j ∈ jumps, standard.select? j.mnemonic .absolute = some (j.near, .absolute) ∧
      standard.select? j.mnemonic .long = some (j.far, .long) ∧
      (j.mnemonic = .jmp ∨ j.mnemonic = .jsr) ∧ (j.near = 0x4C ∨ j.near = 0x20) := by
    decide +kernel
  exact hall j hj

theorem mode_of_near {m : Mnemonic} {mode : Mode} {c : UInt8}
    (h : standard.opcode? m mode = some c) (hc : c = 0x4C ∨ c = 0x20) : mode = .absolute := by
  have hrow := row_of_opcode? h
  rcases hc with rfl | rfl
  · have hat : opcodes[(0x4C : UInt8).toNat]? = some (.jmp, .absolute) := rfl
    rw [hat] at hrow
    exact (Prod.mk.inj (Option.some.inj hrow)).2.symm
  · have hat : opcodes[(0x20 : UInt8).toNat]? = some (.jsr, .absolute) := rfl
    rw [hat] at hrow
    exact (Prod.mk.inj (Option.some.inj hrow)).2.symm

omit [TokenSource σ] [LawfulTokenSource σ] in
theorem join_of_jump {pass : Pass} (hj : j ∈ jumps) (he : e.mnemonic = j.mnemonic)
    (hmode : o.mode = .long) (hw : o.width = none) :
    standard.join pass e o =
      .ok (if o.forward = true ∧ o.value ≤ 0xFFFF then ⟨j.near, o.value + 0x10000 * nop.toNat, 4⟩
        else ⟨j.far, o.value, 4⟩) := by
  obtain ⟨hnear, hfar, hm, -⟩ := select?_of_jump hj
  rw [← he] at hnear hfar hm
  cases hpad : o.isPadded e.mnemonic with
  | true =>
    obtain ⟨-, hF, -, -, hle⟩ := isPadded_eq_true.1 hpad
    rw [if_pos ⟨hF, hle⟩]
    exact (join_of_padded hpad).2 ⟨_, choose_eq_ok.2 (.inl hnear), rfl⟩
  | false =>
    have hn : ¬(o.forward = true ∧ o.value ≤ 0xFFFF) := fun h ↦ by
      rw [isPadded_eq_true.2 ⟨hm, h.1, hw, hmode, h.2⟩] at hpad
      cases hpad
    rw [if_neg hn]
    rw [← hmode] at hfar
    refine (join_of_not_padded hpad).2 ⟨_, choose_eq_ok.2 (.inl hfar), ?_⟩
    simp only [hw, hmode]
    rfl

theorem IsJump.exists_run_encode (h : IsJump site eval name s j v)
    (hv : Domain.address.Holds v) (hwide : isWide site memory v) :
    ∃ r, (standard.encode site eval memory name).run s =
      .ok (if site.isForward memory = true ∧ v ≤ 0xFFFF then ⟨j.near, v + 0x10000 * nop.toNat, 4⟩
        else ⟨j.far, v, 4⟩) r := by
  have hsettle : Form.plain.settle site memory .implied ⟨v, none⟩ =
      .ok ⟨.long, v, none, site.isForward memory⟩ :=
    (settle_direct_none (.inl rfl)).2 ⟨hv, by rw [if_pos hwide]; rfl⟩
  obtain ⟨r, hr⟩ : ∃ r, (Grammar.parse site eval memory .implied none).run s = .ok _ r :=
    h.phrase.exists_run_parse_of_settle hsettle
  have ho := run_operand_eq_ok.2 ⟨lookup?_of_jump h.mem h.fold_name, hr⟩
  exact ⟨r, run_encode_eq_ok.2 ⟨_, _, ho, join_of_jump h.mem rfl rfl rfl⟩⟩

theorem isForward_of_vacant (hp : site.pass = .final) (h : site.Vacant memory) :
    site.isForward memory = true :=
  Site.isForward_iff.2 ⟨hp, h⟩

theorem IsJump.exists_run_encode_final (h : IsJump site eval name s j v) (hp : site.pass = .final)
    (hz : site.Vacant memory) (hv : 0 ≤ v) (hlt : v ≤ 0xFFFFFF) :
    ∃ en r, (standard.encode site eval memory name).run s = .ok en r ∧ en.length = 4 ∧
      (v ≤ 0xFFFF → en.bytes = j.near :: littleEndian 2 v ++ [nop]) ∧
      (0xFFFF < v → en.bytes = j.far :: littleEndian 3 v) := by
  have hF := isForward_of_vacant hp hz
  obtain ⟨r, hr⟩ := h.exists_run_encode ⟨hv, hlt⟩ (.inl hF)
  rw [hF] at hr
  by_cases hle : v ≤ 0xFFFF
  · rw [if_pos ⟨rfl, hle⟩] at hr
    refine ⟨_, r, hr, rfl, fun _ ↦ ?_, fun hn ↦ absurd hle (Int.not_le.2 hn)⟩
    rw [Encoding.bytes_of_length (n := 3) rfl (by decide), littleEndian_padded hv hle]
    rfl
  · rw [if_neg fun hn ↦ hle hn.2] at hr
    exact ⟨_, r, hr, rfl, fun hn ↦ absurd hn hle,
      fun _ ↦ Encoding.bytes_of_length (n := 3) rfl (by decide)⟩

theorem IsJump.exists_run_encode_first (h : IsJump site eval name s j 0) (hp : site.pass = .first) :
    ∃ en r, (standard.encode site eval memory name).run s = .ok en r ∧ en.length = 4 ∧
      en.bytes = [j.far, 0, 0, 0] := by
  have hwide : isWide site memory 0 := (isWide_first hp).2 rfl
  obtain ⟨r, hr⟩ := h.exists_run_encode ⟨by decide, by decide⟩ hwide
  rw [isForward_first hp, if_neg (by simp)] at hr
  exact ⟨_, r, hr, rfl, rfl⟩

omit [LawfulTokenSource σ] in
theorem isPadded_of_encode (h : (standard.encode site eval memory name).run s = .ok en r)
    (hopcode : en.opcode = 0x4C ∨ en.opcode = 0x20) (hlength : en.length = 4) :
    ∃ e o, (standard.operand site eval memory name).run s = .ok (e, o) r ∧
      o.isPadded e.mnemonic = true := by
  obtain ⟨e, o, ho, hj⟩ := run_encode_eq_ok.1 h
  refine ⟨e, o, ho, ?_⟩
  by_contra hpad
  obtain ⟨row, hrow, rfl⟩ := (join_of_not_padded (Bool.eq_false_iff.2 hpad)).1 hj
  have hmode : row.2 = .absolute := by
    rcases choose_eq_ok.1 hrow with hs | ⟨-, -, rfl⟩
    · exact mode_of_near (opcode?_of_select? hs) hopcode
    · rcases hopcode with hc | hc <;> cases hc
  rw [hmode] at hlength
  cases hlength

theorem isJump_of_encode (h : (standard.encode site eval memory name).run s = .ok en r)
    (hopcode : en.opcode = 0x4C ∨ en.opcode = 0x20) (hlength : en.length = 4) :
    site.pass = .final ∧ site.Vacant memory ∧
      ∃ j v, IsJump site eval name s j v ∧ 0 ≤ v ∧ v ≤ 0xFFFF := by
  obtain ⟨e, o, ho, hpad⟩ := isPadded_of_encode h hopcode hlength
  obtain ⟨hl, hparse⟩ := run_operand_eq_ok.1 ho
  obtain ⟨hm, -, -, -, hle⟩ := isPadded_eq_true.1 hpad
  obtain ⟨hw, hphrase, hF, hv⟩ := phrase_of_isPadded hpad hparse
  obtain ⟨hb, j, hj, -, hn⟩ := exists_jump hl hm hw
  obtain ⟨hp, hz⟩ := Site.isForward_iff.1 hF
  rw [hb] at hphrase
  exact ⟨hp, hz, j, o.value, ⟨hj, hn, hphrase⟩, hv.1, hle⟩

/-- Where the final pass reads a jump, the first pass reads one with a value of zero, if it has no
value for the address yet or the address is zero. -/
theorem IsJump.first_of_final {site' : Site} {labels labels' : String → Option Int}
    (h : IsJump site' (Expr.sum labels') name s j v) (hp : site.pass = .first)
    (hp' : site'.pass = .final) (hle : ∀ l w, labels l = some w → labels' l = some w)
    (hzero : (∃ e q, (Expr.sum labels).run (putBack (next s).1 (next s).2) = .error e q) ∨ v = 0) :
    IsJump site (Expr.sum labels) name s j 0 := by
  obtain ⟨p, q, r, u, hs, hx, hm, hv, hu⟩ := h.phrase.reads
  have hends : ends (next u).1 = true := ends_eq_true.2 (.inl hu)
  have hzero' : (evaluate site (Expr.sum labels)).run r = .ok 0 u := by
    rcases run_evaluate_first_of_final hle hp hp' hv hends with ⟨hsum, hv⟩ | ⟨-, hv⟩
    · rcases hzero with ⟨e, q', he⟩ | rfl
      · cases hs
        cases hx with
        | bare =>
          cases hm
          rw [hsum] at he
          cases he
        | symbol hfront => cases hfront
      · exact hv
    · exact hv
  exact ⟨h.mem, h.fold_name, h.phrase.allowed, p, q, r, u, hs, hx, hm, hzero', hu⟩

end

/-- A jump or a call of four bytes has the opcode of its absolute form just where it is read on the
final pass as an address of two bytes and nothing more, with three bytes of zero behind the opcode.
Then the instruction that does nothing fills up the room. In the same place an address of three
bytes makes the long form, and on the first pass an address that is zero or has no value yet is
given the room. -/
theorem encode_jump_exact {σ : Type} [TokenSource σ] [LawfulTokenSource σ] (site : Site)
    (eval : Expr.Evaluator σ) (memory : UInt32 → UInt8) (name : String) (s : σ) :
    (∀ en r, (standard.encode site eval memory name).run s = .ok en r →
      ((en.opcode = 0x4C ∨ en.opcode = 0x20) ∧ en.length = 4 ↔
        site.pass = .final ∧ site.Vacant memory ∧
          ∃ j v, IsJump site eval name s j v ∧ 0 ≤ v ∧ v ≤ 0xFFFF)) ∧
      (∀ j v, IsJump site eval name s j v → site.pass = .final → site.Vacant memory → 0 ≤ v →
        v ≤ 0xFFFFFF →
          ∃ en r, (standard.encode site eval memory name).run s = .ok en r ∧ en.length = 4 ∧
            (v ≤ 0xFFFF → en.bytes = j.near :: littleEndian 2 v ++ [nop]) ∧
            (0xFFFF < v → en.bytes = j.far :: littleEndian 3 v)) ∧
      (∀ j, IsJump site eval name s j 0 → site.pass = .first →
        ∃ en r, (standard.encode site eval memory name).run s = .ok en r ∧ en.length = 4 ∧
          en.bytes = [j.far, 0, 0, 0]) ∧
      ∀ (labels labels' : String → Option Int) (site' : Site) (memory' : UInt32 → UInt8) (j : Jump)
        (v : Int), IsJump site (Expr.sum labels') name s j v → site.pass = .final →
        site'.pass = .first → (∀ l w, labels l = some w → labels' l = some w) →
        (∃ e q, (Expr.sum labels).run (putBack (next s).1 (next s).2) = .error e q) ∨ v = 0 →
          ∃ en r, (standard.encode site' (Expr.sum labels) memory' name).run s = .ok en r ∧
            en.length = 4 ∧ en.bytes = [j.far, 0, 0, 0] := by
  refine ⟨fun en r h ↦ ⟨fun hc ↦ isJump_of_encode h hc.1 hc.2, ?_⟩,
    fun j v hj hp hz hv hlt ↦ hj.exists_run_encode_final hp hz hv hlt,
    fun j hj hp ↦ hj.exists_run_encode_first hp,
    fun labels labels' site' memory' j v hj hp hp' hle hzero ↦
      (hj.first_of_final hp' hp hle hzero).exists_run_encode_first hp'⟩
  intro hc
  obtain ⟨hp, hz, j, v, hj, hv, hle⟩ := hc
  obtain ⟨r', hr⟩ := hj.exists_run_encode ⟨hv, by change v ≤ 0xFFFFFF; omega⟩
    (.inl (isForward_of_vacant hp hz))
  rw [isForward_of_vacant hp hz, if_pos ⟨rfl, hle⟩, h] at hr
  cases hr
  exact ⟨(select?_of_jump hj.mem).2.2.2, rfl⟩

/-- A call ahead on both passes. -/
theorem encode_jump_exact_later :
    (∃ en r, (standard.encode (.ofAddress .final 0x8000) (Expr.sum fun _ ↦ some 0x9234)
      (fun _ ↦ 0) "JSR").run (⟨[⟨.identifier, "later", 4⟩], 9⟩ : Line) = .ok en r ∧
        en.bytes = [0x20, 0x34, 0x92, 0xEA]) ∧
      ∃ en r, (standard.encode (.ofAddress .first 0x8000) (Expr.sum fun _ ↦ none)
        (fun _ ↦ 0) "JSR").run (⟨[⟨.identifier, "later", 4⟩], 9⟩ : Line) = .ok en r ∧
          en.bytes = [0x22, 0, 0, 0] := by
  have hphrase : Phrase (.ofAddress .final 0x8000) (Expr.sum fun _ ↦ some 0x9234) .implied
      (⟨[⟨.identifier, "later", 4⟩], 9⟩ : Line) none .plain none 0x9234 :=
    .of_word (by decide) (by decide) rfl (.label rfl rfl)
  have hjump : IsJump (.ofAddress .final 0x8000) (Expr.sum fun _ ↦ some 0x9234) "JSR" _
      ⟨.jsr, 0x20, 0x22⟩ 0x9234 := ⟨by decide, by decide +kernel, hphrase⟩
  have hdefer : Assembly.Visit.fault? ((Expr.sum fun _ ↦ none).run
      (⟨[⟨.identifier, "later", 4⟩], 9⟩ : Line)) = some (.undefined "later") := by
    decide +kernel
  obtain ⟨q, hq⟩ := Assembly.Visit.fault?_eq_some_iff.1 hdefer
  obtain ⟨-, hfinal, -, hfirst⟩ := encode_jump_exact (.ofAddress .final 0x8000)
    (Expr.sum fun _ ↦ some 0x9234) (fun _ ↦ 0) "JSR"
    (⟨[⟨.identifier, "later", 4⟩], 9⟩ : Line)
  obtain ⟨en, r, h, -, hbytes, -⟩ :=
    hfinal _ _ hjump rfl ⟨rfl, rfl, rfl⟩ (by decide) (by decide)
  obtain ⟨en', r', h', -, hbytes'⟩ := hfirst (fun _ ↦ none) _ (.ofAddress .first 0x8000)
    (fun _ ↦ 0) _ _ hjump rfl rfl (by simp) (.inl ⟨_, q, hq⟩)
  exact ⟨⟨en, r, h, (hbytes (by decide)).trans (by decide)⟩, en', r', h', hbytes'⟩

section

variable {σ : Type} [TokenSource σ] [LawfulTokenSource σ] {instructions : List Instruction}
variable {aliases : List Alias} {rows : List (Mnemonic × Mode)} {site : Site}
variable {eval : Expr.Evaluator σ} {memory : UInt32 → UInt8} {name : String} {s r : σ}
variable {en : Encoding} {e : Entry} {o : Operand}

/-- An instruction that does nothing fills up the room of a jump or a call by an address of two
bytes. Where the table lists the absolute form it is an instruction of its own. Where it does not,
the opcode is that of the long form, and the byte is taken for a bank. -/
theorem encode_padded
    (h : ((ofLists instructions aliases rows).encode site eval memory name).run s = .ok en r)
    (ho : ((ofLists instructions aliases rows).operand site eval memory name).run s =
      .ok (e, o) r)
    (hnop : en.value = o.value + 0x10000 * nop.toNat) :
    (e.mnemonic = .jmp ∨ e.mnemonic = .jsr) ∧ en.length = 4 ∧ 0 ≤ o.value ∧ o.value ≤ 0xFFFF ∧
      en.bytes = en.opcode :: littleEndian 2 o.value ++ [nop] ∧
      ((e.mnemonic, .absolute) ∈ rows →
        (ofLists instructions aliases rows).opcode? e.mnemonic .absolute = some en.opcode) ∧
      ((e.mnemonic, .absolute) ∉ rows → (e.mnemonic, .long) ∈ rows ∧
        (ofLists instructions aliases rows).opcode? e.mnemonic .long = some en.opcode) := by
  rw [run_encode_of_operand ho] at h
  obtain ⟨hj, -⟩ := Grammar.run_ofExcept_eq_ok.1 h
  have hpad : o.isPadded e.mnemonic = true := by
    by_contra hpad
    obtain ⟨row, -, rfl⟩ := (join_of_not_padded (Bool.eq_false_iff.2 hpad)).1 hj
    have hnop : o.value = o.value + 0xEA0000 := hnop
    omega
  obtain ⟨row, hrow, rfl⟩ := (join_of_padded hpad).1 hj
  obtain ⟨-, hparse⟩ := run_operand_eq_ok.1 ho
  obtain ⟨hm, -, -, -, hle⟩ := isPadded_eq_true.1 hpad
  obtain ⟨-, -, hF, hv⟩ := phrase_of_isPadded hpad hparse
  rw [(Site.isForward_iff.1 hF).1] at hrow
  have hs := choose_final_eq_ok.1 hrow
  refine ⟨hm, rfl, hv.1, hle, ?_, fun hmem ↦ ?_, fun hmem ↦ ?_⟩
  · rw [Encoding.bytes_of_length (n := 3) rfl (by decide), littleEndian_padded hv.1 hle]
    rfl
  · rcases select?_eq_some.1 hs with ⟨hc, -⟩ | ⟨hn, -, -⟩
    · exact hc
    · exact absurd hmem (opcode?_eq_none_iff.1 hn)
  · rcases select?_eq_some.1 hs with ⟨hc, -⟩ | ⟨-, hw, hc⟩
    · rw [opcode?_eq_none_iff.2 hmem] at hc
      cases hc
    · have hlong : row.2 = .long := (Option.some.inj hw).symm
      rw [hlong] at hc
      refine ⟨?_, hc⟩
      by_contra hn
      rw [opcode?_eq_none_iff.2 hn] at hc
      cases hc

end

theorem encode_padded_jump :
    ∃ en r e o, ((ofLists instructions aliases opcodes).encode (.ofAddress .final 0x8000)
        (Expr.sum fun _ ↦ none) (fun _ ↦ 0) "jmp").run (⟨[⟨.number, "$1234", 4⟩], 9⟩ : Line) =
          .ok en r ∧
      ((ofLists instructions aliases opcodes).operand (.ofAddress .final 0x8000)
        (Expr.sum fun _ ↦ none) (fun _ ↦ 0) "jmp").run (⟨[⟨.number, "$1234", 4⟩], 9⟩ : Line) =
          .ok (e, o) r ∧
      en.value = o.value + 0x10000 * nop.toNat ∧
      (ofLists instructions aliases opcodes).opcode? e.mnemonic .absolute = some en.opcode := by
  have hrun : Assembly.Visit.result? (((ofLists instructions aliases opcodes).operand
      (.ofAddress .final 0x8000) (Expr.sum fun _ ↦ none) (fun _ ↦ 0) "jmp").run
        (⟨[⟨.number, "$1234", 4⟩], 9⟩ : Line)) =
      some (⟨"jmp", .jmp, .implied, none⟩, ⟨.long, 0x1234, none, true⟩) := by
    decide +kernel
  obtain ⟨r, ho⟩ := Assembly.Visit.result?_eq_some_iff.1 hrun
  have hj : (ofLists instructions aliases opcodes).join .final ⟨"jmp", .jmp, .implied, none⟩
      ⟨.long, 0x1234, none, true⟩ = .ok ⟨0x4C, 0xEA1234, 4⟩ := by
    decide +kernel
  have h := run_encode_eq_ok.2 ⟨_, _, ho, hj⟩
  exact ⟨_, r, _, _, h, ho, rfl, (encode_padded h ho rfl).2.2.2.2.2.1 (by decide +kernel)⟩

/-- Where a table lists the long form of a jump only, the byte that fills up the room becomes the
bank of its address. -/
theorem encode_padded_bank :
    ∃ en r e o, ((ofLists instructions aliases [(.nop, .implied), (.jmp, .long)]).encode
        (.ofAddress .final 0x8000) (Expr.sum fun _ ↦ none) (fun _ ↦ 0) "jmp").run
          (⟨[⟨.number, "$1234", 4⟩], 9⟩ : Line) = .ok en r ∧
      ((ofLists instructions aliases [(.nop, .implied), (.jmp, .long)]).operand
        (.ofAddress .final 0x8000) (Expr.sum fun _ ↦ none) (fun _ ↦ 0) "jmp").run
          (⟨[⟨.number, "$1234", 4⟩], 9⟩ : Line) = .ok (e, o) r ∧
      en.value = o.value + 0x10000 * nop.toNat ∧ en.bytes = [0x01, 0x34, 0x12, 0xEA] ∧
      (ofLists instructions aliases [(.nop, .implied), (.jmp, .long)]).opcode? e.mnemonic .long =
        some en.opcode ∧
      (e.mnemonic, .absolute) ∉ [(.nop, .implied), (Mnemonic.jmp, Mode.long)] := by
  have hrun : Assembly.Visit.result? (((ofLists instructions aliases
      [(.nop, .implied), (.jmp, .long)]).operand (.ofAddress .final 0x8000)
        (Expr.sum fun _ ↦ none) (fun _ ↦ 0) "jmp").run (⟨[⟨.number, "$1234", 4⟩], 9⟩ : Line)) =
      some (⟨"jmp", .jmp, .implied, none⟩, ⟨.long, 0x1234, none, true⟩) := by
    decide +kernel
  obtain ⟨r, ho⟩ := Assembly.Visit.result?_eq_some_iff.1 hrun
  have hj : (ofLists instructions aliases [(.nop, .implied), (.jmp, .long)]).join .final
      ⟨"jmp", .jmp, .implied, none⟩ ⟨.long, 0x1234, none, true⟩ = .ok ⟨1, 0xEA1234, 4⟩ := by
    decide +kernel
  have h := run_encode_eq_ok.2 ⟨_, _, ho, hj⟩
  exact ⟨_, r, _, _, h, ho, rfl, rfl, by decide +kernel, by decide⟩

end InstructionSet

end Asm65816
