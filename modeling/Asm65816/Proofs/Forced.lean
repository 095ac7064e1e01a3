import Asm65816.Proofs.Padding

namespace Asm65816

namespace Operand

open TokenSource Grammar

def KeepsLong (mark : Option Mark) : Prop := ∀ m ∈ mark, m.1 = '>'

section

variable {site : Site} {memory : UInt32 → UInt8} {base : Mode} {f : Form} {mark : Option Mark}
variable {z : Sized} {o : Operand} {v : Int}

theorem width_of_keepsLong (hm : ∀ m ∈ mark, m ∈ addressMarks) (hk : KeepsLong mark) :
    (sized mark (some .long) v).width = some .long := by
  cases mark with
  | none => rfl
  | some m =>
    obtain ⟨w, hw, hv⟩ := exists_width_of_addressMarks (hm m rfl)
    obtain rfl := hw (hk m rfl)
    exact congrArg Sized.width (hv v)

/-- A long address makes a long operand, or an operand that is no address of its own. -/
theorem mode_of_settle_long (hf : f.opening = .bare) (hw : z.width = some .long)
    (h : f.settle site memory base z = .ok o) :
    o.width = some .long ∧
      ((f = .plain ∨ f = .indexedX) ∧ o.mode = f.rung .long ∨
        f = .onStack ∧ o.mode = .stackRelative) := by
  obtain ⟨v, _⟩ := z
  cases hw
  cases f with
  | plain =>
    obtain ⟨hm, hw, -⟩ := mode_of_settle_direct (.inl rfl) h
    exact ⟨hw, .inl ⟨.inl rfl, hm⟩⟩
  | indexedX =>
    obtain ⟨hm, hw, -⟩ := mode_of_settle_direct (.inr rfl) h
    exact ⟨hw, .inl ⟨.inr rfl, hm⟩⟩
  | indexedY =>
    obtain ⟨a, ha, hl, -⟩ := settle_indexedY_eq_ok.1 h
    obtain ⟨-, -, rfl⟩ := Address.ofSized_eq_ok.1 ha
    exact absurd rfl hl
  | onStack =>
    obtain ⟨hm, hw⟩ := onStack_settle_eq_ok h
    exact ⟨hw, .inr ⟨rfl, hm⟩⟩
  | _ => cases hf

theorem settle_immediate_long (hb : base ≠ .immediate8) :
    Form.immediate.settle site memory base ⟨v, some .long⟩ = .error .longImmediate := by
  unfold Form.settle Sized.immediate
  simp only [hb, if_false]

end

section

variable {σ : Type} [TokenSource σ] {site : Site} {eval : Expr.Evaluator σ}
variable {memory : UInt32 → UInt8} {base : Mode} {width suffix : Option Width} {f : Form}
variable {mark : Option Mark} {v : Int} {s p : σ}

theorem Phrase.keepsLong (h : Phrase site eval base s suffix f mark v) (hs : Suffixed s suffix p)
    (hb : base ∉ [Mode.relative, .relativeLong, .blockMove])
    (hn : ∀ c ∈ ['#', '(', '[', '<', '!'], (next p).1.isSymbol c = false) :
    f.opening = .bare ∧ KeepsLong mark := by
  obtain ⟨p', q, r, u, hs', hx, hm, -⟩ := h.reads
  obtain rfl := hs'.unique hs
  have hbare : f.opening = .bare := by
    have hopening := Form.ofToken?_of_others (f := .plain) hb rfl fun c hc ↦
      hn c (List.mem_append_left ['<', '!'] hc)
    rw [hx.ofToken? h.allowed] at hopening
    exact Option.some.inj hopening
  rw [hbare] at hx hm
  refine ⟨hbare, ?_⟩
  cases hx with
  | symbol hfront _ _ => cases hfront
  | bare _ _ _ =>
    cases hm with
    | bare _ => simp [KeepsLong]
    | @mark m hmem ht =>
      intro m' hm'
      cases hm'
      simp only [Opening.marks, addressMarks, List.mem_cons, List.not_mem_nil, or_false] at hmem
      rcases hmem with rfl | rfl | rfl
      · simp [hn] at ht
      · simp [hn] at ht
      · rfl

/-- How a long immediate operand is refused: something has to stand behind its symbol, and to have
a value, before the width counts. -/
inductive RefusesLong (site : Site) (eval : Expr.Evaluator σ) (s : σ) : Fault → Prop
  | missing : (next s).1.isStop = true → RefusesLong site eval s (.unexpected (next s).1)
  | valueless {e : Fault} {r : σ} : (next s).1.isStop = false →
    (evaluate site eval).run (putBack (next s).1 (next s).2) = .error e r →
    RefusesLong site eval s e
  | long {w : Int} {r : σ} : (next s).1.isStop = false →
    (evaluate site eval).run (putBack (next s).1 (next s).2) = .ok w r →
    RefusesLong site eval s .longImmediate

theorem exists_run_parse_immediate_long (hs : Suffixed s suffix p)
    (hw : suffix.or width = some .long) (hb : base ∉ [Mode.relative, .relativeLong, .blockMove])
    (hbyte : base ≠ .immediate8) (ht : (next p).1.isSymbol '#' = true)
    (hn : ∀ c ∈ ['<', '>'], (next (next p).2).1.isSymbol c = false) :
    ∃ e r, RefusesLong site eval (next p).2 e ∧
      (parse site eval memory base width).run s = .error e r := by
  have hx := Form.ofToken?_of_symbol (f := .immediate) hb rfl ht
  have hfails {e : Fault} {r : σ} (h : (body site eval memory base (some .long) (next p).1).run
      (next p).2 = .error e r) : (parse site eval memory base width).run s = .error e r :=
    run_parse_of_body_error (hs.run_suffix.trans (by rw [hw])) (Token.not_isStop_of_isSymbol ht) h
  cases hstop : (next (next p).2).1.isStop with
  | true =>
    have hz : (Opening.immediate.value site eval (some .long) (next p).1).run (next p).2 =
        .error _ _ := run_value_of_isStop (by simp [Opening.front]) hstop
    exact ⟨_, _, .missing hstop, hfails (run_body_of_value_error hx hz)⟩
  | false =>
    have hopened : Opened .immediate p (next p).2 := .symbol rfl ht hstop
    have hmark : Marked Opening.immediate.marks (next p).2 none _ :=
      .bare (by simpa [Opening.marks, constantMarks] using hn)
    have hl : Opening.immediate.lead? (some .long) (next p).1 (next p).2 = some _ :=
      hopened.lead?_eq hmark
    cases hv : (evaluate site eval).run
        (putBack (next (next p).2).1 (next (next p).2).2) with
    | error e r =>
      have hz := run_value_of_evaluate_error hl hv
      exact ⟨e, r, .valueless hstop hv, hfails (run_body_of_value_error hx hz)⟩
    | ok w r =>
      have hz := run_value_eq_ok.2 ⟨_, w, hl, hv, rfl⟩
      obtain ⟨r', hr⟩ := run_body_of_settle_error hx hz rfl (settle_immediate_long hbyte)
      exact ⟨_, r', .long hstop hv, hfails hr⟩

end

end Operand

namespace InstructionSet

open Operand TokenSource

variable {σ : Type} [TokenSource σ] [LawfulTokenSource σ] {site : Site}
variable {eval : Expr.Evaluator σ} {memory : UInt32 → UInt8} {name : String} {s r : σ}
variable {en : Encoding} {e : Entry} {suffix : Option Width} {f : Form} {mark : Option Mark}
variable {v : Int}

theorem exists_row_of_forced (hp : site.pass = .final) (hl : standard.lookup? name = some e)
    (hw : suffix.or e.width = some .long) (h : Phrase site eval e.base s suffix f mark v)
    (hf : f.opening = .bare) (hk : KeepsLong mark)
    (hen : (standard.encode site eval memory name).run s = .ok en r) :
    ∃ mode, opcodes[en.opcode.toNat]? = some (e.mnemonic, mode) ∧
      ((f = .plain ∨ f = .indexedX) ∧ mode = f.rung .long ∧ en.length = 4 ∨
        f = .onStack ∧ mode = .stackRelative) := by
  obtain ⟨e', o, row, ho, hs, hc, rfl⟩ := exists_row_of_encode hp hen
  obtain ⟨hl', hparse⟩ := run_operand_eq_ok.1 ho
  rw [hl] at hl'
  cases hl'
  have hsettle := h.settle_of_run_parse hparse
  rw [hw] at hsettle
  have hmarks : ∀ m ∈ mark, m ∈ addressMarks := fun m hm ↦ by
    cases hm
    have hmem := h.mem_marks
    rwa [hf] at hmem
  obtain ⟨hwidth, hmode⟩ := mode_of_settle_long hf (width_of_keepsLong hmarks hk) hsettle
  have hpad : o.isPadded e.mnemonic = false := isPadded_of_width (by simp [hwidth])
  rw [requested, if_neg (by simp [hpad])] at hs
  have hwider : o.mode.wider? = none := by
    rcases hmode with ⟨-, hm⟩ | ⟨-, hm⟩
    · rw [hm]
      exact wider?_rung_long
    · rw [hm]
      rfl
  have hrow : row.2 = o.mode := select?_of_wider?_none hwider hs
  refine ⟨row.2, by rw [opcode_encoding]; exact row_of_opcode? hc, ?_⟩
  rw [hrow]
  refine hmode.imp_left fun hm ↦ ⟨hm.1, hm.2, ?_⟩
  rw [encoding, if_neg (by simp [hpad])]
  change lengthIn o.width row.2 = 4
  rw [hrow, hm.2, lengthIn, if_neg (by simp [hwidth]), length_rung_long]

/-- Unless a mark in front of its value asks for another width, an operand that three bytes are
forced on keeps them: an address makes a long instruction or none, and no jump is a short one. An
immediate operand of such an instruction as takes more than one byte is refused. -/
theorem encode_forced_long (hp : site.pass = .final) (hl : standard.lookup? name = some e)
    (hs : Suffixed s suffix p) (hw : suffix.or e.width = some .long)
    (hb : e.base ∉ [Mode.relative, .relativeLong, .blockMove]) :
    ((next p).1.isStop = false →
      (∀ c ∈ ['#', '(', '[', '<', '!'], (next p).1.isSymbol c = false) → ∀ en r,
        (standard.encode site eval memory name).run s = .ok en r →
          en.opcode ≠ 0x4C ∧ en.opcode ≠ 0x20 ∧
          (∃ f mark v, Phrase site eval e.base s suffix f mark v) ∧
          ∀ f mark v, Phrase site eval e.base s suffix f mark v →
            f = .onStack ∨ (f = .plain ∨ f = .indexedX) ∧ en.length = 4 ∧
              ∃ mode ∈ [Mode.long, .longX],
                opcodes[en.opcode.toNat]? = some (e.mnemonic, mode)) ∧
      ((next p).1.isSymbol '#' = true →
        (∀ c ∈ ['<', '>'], (next (next p).2).1.isSymbol c = false) → e.base ≠ .immediate8 →
        ∃ fault r, RefusesLong site eval (next p).2 fault ∧
          (standard.encode site eval memory name).run s = .error fault r) := by
  refine ⟨fun hstop hn en r hen ↦ ?_, fun ht hn hbyte ↦ ?_⟩
  · obtain ⟨o, ho, -⟩ := exists_parse_of_encode hl hen
    have hx := Form.ofToken?_of_others (f := .plain) hb rfl fun c hc ↦
      hn c (List.mem_append_left ['<', '!'] hc)
    obtain ⟨f, mark, v, h, -⟩ := exists_phrase_of_opening hs hstop hx ho
    have hrow {f : Form} {mark : Option Mark} {v : Int}
        (h : Phrase site eval e.base s suffix f mark v) :=
      exists_row_of_forced hp hl hw h (h.keepsLong hs hb hn).1 (h.keepsLong hs hb hn).2 hen
    have hshort {b : UInt8} (hb : opcodes[b.toNat]? = some (.jmp, .absolute) ∨
        opcodes[b.toNat]? = some (.jsr, .absolute)) : en.opcode ≠ b := by
      rintro rfl
      obtain ⟨mode, hmode, hcases⟩ := hrow h
      have hne : mode ≠ .absolute := by
        rcases hcases with ⟨rfl | rfl, rfl, -⟩ | ⟨-, rfl⟩ <;> decide
      rcases hb with hb | hb <;>
      · rw [hb] at hmode
        exact hne (Prod.mk.inj (Option.some.inj hmode)).2.symm
    refine ⟨hshort (.inl rfl), hshort (.inr rfl), ⟨f, mark, v, h⟩, fun f mark v h ↦ ?_⟩
    obtain ⟨mode, hmode, ⟨hf, rfl, hlength⟩ | ⟨hf, -⟩⟩ := hrow h
    · exact .inr ⟨hf, hlength, _, by rcases hf with rfl | rfl <;> decide, hmode⟩
    · exact .inl hf
  · obtain ⟨fault, r, hfault, hr⟩ := exists_run_parse_immediate_long hs hw hb hbyte ht hn
    exact ⟨fault, r, hfault, run_encode_of_parse_error hl hr⟩

/-- A call by a name that forces three bytes, where two would do. -/
theorem encode_forced_long_call :
    ∃ en r, (standard.encode (.ofAddress .final 0x8000) (Expr.sum fun _ ↦ none) (fun _ ↦ 0)
        "jsl").run (⟨[⟨.number, "$1234", 4⟩], 9⟩ : Line) = .ok en r ∧ en.length = 4 ∧
      ∃ mode ∈ [Mode.long, .longX], opcodes[en.opcode.toNat]? = some (.jsr, mode) := by
  have hl : standard.lookup? "jsl" = some ⟨"jsl", .jsr, .implied, some .long⟩ := by decide +kernel
  have hphrase : Phrase (.ofAddress .final 0x8000) (Expr.sum fun _ ↦ none) .implied
      (⟨[⟨.number, "$1234", 4⟩], 9⟩ : Line) none .plain none 0x1234 :=
    .of_word (by decide) (by decide) rfl (.number rfl (by decide))
  have hrun : Assembly.Visit.result? ((standard.encode (.ofAddress .final 0x8000)
      (Expr.sum fun _ ↦ none) (fun _ ↦ 0) "jsl").run (⟨[⟨.number, "$1234", 4⟩], 9⟩ : Line)) =
        some ⟨0x22, 0x1234, 4⟩ := by
    decide +kernel
  obtain ⟨r, h⟩ := Assembly.Visit.result?_eq_some_iff.1 hrun
  have hforced := (encode_forced_long rfl hl (.bare rfl) rfl (by decide)).1 rfl
    (fun _ _ ↦ Token.isSymbol_of_kind (by decide) _) _ r h
  obtain hf | ⟨-, hlength, hrow⟩ := hforced.2.2.2 _ _ _ hphrase
  · cases hf
  · exact ⟨_, r, h, hlength, hrow⟩

/-- A mark of another width, an instruction that takes one byte and no more, a branch and a block
move, which takes the name of the index for a label, each make a shorter instruction of an operand
that three bytes are forced on. -/
theorem encode_forced_shorter :
    [("jsl", [⟨.symbol, "!", 4⟩, ⟨.number, "$1234", 5⟩]),
      ("lda", [⟨.symbol, ".", 3⟩, ⟨.identifier, "l", 4⟩, ⟨.symbol, "#", 6⟩, ⟨.symbol, "<", 7⟩,
        ⟨.number, "$1234", 8⟩]),
      ("sep", [⟨.symbol, ".", 3⟩, ⟨.identifier, "l", 4⟩, ⟨.symbol, "#", 6⟩, ⟨.number, "$30", 7⟩]),
      ("bra", [⟨.symbol, ".", 3⟩, ⟨.identifier, "l", 4⟩, ⟨.symbol, "#", 6⟩, ⟨.number, "5", 7⟩]),
      ("bra", [⟨.symbol, ".", 3⟩, ⟨.identifier, "l", 4⟩, ⟨.number, "$8007", 6⟩]),
      ("mvn", [⟨.symbol, ".", 3⟩, ⟨.identifier, "l", 4⟩, ⟨.number, "5", 6⟩, ⟨.symbol, ",", 7⟩,
        ⟨.identifier, "x", 8⟩])].map (fun x ↦
          Assembly.Visit.result? ((standard.encode (.ofAddress .final 0x8000)
            (Expr.sum fun _ ↦ some 3) (fun _ ↦ 0) x.1).run (⟨x.2, 13⟩ : Line))) =
      [some ⟨0x20, 0x1234, 3⟩, some ⟨0xA9, 0x34, 2⟩, some ⟨0xE2, 0x30, 2⟩, some ⟨0x80, 5, 2⟩,
        some ⟨0x80, 5, 2⟩, some ⟨0x54, 0x305, 3⟩] := by
  decide +kernel

end InstructionSet

end Asm65816
