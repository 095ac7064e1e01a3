import Asm65816.Proofs.Immediate

namespace Asm65816

def Width.mark : Width → Char
  | byte => '<'
  | word => '!'
  | long => '>'

namespace Operand

open InstructionSet TokenSource Grammar

/-- A line puts a part of a number into an instruction: behind a mnemonic that has an opcode for
that, there is an immediate operand with the mark of the part. -/
structure PutsPart {σ : Type} [TokenSource σ] (set : InstructionSet) (site : Site)
    (eval : Expr.Evaluator σ) (name : String) (s : σ) (c : Char) (v : Int) (opcode : UInt8) :
    Prop where
  written : ∃ e suffix m, set.lookup? name = some e ∧
    set.opcode? e.mnemonic (constantMode e.base) = some opcode ∧
    Phrase site eval e.base s suffix .immediate (some m) v ∧ m.1 = c

section

variable {site : Site} {memory : UInt32 → UInt8} {base : Mode} {f : Form} {m : Mark} {w : Width}
variable {v u : Int} {set : InstructionSet} {e : Entry} {opcode : UInt8}

theorem apply_addressMark (hm : m ∈ addressMarks) (hw : m.1 = w.mark) (v : Int) :
    m.2 v = ⟨w.truncate v, some w⟩ := by
  simp only [addressMarks, List.mem_cons, List.not_mem_nil, or_false] at hm
  rcases hm with rfl | rfl | rfl <;> cases w <;> first | rfl | exact absurd hw (by decide)

theorem apply_constantMark (hm : m ∈ constantMarks) (v : Int) :
    (m.1 = '<' → m.2 v = ⟨v % 0x100, some .byte⟩) ∧
      (m.1 = '>' → m.2 v = ⟨v / 0x100 % 0x100, some .byte⟩) := by
  simp only [constantMarks, List.mem_cons, List.not_mem_nil, or_false] at hm
  rcases hm with rfl | rfl
  · exact ⟨fun _ ↦ rfl, fun hc ↦ absurd hc (by decide)⟩
  · exact ⟨fun hc ↦ absurd hc (by decide), fun _ ↦ rfl⟩

theorem holds_truncate (w : Width) (v : Int) :
    Domain.address.Holds (w.truncate v) ∧ (Sized.domain w).Holds (w.truncate v) := by
  have h := w.truncate_nonneg v
  have h' := w.truncate_lt v
  have hsize : w.size ≤ 0x1000000 := by cases w <;> decide
  refine ⟨⟨h, show w.truncate v ≤ 0xFFFFFF by omega⟩, ?_⟩
  cases w <;> exact ⟨h, Int.le_sub_one_of_lt h'⟩

/-- The low bits of a value are an address of their width, wherever the operand is and whatever
there is in memory. -/
theorem settle_truncate (hf : f = .plain ∨ f = .indexedX) :
    f.settle site memory base ⟨w.truncate v, some w⟩ =
      .ok ⟨f.rung w, w.truncate v, some w, site.isForward memory⟩ := by
  obtain ⟨haddress, hw⟩ := holds_truncate w v
  have ha : Address.ofSized site memory ⟨w.truncate v, some w⟩ =
      .ok ⟨w.truncate v, some w, site.isForward memory, false⟩ :=
    Address.ofSized_eq_ok.2 ⟨haddress, fun w' hw' ↦ by cases hw'; exact hw, by simp⟩
  rcases hf with rfl | rfl
  · rw [Form.settle, ha]
    exact congrArg _ (congrArg _ (Address.plain_of_width rfl))
  · rw [Form.settle, ha]
    exact congrArg _ (congrArg _ (Address.indexedX_of_width rfl hw rfl))

theorem immediate_of_byte (hu : 0 ≤ u) (hu' : u < 0x100) :
    (Sized.mk u (some .byte)).immediate base = .ok ⟨constantMode base, u, some .byte, false⟩ := by
  have hd : Domain.constant8.Holds u := ⟨show -0x80 ≤ u by omega, show u ≤ 0xFF by omega⟩
  have ht : Width.byte.truncate u = u := Width.truncate_of_lt hu hu'
  rw [immediate_eq_byte (.inr rfl), Domain.check_of_holds hd]
  change Except.ok (Operand.mk _ (Width.byte.truncate u) _ _) = _
  rw [ht]

theorem join_of_byte (hc : set.opcode? e.mnemonic (constantMode e.base) = some opcode)
    (pass : Pass) : set.join pass e ⟨constantMode e.base, u, some .byte, false⟩ =
      .ok ⟨opcode, u, 2⟩ := by
  refine (join_of_not_padded (isPadded_of_forward rfl)).2 ⟨(opcode, constantMode e.base), ?_, ?_⟩
  · exact choose_eq_ok.2 (.inl (select?_eq_some.2 (.inl ⟨hc, rfl⟩)))
  · rw [lengthIn_constantMode]

end

section

variable {σ : Type} [TokenSource σ] [LawfulTokenSource σ] {set : InstructionSet} {site : Site}
variable {eval : Expr.Evaluator σ} {memory : UInt32 → UInt8} {base : Mode} {name : String}
variable {width suffix : Option Width} {f : Form} {m : Mark} {w : Width} {opcode : UInt8}
variable {s : σ} {c : Char} {v u : Int}

theorem Phrase.exists_run_parse_of_addressMark (h : Phrase site eval base s suffix f (some m) v)
    (hf : f = .plain ∨ f = .indexedX) (hw : m.1 = w.mark) :
    ∃ r, (parse site eval memory base width).run s =
      .ok ⟨f.rung w, v % w.size, some w, site.isForward memory⟩ r := by
  have hm : m ∈ addressMarks := by
    have hmem := h.mem_marks
    rcases hf with rfl | rfl <;> exact hmem
  refine h.exists_run_parse_of_settle ?_
  change f.settle site memory base (m.2 v) = _
  rw [apply_addressMark hm hw]
  exact settle_truncate hf

theorem Phrase.exists_run_parse_of_byte (memory : UInt32 → UInt8) (width : Option Width)
    (h : Phrase site eval base s suffix .immediate (some m) v) (hm : m.2 v = ⟨u, some .byte⟩)
    (hu : 0 ≤ u) (hu' : u < 0x100) :
    ∃ r, (parse site eval memory base width).run s =
      .ok ⟨constantMode base, u, some .byte, false⟩ r := by
  refine h.exists_run_parse_of_settle ?_
  change (m.2 v).immediate base = _
  rw [hm]
  exact immediate_of_byte hu hu'

theorem PutsPart.exists_run_encode (memory : UInt32 → UInt8)
    (h : PutsPart set site eval name s c v opcode)
    (hm : ∀ m ∈ constantMarks, m.1 = c → m.2 v = ⟨u, some .byte⟩) (hu : 0 ≤ u)
    (hu' : u < 0x100) :
    ∃ (b : UInt8) (en : Encoding) (r : σ), (set.encode site eval memory name).run s = .ok en r ∧
      en.bytes = [opcode, b] ∧ (b.toNat : Int) = u := by
  obtain ⟨e, suffix, m, hl, hc, hphrase, hmark⟩ := h.written
  obtain ⟨r, hr⟩ := hphrase.exists_run_parse_of_byte memory e.width
    (hm m hphrase.mem_marks hmark) hu hu'
  refine ⟨_, _, r, run_encode_of_parse hl hr (join_of_byte hc _), rfl, ?_⟩
  exact (toNat_lowByte u).trans (Int.emod_eq_of_lt hu hu')

end

/-- A mark in front of an address keeps as many of its low bits as the width has that it forces, and
so the address is always in range. The marks of an immediate operand keep a byte of it, the low one
or the one above that; put into two instructions, these bytes make up the low word of the value. -/
theorem run_parse_masked {σ : Type} [TokenSource σ] [LawfulTokenSource σ] (set : InstructionSet)
    (site : Site) (eval : Expr.Evaluator σ) (memory : UInt32 → UInt8) (base : Mode)
    (width suffix : Option Width) (s : σ) (v : Int) :
    (∀ f m w, f = .plain ∨ f = .indexedX → m.1 = Width.mark w →
        Phrase site eval base s suffix f (some m) v →
        ∃ r, (parse site eval memory base width).run s =
          .ok ⟨f.rung w, v % w.size, some w, site.isForward memory⟩ r) ∧
      (∀ m, m.1 = '<' → Phrase site eval base s suffix .immediate (some m) v →
        ∃ r, (parse site eval memory base width).run s =
          .ok ⟨constantMode base, v % 0x100, some .byte, false⟩ r) ∧
      (∀ m, m.1 = '>' → Phrase site eval base s suffix .immediate (some m) v →
        ∃ r, (parse site eval memory base width).run s =
          .ok ⟨constantMode base, v / 0x100 % 0x100, some .byte, false⟩ r) ∧
      ∀ (site' : Site) (memory' : UInt32 → UInt8) (name name' : String) (s' : σ)
        (opcode opcode' : UInt8), PutsPart set site eval name s '<' v opcode →
        PutsPart set site' eval name' s' '>' v opcode' →
        ∃ (low high : UInt8) (en en' : Encoding) (r r' : σ),
          (set.encode site eval memory name).run s = .ok en r ∧ en.bytes = [opcode, low] ∧
          (set.encode site' eval memory' name').run s' = .ok en' r' ∧
          en'.bytes = [opcode', high] ∧
          (low.toNat : Int) + 0x100 * high.toNat = v % 0x10000 := by
  have hlow : 0 ≤ v % 0x100 ∧ v % 0x100 < 0x100 := by omega
  have hhigh : 0 ≤ v / 0x100 % 0x100 ∧ v / 0x100 % 0x100 < 0x100 := by omega
  refine ⟨fun f m w hf hw h ↦ ?_, fun m hm h ↦ ?_, fun m hm h ↦ ?_, ?_⟩
  · exact h.exists_run_parse_of_addressMark hf hw
  · have hv := (apply_constantMark h.mem_marks v).1 hm
    exact h.exists_run_parse_of_byte memory width hv hlow.1 hlow.2
  · have hv := (apply_constantMark h.mem_marks v).2 hm
    exact h.exists_run_parse_of_byte memory width hv hhigh.1 hhigh.2
  · intro site' memory' name name' s' opcode opcode' h h'
    obtain ⟨low, en, r, hen, hbytes, hb⟩ := h.exists_run_encode memory
      (fun m hm hc ↦ (apply_constantMark hm v).1 hc) hlow.1 hlow.2
    obtain ⟨high, en', r', hen', hbytes', hb'⟩ := h'.exists_run_encode memory'
      (fun m hm hc ↦ (apply_constantMark hm v).2 hc) hhigh.1 hhigh.2
    exact ⟨low, high, en, en', r, r', hen, hbytes, hen', hbytes', by omega⟩

def wordIndexed : Line :=
  ⟨[⟨.symbol, "!", 4⟩, ⟨.identifier, "far", 5⟩, ⟨.symbol, ",", 8⟩, ⟨.identifier, "x", 9⟩], 10⟩

def partOf (mark : String) : Line :=
  ⟨[⟨.symbol, "#", 4⟩, ⟨.symbol, mark, 5⟩, ⟨.identifier, "far", 6⟩], 9⟩

/-- A value that is negative and needs more than three bytes. -/
theorem run_parse_masked_far :
    (∃ r, (parse (.ofAddress .final 0x8000) (Expr.sum fun _ ↦ some (-0x12345678)) (fun _ ↦ 0)
        .implied none).run wordIndexed = .ok ⟨.absoluteX, 0xA988, some .word, true⟩ r) ∧
      ∃ (low high : UInt8) (en en' : Encoding) (r r' : Line),
        (standard.encode (.ofAddress .final 0x8000) (Expr.sum fun _ ↦ some (-0x12345678))
          (fun _ ↦ 0) "lda").run (partOf "<") = .ok en r ∧ en.bytes = [0xA9, low] ∧
        (standard.encode (.ofAddress .final 0x8002) (Expr.sum fun _ ↦ some (-0x12345678))
          (fun _ ↦ 0) "ldx").run (partOf ">") = .ok en' r' ∧ en'.bytes = [0xA2, high] ∧
        (low.toNat : Int) + 0x100 * high.toNat = 0xA988 := by
  have hbang : (Token.mk .symbol "!" 4).isSymbol '!' = true := by decide
  have hmark : ('!', fun v ↦ ⟨v % 0x10000, some .word⟩) ∈ addressMarks :=
    List.mem_cons_of_mem _ List.mem_cons_self
  have hothers (c : Char) (hc : c ∈ Opening.bare.others) :
      (Token.mk .symbol "!" 4).isSymbol c = false :=
    Token.isSymbol_of_ne hbang ((Opening.ne_of_mem_others hc).2 _ hmark)
  have hword : Phrase (.ofAddress .final 0x8000) (Expr.sum fun _ ↦ some (-0x12345678)) .implied
      wordIndexed none .indexedX (some ('!', fun v ↦ ⟨v % 0x10000, some .word⟩))
      (-0x12345678) :=
    ⟨by decide, _, _, _, ⟨[⟨.symbol, ",", 8⟩, ⟨.identifier, "x", 9⟩], 10⟩, .bare (by decide),
      .bare rfl hothers rfl, .mark hmark hbang,
      run_evaluate_of_ok (Expr.run_sum_eq_ok.2 ⟨[_], ⟨[_, _], 10⟩, rfl, .term (.label rfl rfl),
        ⟨by decide, by decide⟩, rfl⟩), by decide, by decide, rfl⟩
  have hhash : (Token.mk .symbol "#" 4).isSymbol '.' = false ∧
      (Token.mk .symbol "#" 4).isSymbol '#' = true := by decide
  have hpart {site : Site} {mark : String} {m : Mark} (hm : m ∈ constantMarks)
      (ht : (Token.mk .symbol mark 5).isSymbol m.1 = true) :
      Phrase site (Expr.sum fun _ ↦ some (-0x12345678)) .implied (partOf mark) none .immediate
        (some m) (-0x12345678) :=
    ⟨by decide, _, _, _, ⟨[.stop 9], 9⟩, .bare hhash.1, .symbol rfl hhash.2 rfl,
      .mark hm ht, run_evaluate_of_ok (Expr.run_sum_eq_ok.2 ⟨[_], ⟨[], 9⟩, rfl,
        .term (.label rfl rfl), ⟨rfl, rfl⟩, rfl⟩), rfl⟩
  have hlda : PutsPart standard (.ofAddress .final 0x8000) (Expr.sum fun _ ↦ some (-0x12345678))
      "lda" (partOf "<") '<' (-0x12345678) 0xA9 :=
    ⟨⟨⟨"lda", .lda, .implied, none⟩, none, _, by decide +kernel, by decide +kernel,
      hpart List.mem_cons_self (by decide), rfl⟩⟩
  have hldx : PutsPart standard (.ofAddress .final 0x8002) (Expr.sum fun _ ↦ some (-0x12345678))
      "ldx" (partOf ">") '>' (-0x12345678) 0xA2 :=
    ⟨⟨⟨"ldx", .ldx, .implied, none⟩, none, _, by decide +kernel, by decide +kernel,
      hpart (List.mem_cons_of_mem _ List.mem_cons_self) (by decide), rfl⟩⟩
  obtain ⟨hdirect, -⟩ := run_parse_masked standard (.ofAddress .final 0x8000)
    (Expr.sum fun _ ↦ some (-0x12345678)) (fun _ ↦ 0) .implied none none wordIndexed (-0x12345678)
  obtain ⟨-, -, -, hboth⟩ := run_parse_masked standard (.ofAddress .final 0x8000)
    (Expr.sum fun _ ↦ some (-0x12345678)) (fun _ ↦ 0) .implied none none (partOf "<") (-0x12345678)
  exact ⟨hdirect _ _ .word (.inr rfl) rfl hword, hboth _ (fun _ ↦ 0) _ _ _ _ _ hlda hldx⟩

end Operand

end Asm65816
