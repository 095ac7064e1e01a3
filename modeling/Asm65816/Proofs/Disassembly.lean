import Asm65816.Proofs.Encode
import Asm65816.Proofs.Encoding
import Asm65816.Proofs.InstructionSet
import Asm65816.Proofs.Lexeme
import Asm65816.Proofs.Operand.Accepted

namespace Asm65816

def Mode.text (v : Nat) (mode : Mode) : String :=
  let n := "$" ++ Text.hexadecimal v
  match mode with
  | implied => ""
  | immediate8 | immediate16 | relative | relativeLong => "#" ++ n
  | blockMove => "$" ++ Text.hexadecimal (v % 0x100) ++ ",$" ++ Text.hexadecimal (v / 0x100)
  | direct => "<" ++ n
  | absolute => "!" ++ n
  | long => ">" ++ n
  | directX => "<" ++ n ++ ",x"
  | directY => "<" ++ n ++ ",y"
  | absoluteX => "!" ++ n ++ ",x"
  | absoluteY => "!" ++ n ++ ",y"
  | longX => ">" ++ n ++ ",x"
  | stackRelative => n ++ ",s"
  | indirect | absoluteIndirect => "(" ++ n ++ ")"
  | indirectY => "(" ++ n ++ "),y"
  | indexedIndirect | absoluteIndexedIndirect => "(" ++ n ++ ",x)"
  | stackRelativeIndirectY => "(" ++ n ++ ",s),y"
  | indirectLong | absoluteIndirectLong => "[" ++ n ++ "]"
  | indirectLongY => "[" ++ n ++ "],y"

def disassemble (m : Mnemonic) (mode : Mode) (v : Nat) : String :=
  if mode = .implied then m.name else m.name ++ " " ++ mode.text v

def Mode.writing? : Mode → Option (Operand.Form × Option Width)
  | implied | blockMove => none
  | immediate8 | immediate16 => some (.immediate, none)
  | relative => some (.distance .short, none)
  | relativeLong => some (.distance .long, none)
  | direct => some (.plain, some .byte)
  | absolute => some (.plain, some .word)
  | long => some (.plain, some .long)
  | directX => some (.indexedX, some .byte)
  | absoluteX => some (.indexedX, some .word)
  | longX => some (.indexedX, some .long)
  | directY => some (.indexedY, some .byte)
  | absoluteY => some (.indexedY, some .word)
  | stackRelative => some (.onStack, none)
  | indirect | absoluteIndirect => some (.indirect, none)
  | indirectY => some (.indirectY, none)
  | indexedIndirect | absoluteIndexedIndirect => some (.indexedIndirect, none)
  | stackRelativeIndirectY => some (.stackIndirectY, none)
  | indirectLong | absoluteIndirectLong => some (.indirectLong, none)
  | indirectLongY => some (.indirectLongY, none)

namespace Operand

open Lexeme

def Glyph.word : Glyph → Word
  | symbol c => (.symbol, [c])
  | letter c => (.identifier, [c])

def mark : Width → Char
  | .byte => '<'
  | .word => '!'
  | .long => '>'

def Form.words (f : Form) (width : Option Width) (v : Nat) : List Word :=
  f.opening.front.map Glyph.word ++
    (width.toList.map (fun w ↦ (.symbol, [mark w])) ++
      [(.number, '$' :: (Text.hexadecimal v).toList)]) ++
    f.behind.map Glyph.word

theorem text_eq_render {mode : Mode} {f : Form} {width : Option Width}
    (h : mode.writing? = some (f, width)) (v : Nat) :
    (mode.text v).toList = render (f.words width v) := by
  cases mode <;> cases h <;>
    simp [Mode.text, Form.words, Form.opening, Opening.front, Form.behind, Glyph.word, mark, render]

theorem apart_symbols {vs ws : List Word} (h : ∀ w ∈ vs, ∃ c ∈ symbols, w = (.symbol, [c]))
    (hws : Apart ws) : Apart (vs ++ ws) := by
  induction vs with
  | nil => exact hws
  | cons v vs ih =>
    obtain ⟨hv, hvs⟩ := List.forall_mem_cons.1 h
    obtain ⟨c, hc, rfl⟩ := hv
    exact ⟨first?_symbol hc _, ih hvs⟩

theorem Form.apart_words (f : Form) (width : Option Width) (v : Nat) :
    Apart (f.words width v) := by
  have hbehind : Breaks (render (f.behind.map Glyph.word)) ∧ Apart (f.behind.map Glyph.word) := by
    cases f <;> simp only [Form.behind] <;> decide
  have hfront : ∀ w ∈ f.opening.front.map Glyph.word, ∃ c ∈ symbols, w = (.symbol, [c]) := by
    cases f <;> simp [Form.opening, Opening.front, Glyph.word, symbols]
  have hmark : ∀ w ∈ width.toList.map fun w ↦ (Token.Kind.symbol, [mark w]),
      ∃ c ∈ symbols, w = (.symbol, [c]) := by
    rcases width with _ | (_ | _ | _) <;> simp [mark, symbols]
  rw [Form.words, ← List.append_assoc, List.append_assoc]
  refine apart_symbols (List.forall_mem_append.2 ⟨hfront, hmark⟩) ?_
  exact ⟨first?_hexadecimal v hbehind.1, hbehind.2⟩

section

open TokenSource

variable {labels : String → Option Int} {site : Site} {memory : UInt32 → UInt8} {base : Mode}
variable {f : Form} {width : Option Width} {mode : Mode} {v start : Nat} {o : Operand}

theorem isSymbol_toToken {c : Char} (hc : c.utf8Size = 1) (n : Nat) :
    (toToken ⟨.symbol, [c], n⟩).isSymbol c = true := by
  simp [Token.isSymbol, Token.char?, toToken, hc]

theorem isLetter_toToken {c : Char} (hc : c.utf8Size = 1) (n : Nat) :
    (toToken ⟨.identifier, [c], n⟩).isLetter c = true := by
  simp [Token.isLetter, Token.char?, toToken, hc]

theorem sum_toToken (hv : v < 0x1000000) (n : Nat) :
    Expr.Sum labels [toToken ⟨.number, '$' :: (Text.hexadecimal v).toList, n⟩] v := by
  refine .term (.number rfl ?_)
  change Numeral.value? (String.ofList _).toList = _
  rw [String.toList_ofList]
  exact Numeral.value?_hexadecimal (by omega)

theorem spells_placed {gs : List Glyph} (h : ∀ g ∈ gs, ∃ c, c.utf8Size = 1 ∧
      (g = .symbol c ∨ g = .letter c)) (start : Nat) :
    Spells gs ((placed start (gs.map Glyph.word)).map toToken) := by
  induction gs generalizing start with
  | nil => exact .nil
  | cons g gs ih =>
    obtain ⟨⟨c, hc, hg⟩, hgs⟩ := List.forall_mem_cons.1 h
    refine .cons ?_ (ih hgs _)
    rcases hg with rfl | rfl
    · exact isSymbol_toToken hc start
    · exact isLetter_toToken hc start

theorem quantity_placed (hm : ∀ w, width = some w → f.opening.marks = addressMarks ∧ v < w.size)
    (hv : v < 0x1000000) :
    Quantity labels f.opening.marks none ((placed start
      (width.toList.map (fun w ↦ (.symbol, [mark w])) ++
        [(.number, '$' :: (Text.hexadecimal v).toList)])).map toToken) ⟨v, width⟩ := by
  cases width with
  | none => exact .bare (sum_toToken hv start)
  | some w =>
    obtain ⟨hmarks, hw⟩ := hm w rfl
    have hg : (mark w, fun v ↦ ⟨v % w.size, some w⟩) ∈ addressMarks := by
      cases w <;> simp [mark, addressMarks, Width.size]
    have hmod : (v : Int) % w.size = v := Int.emod_eq_of_lt (Int.natCast_nonneg v) hw
    have hc : (mark w).utf8Size = 1 := by cases w <;> decide
    have hq : Quantity labels addressMarks none _ ⟨v % w.size, some w⟩ :=
      .marked hg (isSymbol_toToken hc start) (sum_toToken hv (start + 1))
    rw [hmod] at hq
    rw [hmarks]
    exact hq

theorem body_placed (hf : f.Allowed base)
    (hm : ∀ w, width = some w → f.opening.marks = addressMarks ∧ v < w.size)
    (hv : v < 0x1000000) :
    Body labels base none ((placed start (f.words width v)).map toToken)
      (.single f ⟨v, width⟩) := by
  have hglyph {gs : List Glyph} (h : gs = f.opening.front ∨ gs = f.behind) :
      ∀ g ∈ gs, ∃ c, c.utf8Size = 1 ∧ (g = .symbol c ∨ g = .letter c) := by
    rcases h with rfl | rfl <;> cases f <;>
      simp [Form.opening, Opening.front, Form.behind, Char.utf8Size]
  rw [Form.words, placed_append, placed_append, List.map_append, List.map_append]
  exact .single hf (spells_placed (hglyph (.inl rfl)) _) (quantity_placed hm hv)
    (spells_placed (hglyph (.inr rfl)) _)

theorem marks_of_writing? (h : mode.writing? = some (f, width))
    (hv : v < byteRange mode.operandBytes) :
    ∀ w, width = some w → f.opening.marks = addressMarks ∧ v < w.size := by
  intro w hw
  subst hw
  cases mode <;> cases h <;> exact ⟨rfl, hv⟩

theorem admits_of_writing? (h : mode.writing? = some (f, width))
    (hv : v < byteRange mode.operandBytes) (hb : mode = .immediate8 ↔ base = .immediate8) :
    f.Admits site base ⟨v, width⟩ := by
  have hholds {d : Domain} (hl : d.least ≤ 0) (hg : byteRange mode.operandBytes ≤ d.greatest + 1) :
      d.Holds v := ⟨by omega, by omega⟩
  have hreach {w : Option Width} (ha : byteRange mode.operandBytes ≤ 0x1000000)
      (hw : ∀ u, w = some u → byteRange mode.operandBytes ≤ u.size) : (Sized.mk v w).InReach := by
    refine ⟨hholds (by decide) ha, fun u hu ↦ ?_⟩
    have := hw u hu
    cases u <;> exact hholds (by decide) this
  have hnone (u : Width) (hu : none = some u) : byteRange mode.operandBytes ≤ u.size := by cases hu
  have hsome {w : Width} (hw : byteRange mode.operandBytes ≤ w.size) (u : Width)
      (hu : some w = some u) : byteRange mode.operandBytes ≤ u.size := by cases hu; exact hw
  cases mode with
  | implied | blockMove => cases h
  | immediate8 =>
    cases h
    have hi : base = .immediate8 := hb.1 rfl
    simpa [Form.Admits, Sized.IsImmediate, hi] using hholds (by decide) (by decide)
  | immediate16 =>
    cases h
    have hi : base ≠ .immediate8 := fun hi ↦ by cases hb.2 hi
    simpa [Form.Admits, Sized.IsImmediate, hi] using hholds (by decide) (by decide)
  | direct | absolute | long | directX | absoluteX | longX =>
    cases h
    exact hreach (by decide) (hsome (by decide))
  | directY | absoluteY =>
    cases h
    exact ⟨hreach (by decide) (hsome (by decide)), by simp, hholds (by decide) (by decide)⟩
  | stackRelative =>
    cases h
    exact ⟨hreach (by decide) hnone, hholds (by decide) (by decide)⟩
  | _ =>
    cases h
    exact hholds (by decide) (by decide)

/-- An operand is read in its own mode, or in the next narrower one where no opcode has that. -/
theorem mode_of_settle_writing (h : mode.writing? = some (f, width))
    (hv : v < byteRange mode.operandBytes) (hb : mode = .immediate8 ↔ base = .immediate8)
    (ho : f.settle site memory base ⟨v, width⟩ = .ok o) :
    o.mode = mode ∨ o.mode.wider? = some mode ∧ o.mode ≠ .direct ∧ o.mode ≠ .absolute := by
  have hm := (mode_mem_family ho).1
  have hnear {near far : Mode} (hf : f.nearFar? = some (near, far))
      (hn : byteRange near.operandBytes = 0x100) :
      mode = near ∨ mode = far →
        o.mode = mode ∨ o.mode.wider? = some mode ∧ o.mode ≠ .direct ∧ o.mode ≠ .absolute := by
    have hmode := (mode_of_settle_nearFar hf ho).1
    rintro (rfl | rfl)
    · have hle : (v : Int) ≤ 0xFF := by omega
      rw [hmode, if_neg (Int.not_lt.2 hle)]
      exact .inl rfl
    · rw [hmode]
      split
      · exact .inl rfl
      · obtain ⟨hw, -, hd, ha⟩ := Form.wider?_of_nearFar? hf
        exact .inr ⟨hw, hd, ha⟩
  cases mode with
  | implied | blockMove => cases h
  | immediate8 =>
    cases h
    exact .inl (by simpa [Form.family, hb.1 rfl] using hm)
  | immediate16 =>
    cases h
    have hi : base ≠ .immediate8 := fun hi ↦ by cases hb.2 hi
    exact .inl (by simpa [Form.family, hi] using hm)
  | indirect =>
    cases h
    exact hnear rfl rfl (.inl rfl)
  | absoluteIndirect =>
    cases h
    exact hnear rfl rfl (.inr rfl)
  | indexedIndirect =>
    cases h
    exact hnear rfl rfl (.inl rfl)
  | absoluteIndexedIndirect =>
    cases h
    exact hnear rfl rfl (.inr rfl)
  | indirectLong =>
    cases h
    exact hnear rfl rfl (.inl rfl)
  | absoluteIndirectLong =>
    cases h
    exact hnear rfl rfl (.inr rfl)
  | _ =>
    cases h
    exact .inl (by simpa [Form.family, Form.rung, Branch.mode] using hm)

theorem value_of_writing? (h : mode.writing? = some (f, width))
    (hv : v < byteRange mode.operandBytes) (hb : mode = .immediate8 ↔ base = .immediate8) :
    f.value site base ⟨v, width⟩ = v := by
  have htruncate {w : Width} (hw : byteRange mode.operandBytes ≤ w.size) :
      w.truncate v = v := Width.truncate_of_lt (Int.natCast_nonneg v) (by omega)
  cases mode with
  | implied | blockMove => cases h
  | immediate8 =>
    cases h
    simpa [Form.value, Form.width, hb.1 rfl] using htruncate (by decide)
  | immediate16 =>
    cases h
    have hi : base ≠ .immediate8 := fun hi ↦ by cases hb.2 hi
    simpa [Form.value, Form.width, hi] using htruncate (by decide)
  | relative | relativeLong =>
    cases h
    exact htruncate (by decide)
  | _ =>
    cases h
    rfl

theorem exists_settle_writing (h : mode.writing? = some (f, width))
    (hv : v < byteRange mode.operandBytes) (hb : mode = .immediate8 ↔ base = .immediate8) :
    ∃ o, f.settle site memory base ⟨v, width⟩ = .ok o ∧ o.value = v ∧
      (mode ≠ .immediate8 → o.width = width) ∧
      (o.mode = mode ∨ o.mode.wider? = some mode ∧ o.mode ≠ .direct ∧ o.mode ≠ .absolute) := by
  have hp : ∀ b, f = .target b → site.pass = .final := by
    rintro b rfl
    cases mode <;> cases h
  have ho : ∃ o, f.settle site memory base ⟨v, width⟩ = .ok o :=
    (exists_settle_iff hp).2 (admits_of_writing? h hv hb)
  obtain ⟨o, ho⟩ := ho
  refine ⟨o, ho, ?_, fun hi ↦ ?_, mode_of_settle_writing h hv hb ho⟩
  · rw [value_of_settle hp ho]
    exact value_of_writing? h hv hb
  · rw [(mode_mem_family ho).2]
    have hbase : base ≠ .immediate8 := fun h ↦ hi (hb.2 h)
    cases f <;> simp [Form.width, hbase]

end

end Operand

namespace InstructionSet

open TokenSource Operand Lexeme

variable {labels : String → Option Int} {site : Site} {memory : UInt32 → UInt8} {pass : Pass}
variable {m : Mnemonic} {mode : Mode} {opcode : UInt8} {o : Operand} {x : Reading} {e : Encoding}

/-- The base mode of a mnemonic admits the operands of all its opcodes. -/
theorem base_of_row (h : (m, mode) ∈ opcodes) :
    (∀ f width, mode.writing? = some (f, width) → f.Allowed m.base) ∧
      (mode.writing? = none → m.base = mode) ∧ (mode = .immediate8 ↔ m.base = .immediate8) := by
  have hall : ∀ row ∈ opcodes,
      (∀ y ∈ row.2.writing?, y.1.Allowed row.1.base) ∧
        (row.2.writing? = none → row.1.base = row.2) ∧
        (row.2 = .immediate8 ↔ row.1.base = .immediate8) := by
    decide +kernel
  obtain ⟨hf, hn⟩ := hall _ h
  exact ⟨fun f width hw ↦ hf _ hw, hn⟩

theorem join_of_row (h : opcodes[opcode.toNat]? = some (m, mode))
    (hm : o.mode = mode ∨ o.mode.wider? = some mode ∧ o.mode ≠ .direct ∧ o.mode ≠ .absolute)
    (hp : o.isPadded m = false) (hw : mode = .immediate16 → o.width = none) :
    standard.join pass ⟨m.name, m, m.base, none⟩ o = .ok ⟨opcode, o.value, mode.length⟩ := by
  have hrow := opcode?_of_row h
  have hs : standard.select? m o.mode = some (opcode, mode) := by
    refine select?_eq_some.2 ?_
    rcases hm with rfl | ⟨hwider, hd, ha⟩
    · exact .inl ⟨hrow, rfl⟩
    · have hn := (opcode?_near_or_far hwider hd ha m).resolve_right (by simp [hrow])
      exact .inr ⟨hn, hwider, hrow⟩
  have hp' : o.isPadded (Entry.mk m.name m m.base none).mnemonic = false := hp
  refine (join_of_not_padded hp').2 ⟨(opcode, mode), ?_, ?_⟩
  · unfold choose
    rw [hs]
  · have hl : lengthIn o.width mode = mode.length := if_neg fun hi ↦ by simp [hw hi.1] at hi
    rw [hl]

theorem first?_mnemonic (m : Mnemonic) {rest : List Char} (hr : Breaks rest) :
    first? (m.name.toList ++ rest) = some (.identifier, m.name.toList, rest) := by
  have hall : ∀ m ∈ Mnemonic.all,
      (m.name.toList.head?.any fun c ↦ isNameStart c && !Numeral.isDigit 10 c) = true ∧
        m.name.toList.all isNameRest = true := by
    decide +kernel
  obtain ⟨hhead, hrest⟩ := hall m m.mem_all
  obtain ⟨c, hc, hsd⟩ := (Option.any_eq_true _ _).1 hhead
  have hs : isNameStart c = true := (Bool.and_eq_true_iff.1 hsd).1
  have hd : Numeral.isDigit 10 c = false := by simpa using (Bool.and_eq_true_iff.1 hsd).2
  have hn := List.all_eq_true.1 hrest
  obtain ⟨cs, hcs⟩ := List.head?_eq_some_iff.1 hc
  rw [hcs] at hn ⊢
  exact first?_name hs hd (List.forall_mem_cons.1 hn).2 hr

theorem encode_words {rest : List Char} {ws : List Word} {text : String}
    (htext : text.toList = m.name.toList ++ rest) (hr : Breaks rest)
    (hs : ∃ n, scan m.name.toList.length rest = .ok (placed n ws))
    (hx : ∀ n, Body labels m.base none ((placed n ws).map toToken) x)
    (ho : x.settle site memory m.base = .ok o)
    (hj : standard.join site.pass ⟨m.name, m, m.base, none⟩ o = .ok e) :
    ∃ line r, Line.ofText text = .ok line ∧
      (standard.encode site (Expr.sum labels) memory (next line).1.text).run (next line).2 =
        .ok e r := by
  obtain ⟨n, hn⟩ := hs
  have hscan : scan 0 text.toList =
      .ok (⟨.identifier, m.name.toList, 0⟩ :: placed n ws) := by
    rw [htext, scan_of_first? (first?_mnemonic m hr), Nat.zero_add, hn]
    rfl
  have hline : Line.ofText text = .ok ⟨toToken ⟨.identifier, m.name.toList, 0⟩ ::
      (placed n ws).map toToken, UInt32.ofNat text.utf8ByteSize⟩ := by
    rw [Line.ofText, hscan]
    rfl
  have hlookup : standard.lookup? (String.ofList m.name.toList) =
      some ⟨m.name, m, m.base, none⟩ := by
    rw [String.ofList_toList, lookup?_name]
  have hwords : (Line.mk ((placed n ws).map toToken) (UInt32.ofNat text.utf8ByteSize)).words =
      (placed n ws).map toToken := Line.words_eq_tokens (hx n).not_isStop
  obtain ⟨r, hr⟩ := run_parse_of_written (.plain (hwords ▸ hx n)) ho
  exact ⟨_, r, hline, run_encode_eq_ok.2 ⟨⟨m.name, m, m.base, none⟩, o,
    run_operand_eq_ok.2 ⟨hlookup, hr⟩, hj⟩⟩

section

variable {f : Form} {width : Option Width} {v : Nat}

theorem isPadded_of_writing? (hf : mode.writing? = some (f, width))
    (hw : mode ≠ .immediate8 → o.width = width)
    (hm : o.mode = mode ∨ o.mode.wider? = some mode ∧ o.mode ≠ .direct ∧ o.mode ≠ .absolute) :
    o.isPadded m = false := by
  cases width with
  | none =>
    refine isPadded_of_mode fun hl ↦ ?_
    rw [hl] at hm
    rcases hm with rfl | ⟨hwider, -, -⟩
    · cases hf
    · cases hwider
  | some w =>
    have hi : mode ≠ .immediate8 := by
      rintro rfl
      cases hf
    exact isPadded_of_width (by simp [hw hi])

theorem toList_disassemble (hf : mode.writing? = some (f, width)) (m : Mnemonic) (v : Nat) :
    (disassemble m mode v).toList = m.name.toList ++ ' ' :: render (f.words width v) := by
  have hi : mode ≠ .implied := by
    rintro rfl
    cases hf
  rw [disassemble, if_neg hi, String.toList_append, String.toList_append, text_eq_render hf]
  simp

theorem breaks_blank (cs : List Char) : Breaks (' ' :: cs) := by
  intro c hc
  cases hc
  decide

theorem encode_disassemble_of_writing (h : opcodes[opcode.toNat]? = some (m, mode))
    (hf : mode.writing? = some (f, width)) (hv : v < byteRange mode.operandBytes) :
    ∃ line r, Line.ofText (disassemble m mode v) = .ok line ∧
      (standard.encode site (Expr.sum labels) memory (next line).1.text).run (next line).2 =
        .ok ⟨opcode, v, mode.length⟩ r := by
  obtain ⟨hallowed, -, hb⟩ := base_of_row (List.mem_of_getElem? h)
  have hle : byteRange mode.operandBytes ≤ 0x1000000 := by cases mode <;> decide
  have hs : ∃ o, (Reading.single f ⟨v, width⟩).settle site memory m.base = .ok o ∧ o.value = v ∧
      (mode ≠ .immediate8 → o.width = width) ∧
      (o.mode = mode ∨ o.mode.wider? = some mode ∧ o.mode ≠ .direct ∧ o.mode ≠ .absolute) :=
    exists_settle_writing hf hv hb
  obtain ⟨o, ho, hvalue, hwidth, hmode⟩ := hs
  have hj : standard.join site.pass ⟨m.name, m, m.base, none⟩ o =
      .ok ⟨opcode, o.value, mode.length⟩ := by
    refine join_of_row h hmode (isPadded_of_writing? hf hwidth hmode) ?_
    rintro rfl
    cases hf
    exact hwidth (by decide)
  rw [hvalue] at hj
  have hscan : scan m.name.toList.length (' ' :: render (f.words width v)) =
      .ok (placed (m.name.toList.length + 1) (f.words width v)) := by
    rw [scan_blank rfl, scan_render (f.apart_words width v)]
  exact encode_words (toList_disassemble hf m v) (breaks_blank _) ⟨_, hscan⟩
    (fun n ↦ body_placed (hallowed f width hf) (marks_of_writing? hf hv) (by omega)) ho hj

def moveWords (v : Nat) : List Word :=
  [(.number, '$' :: (Text.hexadecimal (v % 0x100)).toList), (.symbol, [',']),
    (.number, '$' :: (Text.hexadecimal (v / 0x100)).toList)]

theorem apart_moveWords (v : Nat) : Apart (moveWords v) := by
  have hcomma (cs : List Char) : Breaks (',' :: cs) := by
    intro c hc
    cases hc
    decide
  have hend : Breaks [] := by decide
  refine ⟨first?_hexadecimal _ (hcomma _), first?_symbol (by decide) _, ?_, trivial⟩
  exact first?_hexadecimal _ hend

theorem encode_disassemble_blockMove (h : opcodes[opcode.toNat]? = some (m, .blockMove))
    (hv : v < byteRange Mode.blockMove.operandBytes) :
    ∃ line r, Line.ofText (disassemble m .blockMove v) = .ok line ∧
      (standard.encode site (Expr.sum labels) memory (next line).1.text).run (next line).2 =
        .ok ⟨opcode, v, Mode.blockMove.length⟩ r := by
  have hbase : m.base = .blockMove := (base_of_row (List.mem_of_getElem? h)).2.1 rfl
  have hlt : v < 0x10000 := Int.ofNat_lt.1 hv
  have htext : (disassemble m .blockMove v).toList =
      m.name.toList ++ ' ' :: render (moveWords v) := by
    simp [disassemble, Mode.text, moveWords, render]
  have hscan : scan m.name.toList.length (' ' :: render (moveWords v)) =
      .ok (placed (m.name.toList.length + 1) (moveWords v)) := by
    rw [scan_blank rfl, scan_render (apart_moveWords v)]
  have hbody (n : Nat) : Body labels m.base none ((placed n (moveWords v)).map toToken)
      (.move ⟨(v % 0x100 : Nat), none⟩ ⟨(v / 0x100 : Nat), none⟩) :=
    .move hbase (.bare (sum_toToken (by omega) _)) (isSymbol_toToken (by decide) _)
      (.bare (sum_toToken (by omega) _))
  have hsettle : (Reading.move ⟨(v % 0x100 : Nat), none⟩ ⟨(v / 0x100 : Nat), none⟩).settle site
      memory m.base = .ok ⟨.blockMove, v, none, false⟩ := by
    have hlow : ((v % 0x100 : Nat) : Int) ≤ 0xFF := by omega
    have hhigh : ((v / 0x100 : Nat) : Int) ≤ 0xFF := by omega
    have hvalue : (v : Int) = (v % 0x100 : Nat) + 0x100 * (v / 0x100 : Nat) := by omega
    exact settle_move_eq_ok.2
      ⟨⟨Int.natCast_nonneg _, hlow⟩, ⟨Int.natCast_nonneg _, hhigh⟩, by rw [hvalue]⟩
  exact encode_words htext (breaks_blank _) ⟨_, hscan⟩ hbody hsettle
    (join_of_row h (.inl rfl) (isPadded_of_forward rfl) (by simp))

theorem encode_disassemble_implied (h : opcodes[opcode.toNat]? = some (m, .implied)) :
    ∃ line r, Line.ofText (disassemble m .implied 0) = .ok line ∧
      (standard.encode site (Expr.sum labels) memory (next line).1.text).run (next line).2 =
        .ok ⟨opcode, 0, Mode.implied.length⟩ r := by
  have hbase : m.base = .implied := (base_of_row (List.mem_of_getElem? h)).2.1 rfl
  have htext : (disassemble m .implied 0).toList = m.name.toList ++ [] := by simp [disassemble]
  have hscan : scan m.name.toList.length [] = .ok (placed 0 []) := by simp [scan, placed]
  have hend : Breaks [] := by decide
  exact encode_words htext hend ⟨0, hscan⟩ (fun _ ↦ .nothing) rfl
    (join_of_row h (.inl hbase) (isPadded_of_forward rfl) (by simp))

end

/-- The line of a machine instruction is encoded as that instruction, on either pass and wherever
it stands, whatever the memory holds and whatever the labels are. -/
theorem encode_disassemble (h : opcodes[opcode.toNat]? = some (m, mode)) {v : Nat}
    (hv : v < byteRange mode.operandBytes) (site : Site) (labels : String → Option Int)
    (memory : UInt32 → UInt8) :
    ∃ line e r, Line.ofText (disassemble m mode v) = .ok line ∧
      (standard.encode site (Expr.sum labels) memory (next line).1.text).run (next line).2 =
        .ok e r ∧
      e.bytes = opcode :: littleEndian mode.operandBytes v := by
  have hencode : ∃ line r, Line.ofText (disassemble m mode v) = .ok line ∧
      (standard.encode site (Expr.sum labels) memory (next line).1.text).run (next line).2 =
        .ok ⟨opcode, v, mode.length⟩ r := by
    cases hf : mode.writing? with
    | some y => exact encode_disassemble_of_writing h hf hv
    | none =>
      cases mode with
      | blockMove => exact encode_disassemble_blockMove h hv
      | implied =>
        obtain rfl : v = 0 := by
          have : (v : Int) < 1 := hv
          omega
        exact encode_disassemble_implied h
      | _ => cases hf
  obtain ⟨line, r, hline, hrun⟩ := hencode
  have hn : mode.operandBytes ≤ 4 := by cases mode <;> decide
  exact ⟨line, _, r, hline, hrun, Encoding.bytes_of_length rfl hn⟩

/-- A jump through memory has no short form, but the operand of the long one may be small. -/
theorem encode_disassemble_jmp_indirect :
    disassemble .jmp .absoluteIndirect 0x12 = "jmp ($12)" ∧
      ∃ line e r, Line.ofText "jmp ($12)" = .ok line ∧
        (standard.encode (.ofAddress .final 0x8000) (Expr.sum fun _ ↦ none) (fun _ ↦ 0)
          (next line).1.text).run (next line).2 = .ok e r ∧ e.bytes = [0x6C, 0x12, 0x00] := by
  have htext : disassemble .jmp .absoluteIndirect 0x12 = "jmp ($12)" := by decide
  have hrow : opcodes[(0x6C : UInt8).toNat]? = some (.jmp, .absoluteIndirect) := by decide +kernel
  have hrun := encode_disassemble hrow (v := 0x12) (by decide) (.ofAddress .final 0x8000)
    (fun _ ↦ none) (fun _ ↦ 0)
  rw [htext] at hrun
  exact ⟨htext, hrun⟩

end InstructionSet

end Asm65816
