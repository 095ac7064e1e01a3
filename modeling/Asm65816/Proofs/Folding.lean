import Asm65816.Proofs.Encode
import Asm65816.Proofs.InstructionSet
import Asm65816.Proofs.Lexeme.Folding
import Asm65816.Proofs.Pushback

namespace Asm65816

open TokenSource

def Token.fold (t : Token) : Token := { t with text := Text.fold t.text }

def Line.fold (l : Line) : Line := { l with tokens := l.tokens.map Token.fold }

def Expr.Fault.fold : Expr.Fault → Expr.Fault
  | undefined label => undefined (Text.fold label)
  | malformed t => malformed t.fold

/-- A fault with the case of the letters that it quotes folded. Its kind stays as it is, and so do
the range and the value of one that is out of range. -/
def Fault.fold : Fault → Fault
  | unexpected t => unexpected t.fold
  | unknownMnemonic name => unknownMnemonic (Text.fold name)
  | expression e => expression e.fold
  | f => f

/-- Encodes the instruction that the first token of a line names, with the rest of the line as its
operand. There are no labels. -/
def InstructionSet.encodeLine (set : InstructionSet) (site : Site) (memory : UInt32 → UInt8)
    (l : Line) : Except Fault Encoding :=
  (outcome ((set.encode site (Expr.sum fun _ ↦ none) memory (next l).1.text).run (next l).2)).1

namespace Token

def Plain (t : Token) : Prop := t.kind = .symbol → t.fold = t

variable {t : Token}

theorem fold_fold (t : Token) : t.fold.fold = t.fold := by
  rw [fold, fold, Text.fold_fold]

theorem char?_fold (t : Token) : t.fold.char? = t.char?.map Char.toLower := by
  unfold char? fold Text.fold
  rw [String.toList_ofList]
  rcases t.text.toList with _ | ⟨c, _ | ⟨d, cs⟩⟩
  · rfl
  · simp only [List.map_cons, List.map_nil, Text.utf8Size_toLower]
    split <;> rfl
  · rfl

theorem like_fold (h : t.Plain) : t.Like (fun _ ↦ none) (fun _ ↦ none) t.fold where
  kind := rfl
  isSymbol c := by
    by_cases hk : t.kind = .symbol
    · rw [h hk]
    · rw [isSymbol_of_kind hk, isSymbol_of_kind (t := t.fold) hk]
  isLetter c := by
    have hlower : Char.toLower ∘ Char.toLower = Char.toLower := funext Text.toLower_toLower
    rw [isLetter, isLetter, char?_fold, Option.map_map, hlower, fold]
  suffix := by
    rw [Width.ofSuffix?, Width.ofSuffix?, fold, Text.fold, String.toList_ofList,
      Text.lowered_lowered]
  number _ := by
    rw [fold, Text.fold, String.toList_ofList]
    exact (Numeral.value?_lowered t.text.toList).symm
  label _ := rfl

end Token

def Line.foldTwins : Twins Line Line (fun _ ↦ none) (fun _ ↦ none) where
  Same u v := v = u.fold ∧ u.Plain
  Free l m := m = l.fold ∧ ∀ t ∈ l.tokens, t.Plain
  Held l m := m = l.fold ∧ ∀ t ∈ l.tokens, t.Plain
  like := by
    rintro u v ⟨rfl, h⟩
    exact Token.like_fold h
  held_of_free h := h
  next := by
    rintro ⟨_ | ⟨t, ts⟩, stop⟩ m ⟨rfl, h⟩
    · exact ⟨⟨rfl, fun hk ↦ nomatch hk⟩, rfl, h⟩
    · obtain ⟨ht, hts⟩ := List.forall_mem_cons.1 h
      exact ⟨⟨rfl, ht⟩, rfl, hts⟩
  putBack := by
    rintro u v l m ⟨rfl, hu⟩ ⟨rfl, h⟩
    exact ⟨rfl, List.forall_mem_cons.2 ⟨hu, h⟩⟩

theorem Expr.Fault.fold_eq_of_alike {e f : Expr.Fault}
    (h : Expr.Fault.Alike Line.foldTwins.Same e f) : f.fold = e.fold := by
  cases h with
  | undefined h =>
    obtain ⟨rfl, -⟩ := h
    exact congrArg Expr.Fault.undefined (Text.fold_fold _)
  | malformed h =>
    obtain ⟨rfl, -⟩ := h
    exact congrArg Expr.Fault.malformed (Token.fold_fold _)

theorem Fault.fold_eq_of_alike {e f : Fault} (h : Fault.Alike Line.foldTwins.Same e f) :
    f.fold = e.fold := by
  cases h with
  | unexpected h =>
    obtain ⟨rfl, -⟩ := h
    exact congrArg Fault.unexpected (Token.fold_fold _)
  | expression h => exact congrArg Fault.expression (Expr.Fault.fold_eq_of_alike h)
  | refl => rfl

theorem Line.mapError_outcome {α : Type} {x y : EStateM.Result Fault Line α}
    (h : foldTwins.Results (Fault.Alike foldTwins.Same) x y) :
    (outcome y).1.mapError Fault.fold = (outcome x).1.mapError Fault.fold := by
  cases h with
  | ok => rfl
  | error hf => exact congrArg Except.error (Fault.fold_eq_of_alike hf)

variable {text text' : String} {l : Line}

theorem Lexeme.fold_toToken (x : Lexeme) : x.toToken.fold = x.fold.toToken := by
  rw [toToken, Token.fold, Text.fold, String.toList_ofList]
  rfl

theorem Line.plain_of_ofText (h : Line.ofText text = .ok l) : ∀ t ∈ l.tokens, t.Plain := by
  obtain ⟨items, rest, ⟨-, hlaid⟩, -, rfl⟩ := ofText_eq_ok_iff.1 h
  refine List.forall_mem_map.2 fun x hx hk ↦ ?_
  rw [Lexeme.fold_toToken, Lexeme.fold_of_symbol hlaid hx hk]

theorem Line.ofText_fold (text : String) :
    Line.ofText (Text.fold text) = (Line.ofText text).map Line.fold := by
  have hbytes : (Text.fold text).utf8ByteSize = text.utf8ByteSize := by
    have h := Lexeme.bytes_lowered text.toList
    rwa [Lexeme.bytes, Lexeme.bytes, String.ofList_toList] at h
  rw [Line.ofText, Line.ofText, hbytes, Text.fold, String.toList_ofList, Lexeme.scan_lowered]
  cases Lexeme.scan 0 text.toList with
  | error n => rfl
  | ok found =>
    simp only [Except.map, Line.fold, List.map_map, Except.ok.injEq, Line.mk.injEq, and_true]
    exact List.map_congr_left fun x _ ↦ (Lexeme.fold_toToken x).symm

namespace InstructionSet

variable (set : InstructionSet) (site : Site) (memory : UInt32 → UInt8)

theorem lookup?_fold (name : String) : set.lookup? (Text.fold name) = set.lookup? name := by
  rw [lookup?, lookup?, Text.fold_fold]

/-- A line means the same in small letters. -/
theorem encodeLine_fold (h : ∀ t ∈ l.tokens, t.Plain) :
    (set.encodeLine site memory l.fold).mapError Fault.fold =
      (set.encodeLine site memory l).mapError Fault.fold := by
  obtain ⟨⟨hfirst, -⟩, hrest⟩ := Line.foldTwins.next (s := l) ⟨rfl, h⟩
  have hname : (next l.fold).1.text = Text.fold (next l).1.text := by
    rw [hfirst]
    rfl
  unfold encodeLine
  rw [hname]
  cases hl : set.lookup? (next l).1.text with
  | none =>
    rw [run_encode_of_unknown hl, run_encode_of_unknown ((set.lookup?_fold _).trans hl)]
    exact congrArg (Except.error ∘ Fault.unknownMnemonic) (Text.fold_fold _)
  | some e =>
    have hencode : set.encode (σ := Line) site (Expr.sum fun _ ↦ none) memory
        (Text.fold (next l).1.text) =
          set.encode site (Expr.sum fun _ ↦ none) memory (next l).1.text := by
      rw [encode, operand, lookup?_fold, encode, operand, hl]
    rw [hencode]
    exact Line.mapError_outcome (Twins.Alike.encode set _ _ _ hrest)

/-- Texts that differ in the case of letters only are read alike: they have the same encodings, or
faults that differ in the case of letters only. -/
theorem encodeLine_of_fold_eq {text text' : String} {l : Line}
    (h : Text.fold text' = Text.fold text) (hl : Line.ofText text = .ok l) :
    ∃ l', Line.ofText text' = .ok l' ∧ l'.fold = l.fold ∧
      (set.encodeLine site memory l').mapError Fault.fold =
        (set.encodeLine site memory l).mapError Fault.fold := by
  have hfold : (Line.ofText text').map Line.fold = .ok l.fold := by
    rw [← Line.ofText_fold, h, Line.ofText_fold, hl]
    rfl
  cases hl' : Line.ofText text' with
  | error n =>
    rw [hl'] at hfold
    cases hfold
  | ok l' =>
    rw [hl'] at hfold
    have hsame : l'.fold = l.fold := Except.ok.inj hfold
    refine ⟨l', rfl, hsame, ?_⟩
    rw [← encodeLine_fold set site memory (Line.plain_of_ofText hl'), hsame,
      encodeLine_fold set site memory (Line.plain_of_ofText hl)]

/-- The case changes in the name, the suffix, the mark and the digits of the number, and the index
register. The letter of the comment is not ASCII and stays as it is. -/
theorem encodeLine_of_fold_eq_load :
    Text.fold "LDA.W 0XAb,X ;É" = Text.fold "lda.w 0xaB,x ;É" ∧
      ∃ l l', Line.ofText "lda.w 0xaB,x ;É" = .ok l ∧ Line.ofText "LDA.W 0XAb,X ;É" = .ok l' ∧
        standard.encodeLine (.ofAddress .final 0x8000) (fun _ ↦ 0) l = .ok ⟨0xBD, 0xAB, 3⟩ ∧
        (standard.encodeLine (.ofAddress .final 0x8000) (fun _ ↦ 0) l').mapError Fault.fold =
          .ok ⟨0xBD, 0xAB, 3⟩ := by
  have hfold : Text.fold "LDA.W 0XAb,X ;É" = Text.fold "lda.w 0xaB,x ;É" := by decide +kernel
  have hline : Line.ofText "lda.w 0xaB,x ;É" =
      .ok ⟨[⟨.identifier, "lda", 0⟩, ⟨.symbol, ".", 3⟩, ⟨.identifier, "w", 4⟩,
        ⟨.number, "0xaB", 6⟩, ⟨.symbol, ",", 10⟩, ⟨.identifier, "x", 11⟩], 16⟩ := by
    decide +kernel
  obtain ⟨l', hline', -, hencode⟩ :=
    encodeLine_of_fold_eq standard (.ofAddress .final 0x8000) (fun _ ↦ 0) hfold hline
  have hload : standard.encodeLine (.ofAddress .final 0x8000) (fun _ ↦ 0)
      ⟨[⟨.identifier, "lda", 0⟩, ⟨.symbol, ".", 3⟩, ⟨.identifier, "w", 4⟩,
        ⟨.number, "0xaB", 6⟩, ⟨.symbol, ",", 10⟩, ⟨.identifier, "x", 11⟩], 16⟩ =
      .ok ⟨0xBD, 0xAB, 3⟩ := by
    decide +kernel
  rw [hload] at hencode
  exact ⟨hfold, _, l', hline, hline', hload, hencode⟩

end InstructionSet

end Asm65816
