import Asm65816.Proofs.Lexeme.Choice
import Mathlib.Logic.Function.Iterate

namespace Asm65816

namespace Lexeme

inductive Item
  | blank (c : Char)
  | word (w : Word)

def Item.text : Item → List Char
  | .blank c => [c]
  | .word w => w.2

def spread (items : List Item) : List Char := items.flatMap Item.text

def bytes (cs : List Char) : Nat := (String.ofList cs).utf8ByteSize

def located (start : Nat) : List Item → List Lexeme
  | [] => []
  | .blank c :: items => located (start + bytes [c]) items
  | .word w :: items => ⟨w.1, w.2, start⟩ :: located (start + bytes w.2) items

def Laid (rest : List Char) : List Item → Prop
  | [] => True
  | .blank c :: items => isBlank c = true ∧ Laid rest items
  | .word w :: items => Chosen w (spread items ++ rest) ∧ Laid rest items

def Begins (cs : List Char) (items : List Item) (rest : List Char) : Prop :=
  cs = spread items ++ rest ∧ Laid rest items

/-- The characters begin with these items, and with no more than these. -/
def Furthest (cs : List Char) (items : List Item) (rest : List Char) : Prop :=
  Begins cs items rest ∧
    ∀ items' rest', Begins cs items' rest' → (spread items').length ≤ (spread items).length

def Ends (rest : List Char) : Prop := ∀ c, rest.head? = some c → c = ';'

def Stuck (rest : List Char) : Prop :=
  ∃ c cs, rest = c :: cs ∧ c ≠ ';' ∧ ∀ r ∈ rules, ¬r.Applies rest

def stop (x : Lexeme) : Nat := x.start + bytes x.text

/-- Lexemes stand in a text one behind the other, each one where its offset says. -/
structure Stand (text : String) (found : List Lexeme) : Prop where
  apart : found.Pairwise fun x y ↦ x.stop ≤ y.start
  proper : ∀ x ∈ found, x.start < x.stop
  cut : ∀ x ∈ found, ∃ front behind,
    text = front ++ String.ofList x.text ++ behind ∧ x.start = front.utf8ByteSize

/-- Words with blanks behind each of them, with blanks in front of them and a comment behind them.
Only behind the last word there need be no blanks. -/
structure Spaced where
  lead : List Char
  words : List (Word × List Char)
  comment : List Char
  lead_blank : ∀ c ∈ lead, isBlank c = true
  written : ∀ w ∈ words, Written w.1
  gap_blank : ∀ w ∈ words, ∀ c ∈ w.2, isBlank c = true
  gap_ne_nil : ∀ w ∈ words.dropLast, w.2 ≠ []
  comment_ends : Ends comment

namespace Spaced

def items (t : Spaced) : List Item :=
  t.lead.map .blank ++ t.words.flatMap fun w ↦ .word w.1 :: w.2.map .blank

def text (t : Spaced) : String := String.ofList (spread t.items ++ t.comment)

def line (t : Spaced) : Line :=
  ⟨(located 0 t.items).map toToken, UInt32.ofNat t.text.utf8ByteSize⟩

end Spaced

variable {c : Char} {cs text rest : List Char} {w : Word} {items xs ys : List Item}
variable {start n : Nat} {x : Lexeme}

@[simp] theorem spread_nil : spread [] = [] := rfl

@[simp] theorem spread_cons (i : Item) (items : List Item) :
    spread (i :: items) = i.text ++ spread items := rfl

@[simp] theorem spread_append (xs ys : List Item) : spread (xs ++ ys) = spread xs ++ spread ys :=
  List.flatMap_append

theorem bytes_append (cs ds : List Char) : bytes (cs ++ ds) = bytes cs + bytes ds := by
  rw [bytes, String.ofList_append, String.utf8ByteSize_append]
  rfl

theorem bytes_of_ascii (h : ∀ c ∈ cs, c.utf8Size = 1) : bytes cs = cs.length := by
  induction cs with
  | nil => rfl
  | cons c cs ih =>
    obtain ⟨hc, hcs⟩ := List.forall_mem_cons.1 h
    rw [← List.singleton_append, bytes_append, ih hcs, List.length_append]
    congr 1
    rw [bytes, ← String.singleton_eq_ofList, String.utf8ByteSize_singleton, hc]
    rfl

theorem laid_append :
    Laid rest (xs ++ ys) ↔ Laid (spread ys ++ rest) xs ∧ Laid rest ys := by
  induction xs with
  | nil => simp [Laid]
  | cons i xs ih =>
    cases i with
    | blank c => simp only [List.cons_append, Laid, ih, and_assoc]
    | word w => simp only [List.cons_append, Laid, ih, spread_append, List.append_assoc, and_assoc]

theorem bytes_blank (hc : isBlank c = true) : bytes [c] = 1 := by
  simp only [isBlank, Bool.or_eq_true, decide_eq_true_eq] at hc
  rcases hc with rfl | rfl <;> rfl

theorem bytes_word (h : Written w) : bytes w.2 = w.2.length := bytes_of_ascii (ascii_of_written h)

theorem bytes_spread (h : Laid rest items) : bytes (spread items) = (spread items).length := by
  induction items with
  | nil => rfl
  | cons i items ih =>
    cases i with
    | blank c =>
      rw [spread_cons, bytes_append, List.length_append, ih h.2]
      exact congrArg (· + _) (bytes_blank h.1)
    | word w =>
      rw [spread_cons, bytes_append, List.length_append, ih h.2]
      exact congrArg (· + _) (bytes_word (written_of_chosen h.1))

/-- Items are read one by one, and then what comes behind them. -/
theorem scan_spread (h : Laid rest items) (start : Nat) :
    scan start (spread items ++ rest) =
      (scan (start + bytes (spread items)) rest).map (located start items ++ ·) := by
  induction items generalizing start with
  | nil =>
    have hmap (e : Except Nat (List Lexeme)) : e.map (located start [] ++ ·) = e := by
      cases e <;> rfl
    exact (hmap _).symm
  | cons i items ih =>
    rw [spread_cons, List.append_assoc, bytes_append, ← Nat.add_assoc]
    cases i with
    | blank c =>
      change scan start (c :: (spread items ++ rest)) = _
      rw [scan_blank h.1, ← bytes_blank h.1, ih h.2]
      rfl
    | word w =>
      have hfirst := first?_eq_some_iff.2 ⟨rfl, h.1⟩
      change scan start (w.2 ++ (spread items ++ rest)) = _
      rw [scan_of_first? hfirst, ← bytes_word (written_of_chosen h.1), ih h.2]
      change _ = Except.map _ (scan (start + bytes w.2 + bytes (spread items)) rest)
      cases scan (start + bytes w.2 + bytes (spread items)) rest <;> rfl

theorem scan_of_ends (h : Ends rest) (start : Nat) : scan start rest = .ok [] := by
  cases rest with
  | nil => rw [scan]
  | cons c cs =>
    cases h c rfl
    rw [scan, if_neg (by decide), if_pos rfl]

theorem scan_of_stuck (h : Stuck rest) (hb : ∀ c, rest.head? = some c → isBlank c = false)
    (start : Nat) : scan start rest = .error start := by
  obtain ⟨c, cs, rfl, hc, hr⟩ := h
  rw [scan, if_neg (by simp [hb c rfl]), if_neg hc]
  split
  · rfl
  · next hf =>
    rw [first?_eq_none_iff.2 hr] at hf
    cases hf

theorem begins_blank (hc : isBlank c = true) (h : Begins cs items rest) :
    Begins (c :: cs) (.blank c :: items) rest :=
  ⟨congrArg (c :: ·) h.1, hc, h.2⟩

theorem begins_word (hw : Chosen w cs) (h : Begins cs items rest) :
    Begins (w.2 ++ cs) (.word w :: items) rest := by
  refine ⟨?_, ?_, h.2⟩
  · rw [spread_cons, List.append_assoc, ← h.1]
    rfl
  · rwa [← h.1]

def Halts (rest : List Char) : Prop :=
  Ends rest ∨ Stuck rest ∧ ∀ c, rest.head? = some c → isBlank c = false

/-- All characters begin with as many items as there are. -/
theorem exists_begins (cs : List Char) : ∃ items rest, Begins cs items rest ∧ Halts rest := by
  induction hn : cs.length using Nat.strongRecOn generalizing cs with
  | ind n ih =>
    cases cs with
    | nil => exact ⟨[], [], ⟨rfl, trivial⟩, .inl (by simp [Ends])⟩
    | cons c cs =>
      cases hb : isBlank c with
      | true =>
        obtain ⟨items, rest, hbegins, hhalts⟩ := ih cs.length (by simp [← hn]) cs rfl
        exact ⟨_, rest, begins_blank hb hbegins, hhalts⟩
      | false =>
        by_cases hc : c = ';'
        · exact ⟨[], c :: cs, ⟨rfl, trivial⟩, .inl (by simp [Ends, hc])⟩
        · cases hf : first? (c :: cs) with
          | none =>
            refine ⟨[], c :: cs, ⟨rfl, trivial⟩, .inr ⟨⟨c, cs, rfl, hc, ?_⟩, by simp [hb]⟩⟩
            exact first?_eq_none_iff.1 hf
          | some found =>
            obtain ⟨kind, text, tail⟩ := found
            obtain ⟨hcs, hchosen⟩ := first?_eq_some_iff.1 hf
            obtain ⟨items, rest, hbegins, hhalts⟩ := ih tail.length (by
              rw [← hn]
              exact length_of_first? hf) tail rfl
            rw [hcs]
            exact ⟨_, rest, begins_word hchosen hbegins, hhalts⟩

theorem bytes_le_of_scan_eq_error (h : scan start cs = .error n) (hb : Begins cs items rest) :
    start + bytes (spread items) ≤ n := by
  obtain ⟨hcs, hlaid⟩ := hb
  rw [hcs, scan_spread hlaid] at h
  obtain ⟨more, rest', ⟨hrest, hmore⟩, hhalts⟩ := exists_begins rest
  rw [hrest, scan_spread hmore] at h
  rcases hhalts with hends | ⟨hstuck, hblank⟩
  · rw [scan_of_ends hends] at h
    cases h
  · rw [scan_of_stuck hstuck hblank] at h
    cases h
    omega

theorem furthest_of_scan_eq_error (h : scan start cs = .error n) :
    ∃ items rest, Furthest cs items rest ∧ Stuck rest ∧ n = start + bytes (spread items) := by
  obtain ⟨items, rest, hbegins, hends | ⟨hstuck, hblank⟩⟩ := exists_begins cs
  · rw [hbegins.1, scan_spread hbegins.2, scan_of_ends hends] at h
    cases h
  · have hn : n = start + bytes (spread items) := by
      rw [hbegins.1, scan_spread hbegins.2, scan_of_stuck hstuck hblank] at h
      cases h
      rfl
    refine ⟨items, rest, ⟨hbegins, fun items' rest' hbegins' ↦ ?_⟩, hstuck, hn⟩
    have hle := bytes_le_of_scan_eq_error h hbegins'
    rw [bytes_spread hbegins'.2] at hle
    rw [bytes_spread hbegins.2] at hn
    omega

theorem scan_eq_error_of_furthest (h : Furthest cs items rest) (hs : Stuck rest) (start : Nat) :
    scan start cs = .error (start + bytes (spread items)) := by
  obtain ⟨⟨rfl, hlaid⟩, hmost⟩ := h
  have hblank (c : Char) (hc : rest.head? = some c) : isBlank c = false := by
    refine Bool.eq_false_iff.2 fun hb ↦ ?_
    obtain ⟨tail, rfl⟩ := List.head?_eq_some_iff.1 hc
    have hmore : Laid tail (items ++ [.blank c]) := laid_append.2 ⟨hlaid, hb, trivial⟩
    have hle := hmost _ tail ⟨by simp [Item.text], hmore⟩
    simp only [spread_append, List.length_append, spread_cons, Item.text, List.length_cons] at hle
    omega
  rw [scan_spread hlaid, scan_of_stuck hs hblank]
  rfl

theorem scan_eq_error_iff : scan start cs = .error n ↔
    ∃ items rest, Furthest cs items rest ∧ Stuck rest ∧ n = start + bytes (spread items) := by
  refine ⟨furthest_of_scan_eq_error, fun h ↦ ?_⟩
  obtain ⟨items, rest, hfurthest, hstuck, rfl⟩ := h
  exact scan_eq_error_of_furthest hfurthest hstuck start

theorem scan_eq_ok_iff {found : List Lexeme} : scan start cs = .ok found ↔
    ∃ items rest, Begins cs items rest ∧ Ends rest ∧ found = located start items := by
  have hok {items : List Item} {rest : List Char} (hbegins : Begins cs items rest)
      (hends : Ends rest) : scan start cs = .ok (located start items) := by
    rw [hbegins.1, scan_spread hbegins.2, scan_of_ends hends]
    exact congrArg Except.ok (List.append_nil _)
  constructor
  · intro h
    obtain ⟨items, rest, hbegins, hends | ⟨hstuck, hblank⟩⟩ := exists_begins cs
    · refine ⟨items, rest, hbegins, hends, ?_⟩
      rw [hok hbegins hends] at h
      exact (Except.ok.inj h).symm
    · rw [hbegins.1, scan_spread hbegins.2, scan_of_stuck hstuck hblank] at h
      cases h
  · intro h
    obtain ⟨items, rest, hbegins, hends, rfl⟩ := h
    exact hok hbegins hends

theorem bytes_pos (h : cs ≠ []) : 0 < bytes cs := by
  obtain ⟨c, cs, rfl⟩ := List.exists_cons_of_ne_nil h
  rw [← List.singleton_append, bytes_append, bytes, ← String.singleton_eq_ofList,
    String.utf8ByteSize_singleton]
  have := c.utf8Size_pos
  omega

theorem exists_of_mem_located (h : x ∈ located start items) : ∃ front behind w,
    items = front ++ .word w :: behind ∧ x = ⟨w.1, w.2, start + bytes (spread front)⟩ := by
  induction items generalizing start with
  | nil => cases h
  | cons i items ih =>
    have hlater (h : x ∈ located (start + bytes i.text) items) : ∃ front behind w,
        i :: items = front ++ .word w :: behind ∧
          x = ⟨w.1, w.2, start + bytes (spread front)⟩ := by
      obtain ⟨front, behind, w, hitems, hx⟩ := ih h
      refine ⟨i :: front, behind, w, congrArg (i :: ·) hitems, ?_⟩
      rw [hx, spread_cons, bytes_append, Nat.add_assoc]
    cases i with
    | blank c => exact hlater h
    | word w =>
      rcases List.mem_cons.1 h with rfl | h
      · exact ⟨[], items, w, rfl, rfl⟩
      · exact hlater h

theorem le_of_mem_located (h : x ∈ located start items) : start ≤ x.start := by
  obtain ⟨front, behind, w, -, rfl⟩ := exists_of_mem_located h
  exact Nat.le_add_right start _

theorem pairwise_located (start : Nat) (items : List Item) :
    (located start items).Pairwise fun x y ↦ x.stop ≤ y.start := by
  induction items generalizing start with
  | nil => exact .nil
  | cons i items ih =>
    cases i with
    | blank c => exact ih _
    | word w => exact .cons (fun y hy ↦ le_of_mem_located hy) (ih _)

theorem stand_of_begins {text : String} (h : Begins text.toList items rest) :
    Stand text (located 0 items) := by
  refine ⟨pairwise_located 0 items, fun x hx ↦ ?_, fun x hx ↦ ?_⟩
  · obtain ⟨front, behind, w, rfl, rfl⟩ := exists_of_mem_located hx
    have hw := ne_nil_of_written (written_of_chosen (laid_append.1 h.2).2.1)
    exact Nat.lt_add_of_pos_right (bytes_pos hw)
  · obtain ⟨front, behind, w, rfl, rfl⟩ := exists_of_mem_located hx
    refine ⟨String.ofList (spread front), String.ofList (spread behind ++ rest), ?_,
      Nat.zero_add _⟩
    rw [← String.ofList_append, ← String.ofList_append, ← String.ofList_toList (s := text), h.1]
    simp [Item.text]

theorem breaks_of_isBlank (h : isBlank c = true) (cs : List Char) : Breaks (c :: cs) := by
  simp only [isBlank, Bool.or_eq_true, decide_eq_true_eq] at h
  intro d hd
  cases hd
  rcases h with rfl | rfl <;> decide

theorem breaks_of_ends (h : Ends rest) : Breaks rest := by
  cases rest with
  | nil => decide
  | cons c cs =>
    cases h c rfl
    intro d hd
    cases hd
    decide

theorem laid_blanks (h : ∀ c ∈ cs, isBlank c = true) : Laid rest (cs.map .blank) := by
  induction cs with
  | nil => trivial
  | cons c cs ih =>
    obtain ⟨hc, hcs⟩ := List.forall_mem_cons.1 h
    exact ⟨hc, ih hcs⟩

theorem laid_words {words : List (Word × List Char)} (hwritten : ∀ w ∈ words, Written w.1)
    (hblank : ∀ w ∈ words, ∀ c ∈ w.2, isBlank c = true)
    (hgap : ∀ w ∈ words.dropLast, w.2 ≠ []) (hends : Ends rest) :
    Laid rest (words.flatMap fun w ↦ .word w.1 :: w.2.map .blank) := by
  induction words with
  | nil => trivial
  | cons v words ih =>
    obtain ⟨hv, hwritten⟩ := List.forall_mem_cons.1 hwritten
    obtain ⟨hvblank, hblank⟩ := List.forall_mem_cons.1 hblank
    rw [List.flatMap_cons, List.cons_append]
    have hgap' : ∀ w ∈ words.dropLast, w.2 ≠ [] := by
      intro w hw
      cases words with
      | nil => cases hw
      | cons u words => exact hgap w (List.mem_cons_of_mem v hw)
    refine ⟨chosen_of_written hv ?_, laid_append.2 ⟨laid_blanks hvblank, ih hwritten hblank hgap'⟩⟩
    obtain ⟨w, gap⟩ := v
    cases gap with
    | cons c gap => exact breaks_of_isBlank (hvblank c List.mem_cons_self) _
    | nil =>
      cases words with
      | nil => exact breaks_of_ends hends
      | cons u words => exact absurd rfl (hgap (w, []) List.mem_cons_self)

theorem Spaced.begins (t : Spaced) : Begins t.text.toList t.items t.comment := by
  refine ⟨String.toList_ofList, laid_append.2 ⟨laid_blanks t.lead_blank, ?_⟩⟩
  exact laid_words t.written t.gap_blank t.gap_ne_nil t.comment_ends

end Lexeme

namespace Line

open Lexeme

theorem ofText_eq_ok_iff {text : String} {line : Line} : ofText text = .ok line ↔
    ∃ items rest, Begins text.toList items rest ∧ Ends rest ∧
      line = ⟨(located 0 items).map toToken, UInt32.ofNat text.utf8ByteSize⟩ := by
  constructor
  · intro h
    cases hs : scan 0 text.toList with
    | error n =>
      rw [ofText, hs] at h
      cases h
    | ok found =>
      obtain ⟨items, rest, hbegins, hends, rfl⟩ := scan_eq_ok_iff.1 hs
      rw [ofText, hs] at h
      exact ⟨items, rest, hbegins, hends, (Except.ok.inj h).symm⟩
  · intro h
    obtain ⟨items, rest, hbegins, hends, rfl⟩ := h
    rw [ofText, scan_eq_ok_iff.2 ⟨items, rest, hbegins, hends, rfl⟩]
    rfl

theorem ofText_eq_error_iff {text : String} {n : Nat} :
    ofText text = .error n ↔ scan 0 text.toList = .error n := by
  rw [ofText]
  cases scan 0 text.toList <;> simp [Except.map]

theorem iterate_next (l : Line) (n : Nat) :
    (fun l ↦ (next l).2)^[n] l = ⟨l.tokens.drop n, l.stop⟩ := by
  induction n generalizing l with
  | zero => rfl
  | succ n ih =>
    obtain ⟨_ | ⟨t, ts⟩, stop⟩ := l
    · exact (ih _).trans (by simp)
    · exact ih ⟨ts, stop⟩

theorem next_iterate {l : Line} {n : Nat} (h : l.tokens.length ≤ n) :
    (next ((fun l ↦ (next l).2)^[n] l)).1 = Token.stop l.stop := by
  rw [iterate_next, List.drop_eq_nil_of_le h]
  rfl

/-- A text is read just where it is made of words, blanks and a comment, the words being those that
are chosen. Words that blanks separate are read as they are. -/
theorem ofText_exact :
    (∀ text line, ofText text = .ok line → ∃ items rest,
      Begins text.toList items rest ∧ Ends rest ∧
      line.tokens = (located 0 items).map toToken ∧ Stand text (located 0 items) ∧
      ∀ n ≥ line.tokens.length, (next ((fun l ↦ (next l).2)^[n] line)).1 =
        Token.stop (UInt32.ofNat text.utf8ByteSize)) ∧
    (∀ t : Spaced, ofText t.text = .ok t.line) ∧
    ∀ text n, ofText text = .error n ↔ ∃ items rest,
      Furthest text.toList items rest ∧ Stuck rest ∧ n = bytes (spread items) := by
  refine ⟨fun text line h ↦ ?_, fun t ↦ ?_, fun text n ↦ ?_⟩
  · obtain ⟨items, rest, hbegins, hends, rfl⟩ := ofText_eq_ok_iff.1 h
    exact ⟨items, rest, hbegins, hends, rfl, stand_of_begins hbegins, fun n hn ↦ next_iterate hn⟩
  · exact ofText_eq_ok_iff.2 ⟨t.items, t.comment, t.begins, t.comment_ends, rfl⟩
  · rw [ofText_eq_error_iff, scan_eq_error_iff]
    simp only [Nat.zero_add]

/-- A load in front of a comment that is not ASCII. -/
theorem ofText_exact_load :
    ofText "lda $12 ;é" = .ok ⟨[⟨.identifier, "lda", 0⟩, ⟨.number, "$12", 4⟩], 11⟩ ∧
      ∃ items, Stand "lda $12 ;é" (located 0 items) ∧
        (located 0 items).map toToken = [⟨.identifier, "lda", 0⟩, ⟨.number, "$12", 4⟩] := by
  have hlda : Written (.identifier, ['l', 'd', 'a']) :=
    ⟨.name, by simp [rules], rfl, 'l', ['d', 'a'], rfl, rfl, List.all_eq_true.1 rfl⟩
  have hnumber : Written (.number, ['$', '1', '2']) :=
    ⟨.ofForm ⟨['$'], 16⟩, mem_rules.2 (.inl ⟨_, by decide, rfl⟩), rfl, ['1', '2'], rfl, by simp,
      List.all_eq_true.1 rfl⟩
  have hread : ofText "lda $12 ;é" = .ok ⟨[⟨.identifier, "lda", 0⟩, ⟨.number, "$12", 4⟩], 11⟩ := by
    have h := ofText_exact.2.1 {
      lead := []
      words := [((.identifier, ['l', 'd', 'a']), [' ']), ((.number, ['$', '1', '2']), [' '])]
      comment := [';', 'é']
      lead_blank := by simp
      written := by simp [hlda, hnumber]
      gap_blank := by simp [isBlank]
      gap_ne_nil := by simp
      comment_ends := by simp [Ends] }
    exact h
  obtain ⟨items, -, -, -, htokens, hstand, -⟩ := ofText_exact.1 _ _ hread
  exact ⟨hread, items, hstand, htokens.symm⟩

end Line

end Asm65816
