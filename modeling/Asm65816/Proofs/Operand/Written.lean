import Asm65816.Proofs.Expr
import Asm65816.Proofs.Operand.Direct
import Mathlib.Data.List.Forall2

namespace Asm65816

theorem Line.eq_of_cons_append {t u : Token} {ts us : List Token} {p q : Line}
    (h : t :: ts ++ p = u :: us ++ q) : t = u ∧ ts ++ p = us ++ q := by
  obtain ⟨ps, stop⟩ := p
  obtain ⟨qs, stop'⟩ := q
  obtain ⟨htokens, rfl⟩ := Line.mk.inj h
  obtain ⟨rfl, hrest⟩ := List.cons.inj htokens
  exact ⟨rfl, congrArg (Line.mk · stop) hrest⟩

theorem Token.isLetter_of_ne {t : Token} {c d : Char} (h : t.isLetter c = true)
    (hne : c.toLower ≠ d.toLower) : t.isLetter d = false := by
  simp only [isLetter, Bool.and_eq_true, decide_eq_true_eq] at h
  simp [isLetter, h, hne]

namespace Operand

open TokenSource Grammar

inductive Glyph
  | symbol (c : Char)
  | letter (c : Char)
  deriving DecidableEq

def Glyph.Matches : Glyph → Token → Prop
  | symbol c, t => t.isSymbol c = true
  | letter c, t => t.isLetter c = true

instance (g : Glyph) (t : Token) : Decidable (g.Matches t) :=
  match g with
  | .symbol _ | .letter _ => inferInstanceAs (Decidable (_ = true))

def Spells : List Glyph → List Token → Prop := List.Forall₂ Glyph.Matches

def Trails {σ : Type} [TokenSource σ] : List Glyph → σ → Prop
  | [], s => (next s).1.isStop = true
  | g :: gs, s => g.Matches (next s).1 ∧ Trails gs (next s).2

def Opening.front : Opening → List Glyph
  | target _ | bare => []
  | distance _ | immediate => [.symbol '#']
  | parenthesis => [.symbol '(']
  | bracket => [.symbol '[']

def Form.behind : Form → List Glyph
  | target _ | distance _ | immediate | plain => []
  | indexedX => [.symbol ',', .letter 'x']
  | indexedY => [.symbol ',', .letter 'y']
  | onStack => [.symbol ',', .letter 's']
  | indirect => [.symbol ')']
  | indirectY => [.symbol ')', .symbol ',', .letter 'y']
  | indexedIndirect => [.symbol ',', .letter 'x', .symbol ')']
  | stackIndirectY => [.symbol ',', .letter 's', .symbol ')', .symbol ',', .letter 'y']
  | indirectLong => [.symbol ']']
  | indirectLongY => [.symbol ']', .symbol ',', .letter 'y']

def Form.Allowed (base : Mode) : Form → Prop
  | target b | distance b => base = b.mode
  | _ => base ∉ [Mode.relative, .relativeLong, .blockMove]

instance (base : Mode) (f : Form) : Decidable (f.Allowed base) :=
  match f with
  | .target _ | .distance _ => inferInstanceAs (Decidable (_ = _))
  | .immediate | .plain | .indexedX | .indexedY | .onStack | .indirect | .indirectY
  | .indexedIndirect | .stackIndirectY | .indirectLong | .indirectLongY =>
    inferInstanceAs (Decidable (_ ∉ _))

abbrev Mark := Char × (Int → Sized)

def constantMarks : List Mark :=
  [('<', fun v ↦ ⟨v % 0x100, some .byte⟩), ('>', fun v ↦ ⟨v / 0x100 % 0x100, some .byte⟩)]

def addressMarks : List Mark :=
  [('<', fun v ↦ ⟨v % 0x100, some .byte⟩), ('!', fun v ↦ ⟨v % 0x10000, some .word⟩),
    ('>', fun v ↦ ⟨v % 0x1000000, some .long⟩)]

def Opening.marks : Opening → List Mark
  | target _ | distance _ | immediate => constantMarks
  | bare | parenthesis | bracket => addressMarks

inductive Quantity (labels : String → Option Int) (marks : List Mark) (width : Option Width) :
    List Token → Sized → Prop
  | bare {ts : List Token} {v : Int} :
    Expr.Sum labels ts v → Quantity labels marks width ts ⟨v, width⟩
  | marked {c : Char} {g : Int → Sized} {t : Token} {ts : List Token} {v : Int} :
    (c, g) ∈ marks → t.isSymbol c = true → Expr.Sum labels ts v →
      Quantity labels marks width (t :: ts) (g v)

inductive Reading
  | nothing (width : Option Width)
  | single (f : Form) (z : Sized)
  | move (source destination : Sized)

inductive Body (labels : String → Option Int) (base : Mode) (width : Option Width) :
    List Token → Reading → Prop
  | nothing : Body labels base width [] (.nothing width)
  | single {f : Form} {front ts behind : List Token} {z : Sized} :
    f.Allowed base → Spells f.opening.front front →
      Quantity labels f.opening.marks width ts z → Spells f.behind behind →
      Body labels base width (front ++ ts ++ behind) (.single f z)
  | move {t : Token} {ts us : List Token} {z z' : Sized} :
    base = .blockMove → Quantity labels addressMarks width ts z → t.isSymbol ',' = true →
      Quantity labels addressMarks z.width us z' →
      Body labels base width (ts ++ t :: us) (.move z z')

/-- How an operand is written: maybe a suffix, which is a letter that stands for a width, and the
rest behind it. -/
inductive Written (labels : String → Option Int) (base : Mode) (width : Option Width) :
    List Token → Reading → Prop
  | plain {ts : List Token} {x : Reading} :
    Body labels base width ts x → Written labels base width ts x
  | suffixed {dot name : Token} {w : Width} {ts : List Token} {x : Reading} :
    dot.isSymbol '.' = true → name.kind = .identifier → Width.ofSuffix? name.text = some w →
      Body labels base (some w) ts x → Written labels base width (dot :: name :: ts) x

def Reading.settle (site : Site) (memory : UInt32 → UInt8) (base : Mode) :
    Reading → Except Fault Operand
  | nothing width => .ok ⟨base, 0, width, false⟩
  | single f z => f.settle site memory base z
  | move z z' => do
    let low ← Domain.blockSource.check z.value
    let high ← Domain.blockDestination.check z'.value
    return ⟨.blockMove, low + 0x100 * high, z'.width, false⟩

section

variable {labels : String → Option Int} {marks : List Mark} {width : Option Width} {z : Sized}
variable {t : Token} {ts : List Token} {v : Int} {q r s : Line} {g : Int → Sized} {c : Char}

theorem Glyph.not_isStop {x : Glyph} (h : x.Matches t) : t.isStop = false := by
  cases x with
  | symbol c => exact Token.not_isStop_of_isSymbol h
  | letter c => exact Token.not_isStop_of_isLetter h

theorem Spells.not_isStop {gs : List Glyph} (h : Spells gs ts) : ∀ t ∈ ts, t.isStop = false := by
  induction h with
  | nil => simp
  | cons hx _ ih => exact List.forall_mem_cons.2 ⟨Glyph.not_isStop hx, ih⟩

theorem Quantity.not_isStop (h : Quantity labels marks width ts z) :
    ∀ t ∈ ts, t.isStop = false := by
  cases h with
  | bare hs => exact hs.not_isStop
  | marked _ ht hs =>
    exact List.forall_mem_cons.2 ⟨Token.not_isStop_of_isSymbol ht, hs.not_isStop⟩

theorem Quantity.exists_cons (h : Quantity labels marks width ts z) : ∃ t us, ts = t :: us := by
  cases h with
  | bare hs =>
    obtain ⟨t, us, rfl, -⟩ := hs.head
    exact ⟨t, us, rfl⟩
  | marked _ _ _ => exact ⟨_, _, rfl⟩

theorem Quantity.not_isStop_next (h : Quantity labels marks width ts z) (q : Line) :
    (next (ts ++ q)).1.isStop = false := by
  obtain ⟨t, us, rfl⟩ := h.exists_cons
  exact h.not_isStop t List.mem_cons_self

theorem Quantity.head (h : Quantity labels marks width ts z) (hc : c ≠ '-')
    (hm : ∀ m ∈ marks, m.1 ≠ c) :
    ∃ t us, ts = t :: us ∧ t.isSymbol c = false := by
  cases h with
  | bare hs =>
    obtain ⟨t, us, rfl, ht⟩ := hs.head
    refine ⟨t, us, rfl, ?_⟩
    rcases ht with hk | hk | hk
    · exact Token.isSymbol_of_kind (by simp [hk]) c
    · exact Token.isSymbol_of_kind (by simp [hk]) c
    · exact Token.isSymbol_of_ne hk hc.symm
  | marked hg ht _ =>
    exact ⟨_, _, rfl, Token.isSymbol_of_ne ht (hm _ hg)⟩

end

structure Heeds {σ : Type} [TokenSource σ] (marks : List Mark)
    (lead : Option Width → Token → σ → Lead σ) : Prop where
  marked {m : Mark} {width : Option Width} {t : Token} {s : σ} :
    m ∈ marks → t.isSymbol m.1 = true → lead width t s = ⟨s, m.2⟩
  bare {width : Option Width} {t : Token} {s : σ} :
    (∀ m ∈ marks, t.isSymbol m.1 = false) → lead width t s = ⟨putBack t s, fun v ↦ ⟨v, width⟩⟩
  ne_minus : ∀ m ∈ marks, m.1 ≠ '-'

section

variable {σ : Type} [TokenSource σ]

/-- A mark in front of an address keeps the bits of one width and forces that width on it. -/
theorem exists_width_of_addressMarks {m : Mark} (h : m ∈ addressMarks) :
    ∃ w : Width, (m.1 = '>' → w = .long) ∧ ∀ v, m.2 v = ⟨w.truncate v, some w⟩ := by
  simp only [addressMarks, List.mem_cons, List.not_mem_nil, or_false] at h
  rcases h with rfl | rfl | rfl
  · exact ⟨.byte, fun hc ↦ absurd hc (by decide), fun _ ↦ rfl⟩
  · exact ⟨.word, fun hc ↦ absurd hc (by decide), fun _ ↦ rfl⟩
  · exact ⟨.long, fun _ ↦ rfl, fun _ ↦ rfl⟩

theorem heeds_constantMarks : Heeds constantMarks (Lead.ofConstant (σ := σ)) where
  marked {m width t s} hm ht := by
    simp only [constantMarks, List.mem_cons, List.not_mem_nil, or_false] at hm
    rcases hm with rfl | rfl
    · have hp : part? t = some (· % 0x100) := if_pos ht
      simp [Lead.ofConstant, hp]
    · have hn : t.isSymbol '<' = false := Token.isSymbol_of_ne ht (by decide)
      have hp : part? t = some (· / 0x100 % 0x100) := by simp_all [part?]
      simp [Lead.ofConstant, hp]
  bare {width t s} h := by
    simp only [constantMarks, List.forall_mem_cons] at h
    have hp : part? t = none := by simp [part?, h.1, h.2.1]
    simp [Lead.ofConstant, hp]
  ne_minus := by decide

theorem heeds_addressMarks : Heeds addressMarks (Lead.ofAddress (σ := σ)) where
  marked {m width t s} hm ht := by
    simp only [addressMarks, List.mem_cons, List.not_mem_nil, or_false] at hm
    rcases hm with rfl | rfl | rfl
    · have hp : mark? t = some .byte := if_pos ht
      simp [Lead.ofAddress, hp, Width.truncate, Width.size]
    · have hn : t.isSymbol '<' = false := Token.isSymbol_of_ne ht (by decide)
      have hp : mark? t = some .word := by simp_all [mark?]
      simp [Lead.ofAddress, hp, Width.truncate, Width.size]
    · have hn : t.isSymbol '<' = false := Token.isSymbol_of_ne ht (by decide)
      have hn' : t.isSymbol '!' = false := Token.isSymbol_of_ne ht (by decide)
      have hp : mark? t = some .long := by simp_all [mark?]
      simp [Lead.ofAddress, hp, Width.truncate, Width.size]
  bare {width t s} h := by
    simp only [addressMarks, List.forall_mem_cons] at h
    have hp : mark? t = none := by simp [mark?, h.1, h.2.1, h.2.2.1]
    simp [Lead.ofAddress, hp]
  ne_minus := by decide

end

section

variable {labels : String → Option Int} {marks : List Mark} {width : Option Width} {z : Sized}
variable {t : Token} {v : Int} {q r s : Line}
variable {lead : Option Width → Token → Line → Lead Line}

/-- What is read from a lead is written as a value, up to where no sign follows. -/
theorem Heeds.read_iff (h : Heeds marks lead) :
    (∃ v, (Expr.sum labels).run (lead width t s).start = .ok v r ∧
        z = (lead width t s).take v) ↔
      ∃ ts q, [t] ++ s = ts ++ q ∧ Quantity labels marks width ts z ∧ Expr.NoSign q ∧
        r = putBack (next q).1 (next q).2 := by
  simp only [Expr.run_sum_eq_ok]
  constructor
  · rintro ⟨v, ⟨ts, q, hs, hts, hq, hr⟩, hz⟩
    by_cases hm : ∃ m ∈ marks, t.isSymbol m.1 = true
    · obtain ⟨m, hm, ht⟩ := hm
      rw [h.marked hm ht] at hs hz
      change s = _ at hs
      exact ⟨t :: ts, q, by rw [hs, ← Line.append_append]; rfl, hz ▸ .marked hm ht hts, hq, hr⟩
    · have hb : lead width t s = ⟨putBack t s, fun v ↦ ⟨v, width⟩⟩ :=
        h.bare (by simpa using hm)
      rw [hb] at hs hz
      exact ⟨ts, q, hs, hz ▸ .bare hts, hq, hr⟩
  · rintro ⟨ts, q, hs, hts, hq, hr⟩
    cases hts with
    | bare hsum =>
      rename_i v
      have hb : lead width t s = ⟨putBack t s, fun v ↦ ⟨v, width⟩⟩ := by
        refine h.bare fun m hm ↦ ?_
        obtain ⟨u, us, rfl, hu⟩ := hsum.head
        obtain ⟨rfl, -⟩ := Line.eq_of_cons_append hs
        rcases hu with hu | hu | hu
        · exact Token.isSymbol_of_kind (by simp [hu]) _
        · exact Token.isSymbol_of_kind (by simp [hu]) _
        · exact Token.isSymbol_of_ne hu (h.ne_minus m hm).symm
      rw [hb]
      exact ⟨v, ⟨ts, q, hs, hsum, hq, hr⟩, rfl⟩
    | marked hm ht hsum =>
      rename_i c g u us v
      obtain ⟨rfl, hs'⟩ := Line.eq_of_cons_append hs
      rw [h.marked hm ht]
      exact ⟨v, ⟨us, q, hs', hsum, hq, hr⟩, rfl⟩

theorem Heeds.read_present_iff (h : Heeds marks lead) :
    (∃ l v, (if (next s).1.isStop then none else some (lead width (next s).1 (next s).2)) =
        some l ∧ (Expr.sum labels).run l.start = .ok v r ∧ z = l.take v) ↔
      ∃ ts q, s = ts ++ q ∧ Quantity labels marks width ts z ∧ Expr.NoSign q ∧
        r = putBack (next q).1 (next q).2 := by
  cases hs : (next s).1.isStop with
  | true =>
    constructor
    · rintro ⟨l, v, hl, -⟩
      cases hl
    · rintro ⟨ts, q, rfl, hts, -⟩
      exact absurd hs (by simp [hts.not_isStop_next])
  | false =>
    have hl : s = [(next s).1] ++ (next s).2 := Line.eq_next_append hs
    constructor
    · rintro ⟨l, v, ⟨⟩, hv⟩
      obtain ⟨ts, q, hts, hread⟩ := h.read_iff.1 ⟨v, hv⟩
      exact ⟨ts, q, hl.trans hts, hread⟩
    · rintro ⟨ts, q, hts, hread⟩
      obtain ⟨v, hv⟩ := h.read_iff.2 ⟨ts, q, hl.symm.trans hts, hread⟩
      exact ⟨_, v, rfl, hv⟩

theorem Opening.read_iff {x : Opening} {front : List Token} {p : Line}
    (hx : Spells x.front front) (hs : [t] ++ s = front ++ p) :
    (∃ l v, x.lead? width t s = some l ∧ (Expr.sum labels).run l.start = .ok v r ∧
        z = l.take v) ↔
      ∃ ts q, p = ts ++ q ∧ Quantity labels x.marks width ts z ∧ Expr.NoSign q ∧
        r = putBack (next q).1 (next q).2 := by
  have hfront {g : Glyph} (hg : Spells [g] front) : s = p := by
    obtain ⟨u, us, -, hus, rfl⟩ := List.forall₂_cons_left_iff.1 hg
    obtain rfl := List.forall₂_nil_left_iff.1 hus
    exact (Line.eq_of_cons_append hs).2
  have hnone (hg : Spells [] front) : p = [t] ++ s := by
    obtain rfl := List.forall₂_nil_left_iff.1 hg
    exact hs.symm
  cases x with
  | target b =>
    obtain rfl := hnone hx
    simpa [Opening.lead?, Opening.marks] using heeds_constantMarks.read_iff
  | bare =>
    obtain rfl := hnone hx
    simpa [Opening.lead?, Opening.marks] using heeds_addressMarks.read_iff
  | distance b =>
    obtain rfl := hfront hx
    exact heeds_constantMarks.read_present_iff
  | immediate =>
    obtain rfl := hfront hx
    exact heeds_constantMarks.read_present_iff
  | parenthesis =>
    obtain rfl := hfront hx
    exact heeds_addressMarks.read_present_iff
  | bracket =>
    obtain rfl := hfront hx
    exact heeds_addressMarks.read_present_iff

end

namespace Grammar

section

variable {σ : Type} [TokenSource σ] {q r s : σ} {c : Char} {g : Glyph} {gs : List Glyph}

theorem run_letter_eq_ok {u : Unit} :
    (letter c).run s = .ok u r ↔ (next s).1.isLetter c = true ∧ r = (next s).2 := by
  rw [run_letter]
  cases (next s).1.isLetter c <;> simp [eq_comm]

theorem trails_nil : Trails [] q ↔ (next q).1.isStop = true := Iff.rfl

theorem trails_cons : Trails (g :: gs) q ↔ g.Matches (next q).1 ∧ Trails gs (next q).2 := Iff.rfl

theorem trails_of_pure {f f' : Form} (hg : g.Matches (next q).1)
    (h : (pure f' : Reader σ Form).run (next q).2 = .ok f r) (hr : (next r).1.isStop = true) :
    f = f' ∧ Trails [g] q := by
  obtain ⟨rfl, rfl⟩ := run_pure_eq_ok.1 h
  exact ⟨rfl, hg, hr⟩

variable [LawfulTokenSource σ]

theorem trails_of_index {f near far : Form}
    (h : (do
      if ← accept ',' then
        letter 'y'
        return near
      else return far : Reader σ Form).run q = .ok f r) (hr : (next r).1.isStop = true) :
    f = near ∧ Trails [.symbol ',', .letter 'y'] q ∨ f = far ∧ Trails [] q := by
  obtain ⟨b, p, hb, h⟩ := run_bind_eq_ok.1 h
  obtain ⟨hc, rfl⟩ := run_accept_eq_ok.1 hb
  cases b with
  | true =>
    simp only [↓reduceIte] at h
    obtain ⟨_, p, hl, h⟩ := run_bind_eq_ok.1 h
    obtain ⟨hy, rfl⟩ := run_letter_eq_ok.1 hl
    obtain ⟨hf, hl⟩ := trails_of_pure (g := .letter 'y') hy h hr
    exact .inl ⟨hf, hc, hl⟩
  | false =>
    obtain ⟨hf, rfl⟩ := run_pure_eq_ok.1 h
    simp only [Bool.false_eq_true, if_false, LawfulTokenSource.next_putBack] at hr
    exact .inr ⟨hf, hr⟩

theorem trails_of_closing_bare {f : Form} (h : Opening.bare.closing.run q = .ok f r)
    (hr : (next r).1.isStop = true) : Trails f.behind q := by
  obtain ⟨b, p, hb, h⟩ := run_bind_eq_ok.1 h
  obtain ⟨hc, rfl⟩ := run_accept_eq_ok.1 hb
  cases b with
  | false =>
    obtain ⟨rfl, rfl⟩ := run_pure_eq_ok.1 h
    simp only [Bool.false_eq_true, if_false, LawfulTokenSource.next_putBack] at hr
    exact hr
  | true =>
    simp only [↓reduceIte] at h
    obtain ⟨i, p, hi, h⟩ := run_bind_eq_ok.1 h
    obtain ⟨-, rfl, rfl⟩ := run_present_eq_ok.1 hi
    split at h
    · next hx =>
      obtain ⟨rfl, hl⟩ := trails_of_pure (g := .letter 'x') hx h hr
      exact ⟨hc, hl⟩
    · split at h
      · next hy =>
        obtain ⟨rfl, hl⟩ := trails_of_pure (g := .letter 'y') hy h hr
        exact ⟨hc, hl⟩
      · split at h
        · next hs =>
          obtain ⟨rfl, hl⟩ := trails_of_pure (g := .letter 's') hs h hr
          exact ⟨hc, hl⟩
        · cases run_throw_eq_ok.1 h

theorem trails_of_closing_parenthesis {f : Form}
    (h : Opening.parenthesis.closing.run q = .ok f r) (hr : (next r).1.isStop = true) :
    Trails f.behind q := by
  obtain ⟨t, p, ht, h⟩ := run_bind_eq_ok.1 h
  obtain ⟨-, rfl, rfl⟩ := run_present_eq_ok.1 ht
  split at h
  · next hc =>
    obtain ⟨i, p, hi, h⟩ := run_bind_eq_ok.1 h
    obtain ⟨-, rfl, rfl⟩ := run_present_eq_ok.1 hi
    split at h
    · next hx =>
      obtain ⟨_, p, hp, h⟩ := run_bind_eq_ok.1 h
      obtain ⟨hb, rfl⟩ := run_symbol_eq_ok.1 hp
      obtain ⟨rfl, hl⟩ := trails_of_pure (g := .symbol ')') hb h hr
      exact ⟨hc, hx, hl⟩
    · split at h
      · next hs =>
        obtain ⟨_, p, hp, h⟩ := run_bind_eq_ok.1 h
        obtain ⟨hb, rfl⟩ := run_symbol_eq_ok.1 hp
        obtain ⟨_, p, hp, h⟩ := run_bind_eq_ok.1 h
        obtain ⟨hd, rfl⟩ := run_symbol_eq_ok.1 hp
        obtain ⟨_, p, hp, h⟩ := run_bind_eq_ok.1 h
        obtain ⟨hy, rfl⟩ := run_letter_eq_ok.1 hp
        obtain ⟨rfl, hl⟩ := trails_of_pure (g := .letter 'y') hy h hr
        exact ⟨hc, hs, hb, hd, hl⟩
      · cases run_throw_eq_ok.1 h
  · split at h
    · next hb =>
      rcases trails_of_index h hr with ⟨rfl, hl⟩ | ⟨rfl, hl⟩
      · exact ⟨hb, hl⟩
      · exact ⟨hb, hl⟩
    · cases run_throw_eq_ok.1 h

/-- Whatever is read behind an expression, to the end of the line, is spelled as its form says. -/
theorem trails_of_closing {x : Opening} {f : Form} (h : x.closing.run q = .ok f r)
    (hr : (next r).1.isStop = true) : Trails f.behind q := by
  cases x with
  | target b | distance b | immediate =>
    obtain ⟨rfl, rfl⟩ := run_pure_eq_ok.1 h
    exact hr
  | bare => exact trails_of_closing_bare h hr
  | parenthesis => exact trails_of_closing_parenthesis h hr
  | bracket =>
    obtain ⟨_, p, hp, h⟩ := run_bind_eq_ok.1 h
    obtain ⟨hb, rfl⟩ := run_symbol_eq_ok.1 hp
    rcases trails_of_index h hr with ⟨rfl, hl⟩ | ⟨rfl, hl⟩
    · exact ⟨hb, hl⟩
    · exact ⟨hb, hl⟩

theorem closing_of_trails {f : Form} (h : Trails f.behind q) :
    ∃ r, f.opening.closing.run q = .ok f r ∧ (next r).1.isStop = true := by
  have hput {p : σ} (hp : (next p).1.isStop = true) :
      (next (putBack (next p).1 (next p).2)).1.isStop = true := by
    rw [LawfulTokenSource.next_putBack, hp]
  cases f <;> simp only [Form.behind, trails_cons, trails_nil, Glyph.Matches] at h
  case target b | distance b | immediate => exact ⟨q, rfl, h⟩
  case plain =>
    exact ⟨_, by simp [Form.opening, Opening.closing, run_accept, Token.isSymbol_of_isStop h], hput h⟩
  case indexedX =>
    obtain ⟨hc, hi, hq⟩ := h
    have hs := Token.not_isStop_of_isLetter hi
    exact ⟨_, by simp [Form.opening, Opening.closing, run_accept, run_present, hc, hi, hs], hq⟩
  case indexedY =>
    obtain ⟨hc, hi, hq⟩ := h
    have hs := Token.not_isStop_of_isLetter hi
    have hx : (next (next q).2).1.isLetter 'x' = false := Token.isLetter_of_ne hi (by decide)
    exact ⟨_, by simp [Form.opening, Opening.closing, run_accept, run_present, hc, hi, hs, hx], hq⟩
  case onStack =>
    obtain ⟨hc, hi, hq⟩ := h
    have hs := Token.not_isStop_of_isLetter hi
    have hx : (next (next q).2).1.isLetter 'x' = false := Token.isLetter_of_ne hi (by decide)
    have hy : (next (next q).2).1.isLetter 'y' = false := Token.isLetter_of_ne hi (by decide)
    exact ⟨_, by simp [Form.opening, Opening.closing, run_accept, run_present, hc, hi, hs, hx, hy],
      hq⟩
  case indirect =>
    obtain ⟨hb, hq⟩ := h
    have hs := Token.not_isStop_of_isSymbol hb
    have hc : (next q).1.isSymbol ',' = false := Token.isSymbol_of_ne hb (by decide)
    exact ⟨_, by simp [Form.opening, Opening.closing, run_accept, run_present, hb, hs, hc,
      Token.isSymbol_of_isStop hq], hput hq⟩
  case indirectY =>
    obtain ⟨hb, hc, hi, hq⟩ := h
    have hs := Token.not_isStop_of_isSymbol hb
    have hn : (next q).1.isSymbol ',' = false := Token.isSymbol_of_ne hb (by decide)
    exact ⟨_, by simp [Form.opening, Opening.closing, run_accept, run_present, run_letter, hb, hs,
      hc, hn, hi], hq⟩
  case indexedIndirect =>
    obtain ⟨hc, hi, hb, hq⟩ := h
    have hs := Token.not_isStop_of_isSymbol hc
    have hs' := Token.not_isStop_of_isLetter hi
    exact ⟨_, by simp [Form.opening, Opening.closing, run_present, run_symbol, hb, hs, hs', hc,
      hi], hq⟩
  case stackIndirectY =>
    obtain ⟨hc, hi, hb, hd, hy, hq⟩ := h
    have hs := Token.not_isStop_of_isSymbol hc
    have hs' := Token.not_isStop_of_isLetter hi
    have hx : (next (next q).2).1.isLetter 'x' = false := Token.isLetter_of_ne hi (by decide)
    exact ⟨_, by simp [Form.opening, Opening.closing, run_present, run_symbol, run_letter, hb, hs,
      hs', hc, hi, hd, hx, hy], hq⟩
  case indirectLong =>
    obtain ⟨hb, hq⟩ := h
    exact ⟨_, by simp [Form.opening, Opening.closing, run_accept, run_symbol, hb, Token.isSymbol_of_isStop hq],
      hput hq⟩
  case indirectLongY =>
    obtain ⟨hb, hc, hi, hq⟩ := h
    exact ⟨_, by simp [Form.opening, Opening.closing, run_accept, run_symbol, run_letter, hb, hc,
      hi], hq⟩

end

section

variable {ts : List Token} {q r : Line} {gs : List Glyph}

theorem spells_of_trails (h : Trails gs q) : Spells gs q.words := by
  induction gs generalizing q with
  | nil =>
    rw [Line.words_of_isStop h]
    exact .nil
  | cons g gs ih =>
    obtain ⟨hg, h⟩ := h
    rw [Line.words_of_next (Glyph.not_isStop hg)]
    exact .cons hg (ih h)

theorem trails_append (h : Spells gs ts) (hq : (next q).1.isStop = true) :
    Trails gs (ts ++ q) := by
  induction h with
  | nil => exact hq
  | cons hg _ ih => exact ⟨hg, ih⟩

theorem spells_of_closing {x : Opening} {f : Form} (h : x.closing.run q = .ok f r)
    (hr : (next r).1.isStop = true) : Spells f.behind q.words :=
  spells_of_trails (trails_of_closing h hr)

theorem closing_append {f : Form} (h : Spells f.behind ts) (hq : (next q).1.isStop = true) :
    ∃ r, f.opening.closing.run (ts ++ q) = .ok f r ∧ (next r).1.isStop = true :=
  closing_of_trails (trails_append h hq)

end

end Grammar

end Operand

end Asm65816
