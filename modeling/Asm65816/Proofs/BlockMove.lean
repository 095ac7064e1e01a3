import Asm65816.Proofs.Branch
import Asm65816.Proofs.Expr.Series
import Asm65816.Proofs.Operand.Incomplete

namespace Asm65816

namespace Operand

open TokenSource Grammar Asm65816.Expr

def Counts (site : Site) (labels : String → Option Int) (x : Series) (v : Int) : Prop :=
  x.value? labels = some v ∨ site.pass = .first ∧ x.value? labels = none ∧ v = 0

structure Bank where
  mark : Option (Token × Mark)
  series : Series
  isMark : ∀ m ∈ mark, m.2 ∈ addressMarks ∧ m.1.isSymbol m.2.1 = true

namespace Bank

def tokens (b : Bank) : List Token := (b.mark.map Prod.fst).toList ++ b.series.tokens

def sized (b : Bank) (width : Option Width) (v : Int) : Sized :=
  Operand.sized (b.mark.map Prod.snd) width v

def Counts (site : Site) (labels : String → Option Int) (b : Bank) (n : Int) : Prop :=
  (∃ v, b.series.value? labels = some v ∧ n = (b.sized none v).value) ∨
    site.pass = .first ∧ b.series.value? labels = none ∧ n = 0

end Bank

/-- What stands behind a mnemonic is a suffix or none, and two banks that come to numbers, with a
comma between them. -/
structure IsMove (site : Site) (labels : String → Option Int) (line : Line) (a b : Bank)
    (n m : Int) : Prop where
  written : ∃ suffix p comma, Suffixed line suffix p ∧
    p.words = a.tokens ++ comma :: b.tokens ∧ comma.isSymbol ',' = true
  source : a.Counts site labels n
  destination : b.Counts site labels m

section

variable {site : Site} {labels : String → Option Int} {x : Series} {width : Option Width}
variable {t : Token} {ts : List Token} {v n m : Int} {line q s : Line} {a b : Bank}

theorem Bank.value_sized (b : Bank) (width : Option Width) (v : Int) :
    (b.sized width v).value = (b.sized none v).value := by
  unfold Bank.sized Operand.sized
  cases b.mark <;> rfl

theorem Bank.Counts.exists_of_series (h : b.Counts site labels n) :
    ∃ v, Operand.Counts site labels b.series v ∧ n = (b.sized none v).value := by
  rcases h with ⟨v, hv, hn⟩ | ⟨hp, hv, rfl⟩
  · exact ⟨v, .inl hv, hn⟩
  · refine ⟨0, .inr ⟨hp, hv, rfl⟩, ?_⟩
    obtain ⟨mark, x, hmark⟩ := b
    cases mark with
    | none => rfl
    | some m =>
      obtain ⟨w, -, hw⟩ := exists_width_of_addressMarks (hmark m rfl).1
      change 0 = (m.2.2 0).value
      rw [hw, Width.truncate, Int.zero_emod]

theorem Bank.exists_cons (b : Bank) : ∃ t ts, b.tokens = t :: ts := by
  obtain ⟨t, ts, hx⟩ := b.series.exists_cons
  refine List.exists_cons_of_ne_nil ?_
  simp [Bank.tokens, hx]

theorem noSign_of_ends (h : ends (next q).1 = true) : NoSign q := by
  rcases ends_eq_true.1 h with h | h | h
  · exact noSign_of_isStop h
  · rcases Bool.or_eq_true_iff.1 h with h | h
    · exact ⟨Token.isSymbol_of_ne h (by decide), Token.isSymbol_of_ne h (by decide)⟩
    · exact ⟨Token.isSymbol_of_ne h (by decide), Token.isSymbol_of_ne h (by decide)⟩
  · exact ⟨Token.isSymbol_of_ne h (by decide), Token.isSymbol_of_ne h (by decide)⟩

theorem skip_append (hs : ∀ t ∈ ts, t.isStop = false)
    (hb : ∀ t ∈ ts, ∀ c ∈ ['(', '[', ')', ']', ','], t.isSymbol c = false) (d : Nat) (q : Line) :
    skip d (ts ++ q) = skip d q := by
  induction ts with
  | nil => rfl
  | cons t ts ih =>
    obtain ⟨ht, hs⟩ := List.forall_mem_cons.1 hs
    obtain ⟨hc, hb⟩ := List.forall_mem_cons.1 hb
    rw [skip_of_inside d (s := t :: ts ++ q) ht hc]
    exact ih hs hb

/-- In front of what ends an operand, an expression is read to its end, whether it has a value or
the first pass takes zero for it. -/
theorem run_evaluate_of_counts (h : Counts site labels x v) (he : ends (next q).1 = true) :
    (evaluate site (Expr.sum labels)).run (x.tokens ++ q) =
      .ok v (putBack (next q).1 (next q).2) := by
  rcases h with hx | ⟨hp, hx, rfl⟩
  · have hsum : Expr.Sum labels x.tokens v := Series.sum_of_value? hx
    exact run_evaluate_of_ok (run_sum_eq_ok.2 ⟨_, q, rfl, hsum, noSign_of_ends he, rfl⟩)
  · obtain ⟨front, t, rest, htokens, -, -, hrun⟩ := Series.exists_run_sum_eq_error hx
    have hrest {u : Token} (hu : u ∈ rest) : u ∈ x.tokens := by simp [htokens, hu]
    rw [run_evaluate_first hp (hrun q), skip_append, skip_of_ends he]
    · exact fun u hu ↦ Series.not_isStop (hrest hu)
    · intro u hu c hc
      exact Series.not_isSymbol (hrest hu) (by rintro rfl; simp at hc) (by rintro rfl; simp at hc)

theorem Bank.lead_eq (h : [t] ++ s = b.tokens ++ q) :
    Lead.ofAddress width t s = ⟨b.series.tokens ++ q, b.sized width⟩ := by
  obtain ⟨mark, x, hmark⟩ := b
  cases mark with
  | none =>
    obtain ⟨u, us, hx⟩ := x.exists_cons
    change [t] ++ s = x.tokens ++ q at h
    have ht : t = u := by
      rw [hx] at h
      exact (Line.eq_of_cons_append h).1
    have hlead : Lead.ofAddress width t s = ⟨[t] ++ s, fun v ↦ ⟨v, width⟩⟩ := by
      refine heeds_addressMarks.bare fun m hm ↦ ?_
      have hsign : m.1 ≠ '+' ∧ m.1 ≠ '-' := by
        revert m
        decide
      exact Series.not_isSymbol (x := x) (by simp [hx, ht]) hsign.1 hsign.2
    rw [hlead, h]
    rfl
  | some m =>
    obtain ⟨hm, ht⟩ := hmark m rfl
    obtain ⟨rfl, rfl⟩ : t = m.1 ∧ s = x.tokens ++ q := Line.eq_of_cons_append h
    exact heeds_addressMarks.marked hm ht

theorem run_address_of_counts (width : Option Width) (h : Counts site labels b.series v)
    (hline : [t] ++ s = b.tokens ++ q) (he : ends (next q).1 = true) :
    (address site (Expr.sum labels) width t).run s =
      .ok (b.sized width v) (putBack (next q).1 (next q).2) := by
  refine run_address_eq_ok.2 ⟨v, ?_, ?_⟩ <;> rw [Bank.lead_eq hline]
  exact run_evaluate_of_counts h he

theorem Bank.not_isStop_next (b : Bank) (q : Line) : (next (b.tokens ++ q)).1.isStop = false := by
  obtain ⟨mark, x, hmark⟩ := b
  cases mark with
  | none =>
    obtain ⟨t, ts, hx⟩ := x.exists_cons
    change (next (x.tokens ++ q)).1.isStop = false
    rw [hx]
    exact Series.not_isStop (x := x) (by simp [hx])
  | some m => exact Token.not_isStop_of_isSymbol (hmark m rfl).2

theorem IsMove.exists_parts (h : IsMove site labels line a b n m) (width : Option Width) :
    ∃ w t s z q z' r, (Grammar.suffix width).run line = .ok (w, t) s ∧ t.isStop = false ∧
      (address site (Expr.sum labels) w t).run s = .ok z q ∧ (next q).1.isSymbol ',' = true ∧
      (next (next q).2).1.isStop = false ∧
      (address site (Expr.sum labels) z.width (next (next q).2).1).run (next (next q).2).2 =
        .ok z' r ∧ (next r).1.isStop = true ∧ z.value = n ∧ z'.value = m := by
  obtain ⟨⟨suffix, p, comma, hs, hwords, hc⟩, ha, hb⟩ := h
  obtain ⟨v, hv, rfl⟩ := ha.exists_of_series
  obtain ⟨v', hv', rfl⟩ := hb.exists_of_series
  obtain ⟨q, hp, hq⟩ := p.eq_words_append
  obtain ⟨t, ts, ha⟩ := a.exists_cons
  have hw : p.words = t :: (ts ++ comma :: b.tokens) := by rw [hwords, ha, List.cons_append]
  obtain ⟨hsuffix, ht⟩ := run_suffix_of_words width hs hw hp
  have hline : [t] ++ (ts ++ comma :: b.tokens ++ q) = a.tokens ++ (comma :: b.tokens ++ q) := by
    rw [ha]
    exact Line.append_append (t :: ts) (comma :: b.tokens) q
  have hcomma : ends (next (comma :: b.tokens ++ q)).1 = true := ends_eq_true.2 (.inr (.inr hc))
  have hstop : ends (next q).1 = true := ends_eq_true.2 (.inl hq)
  have hb := b.not_isStop_next q
  have hza := run_address_of_counts (suffix.or width) hv hline hcomma
  have hzb := run_address_of_counts (a.sized (suffix.or width) v).width hv'
    (Line.eq_next_append hb).symm hstop
  exact ⟨_, t, _, _, _, _, _, hsuffix, ht, hza, hc, hb, hzb, hq, a.value_sized _ v,
    b.value_sized _ v'⟩

section

variable (base : Mode) (width : Option Width) (memory : UInt32 → UInt8)

theorem IsMove.exists_run_parse_eq_ok (h : IsMove site labels line a b n m)
    (hb : base = .blockMove) (hn : Domain.blockSource.Holds n)
    (hm : Domain.blockDestination.Holds m) :
    ∃ w r, (parse site (Expr.sum labels) memory base width).run line =
      .ok ⟨.blockMove, n + 0x100 * m, w, false⟩ r := by
  subst hb
  obtain ⟨w, t, s, z, q, z', r, hs, ht, hz, hc, hstop, hz', hr, rfl, rfl⟩ := h.exists_parts width
  have hbody : (blockMove site (Expr.sum labels) w t).run s = .ok _ r :=
    run_blockMove_eq_ok.2 ⟨z, q, z', hz, hc, hstop, hz', hn, hm, rfl⟩
  exact ⟨z'.width, _, run_parse_eq_ok.2
    ⟨w, t, s, hs, .inr ⟨ht, r, hbody, run_endOfLine_eq_ok.2 ⟨hr, rfl⟩⟩⟩⟩

theorem IsMove.exists_run_parse_eq_error {f : Fault} (h : IsMove site labels line a b n m)
    (hb : base = .blockMove)
    (hf : Domain.blockSource.check n = .error f ∨
      Domain.blockSource.Holds n ∧ Domain.blockDestination.check m = .error f) :
    ∃ r, (parse site (Expr.sum labels) memory base width).run line = .error f r := by
  subst hb
  obtain ⟨w, t, s, z, q, z', r, hs, ht, hz, hc, hstop, hz', -, rfl, rfl⟩ := h.exists_parts width
  have hsettle : (Reading.move z z').settle site memory .blockMove = .error f :=
    settle_move_eq_error.2 hf
  obtain ⟨r', hbody⟩ := run_blockMove_of_settle_error hz hc hstop hz' hsettle
  exact ⟨r', run_parse_of_body_error hs ht hbody⟩

end

end

end Operand

namespace InstructionSet

open Operand TokenSource

section

variable {set : InstructionSet} {site : Site} {labels : String → Option Int}
variable {name : String} {line : Line} {e : Entry} {en : Encoding} {a b : Bank} {c : UInt8}
variable {w : Option Width} {n m v : Int}

theorem join_of_blockMove (hc : set.opcode? e.mnemonic .blockMove = some c) (p : Pass) :
    set.join p e ⟨.blockMove, v, w, false⟩ = .ok ⟨c, v, 3⟩ := by
  refine (join_of_not_padded (isPadded_of_forward rfl)).2 ⟨(c, .blockMove), ?_, rfl⟩
  exact choose_eq_ok.2 (.inl (select?_eq_some.2 (.inl ⟨hc, rfl⟩)))

theorem exists_bytes_of_holds (hn : Domain.blockSource.Holds n)
    (hm : Domain.blockDestination.Holds m) :
    ∃ lo hi : UInt8, (Encoding.mk c (n + 0x100 * m) 3).bytes = [c, lo, hi] ∧
      (lo.toNat : Int) = n ∧ (hi.toNat : Int) = m := by
  obtain ⟨hn, hn'⟩ : 0 ≤ n ∧ n ≤ 0xFF := hn
  obtain ⟨hm, hm'⟩ : 0 ≤ m ∧ m ≤ 0xFF := hm
  have hlo := toNat_lowByte (n + 0x100 * m)
  have hhi := toNat_lowByte ((n + 0x100 * m) / 0x100)
  exact ⟨_, _, rfl, hlo.trans (by omega), hhi.trans (by omega)⟩

section

variable (memory : UInt32 → UInt8) (hl : set.lookup? name = some e) (he : e.base = .blockMove)
variable (h : IsMove site labels line a b n m)

include hl he h

theorem exists_run_encode_of_holds (hc : set.opcode? e.mnemonic .blockMove = some c)
    (hn : Domain.blockSource.Holds n) (hm : Domain.blockDestination.Holds m) :
    ∃ r, (set.encode site (Expr.sum labels) memory name).run line =
      .ok ⟨c, n + 0x100 * m, 3⟩ r := by
  obtain ⟨w, r, hr⟩ := h.exists_run_parse_eq_ok e.base e.width memory he hn hm
  exact ⟨r, run_encode_of_parse hl hr (join_of_blockMove hc _)⟩

theorem exists_run_encode_of_source (hn : ¬Domain.blockSource.Holds n) :
    ∃ r, (set.encode site (Expr.sum labels) memory name).run line =
      .error (.outOfRange .blockSource n) r := by
  have hf := Domain.check_of_not_holds hn
  obtain ⟨r, hr⟩ := h.exists_run_parse_eq_error e.base e.width memory he (.inl hf)
  exact ⟨r, run_encode_of_parse_error hl hr⟩

theorem exists_run_encode_of_destination (hn : Domain.blockSource.Holds n)
    (hm : ¬Domain.blockDestination.Holds m) :
    ∃ r, (set.encode site (Expr.sum labels) memory name).run line =
      .error (.outOfRange .blockDestination m) r := by
  have hf := Domain.check_of_not_holds hm
  obtain ⟨r, hr⟩ := h.exists_run_parse_eq_error e.base e.width memory he (.inr ⟨hn, hf⟩)
  exact ⟨r, run_encode_of_parse_error hl hr⟩

theorem holds_of_run_encode {r : Line}
    (hen : (set.encode site (Expr.sum labels) memory name).run line = .ok en r) :
    Domain.blockSource.Holds n ∧ Domain.blockDestination.Holds m := by
  by_cases hn : Domain.blockSource.Holds n
  · by_cases hm : Domain.blockDestination.Holds m
    · exact ⟨hn, hm⟩
    · obtain ⟨r', hr⟩ := exists_run_encode_of_destination memory hl he h hn hm
      rw [hen] at hr
      cases hr
  · obtain ⟨r', hr⟩ := exists_run_encode_of_source memory hl he h hn
    rw [hen] at hr
    cases hr

end

/-- A block move is encoded if both of its banks are bytes, the source in front of the destination.
The first of them that is none is refused. The comma ends the source even where the first pass has
no value for that, and the destination is held to its range all the same. -/
theorem encode_blockMove (memory : UInt32 → UInt8) (hl : standard.lookup? name = some e)
    (he : e.base = .blockMove) (h : IsMove site labels line a b n m) :
    ((∃ en r, (standard.encode site (Expr.sum labels) memory name).run line = .ok en r) ↔
        (0 ≤ n ∧ n ≤ 0xFF) ∧ 0 ≤ m ∧ m ≤ 0xFF) ∧
      (∀ en r, (standard.encode site (Expr.sum labels) memory name).run line = .ok en r →
        standard.opcode? e.mnemonic .blockMove = some en.opcode ∧ en.length = 3 ∧
        ∃ lo hi : UInt8, en.bytes = [en.opcode, lo, hi] ∧ (lo.toNat : Int) = n ∧
          (hi.toNat : Int) = m) ∧
      (¬(0 ≤ n ∧ n ≤ 0xFF) → ∃ r, (standard.encode site (Expr.sum labels) memory name).run line =
        .error (.outOfRange .blockSource n) r) ∧
      (0 ≤ n ∧ n ≤ 0xFF → ¬(0 ≤ m ∧ m ≤ 0xFF) →
        ∃ r, (standard.encode site (Expr.sum labels) memory name).run line =
          .error (.outOfRange .blockDestination m) r) ∧
      ∀ (comma : Token) (rest : Line), comma.isSymbol ',' = true →
        ∃ v, (evaluate site (Expr.sum labels)).run (a.series.tokens ++ ([comma] ++ rest)) =
          .ok v ([comma] ++ rest) ∧ n = (a.sized none v).value := by
  obtain ⟨c, hc⟩ : ∃ c, standard.opcode? e.mnemonic .blockMove = some c := by
    rw [← he]
    exact exists_opcode?_of_base hl (by simp [he])
  refine ⟨⟨?_, fun hnm ↦ ⟨_, exists_run_encode_of_holds memory hl he h hc hnm.1 hnm.2⟩⟩, ?_,
    exists_run_encode_of_source memory hl he h, exists_run_encode_of_destination memory hl he h, ?_⟩
  · intro hen
    obtain ⟨en, r, hen⟩ := hen
    exact holds_of_run_encode memory hl he h hen
  · intro en r hen
    obtain ⟨hn, hm⟩ := holds_of_run_encode memory hl he h hen
    obtain ⟨r', hr⟩ := exists_run_encode_of_holds memory hl he h hc hn hm
    rw [hen] at hr
    cases hr
    exact ⟨hc, rfl, exists_bytes_of_holds hn hm⟩
  · intro comma rest hcomma
    obtain ⟨v, hv, hn⟩ := h.source.exists_of_series
    have hends : ends (next ([comma] ++ rest)).1 = true := ends_eq_true.2 (.inr (.inr hcomma))
    exact ⟨v, run_evaluate_of_counts hv hends, hn⟩

def laterBank : Bank where
  mark := some (⟨.symbol, "<", 4⟩, '<', fun v ↦ ⟨v % 0x100, some .byte⟩)
  series := .more (.term ⟨[], ⟨.identifier, "later", 5⟩, by simp, .inr rfl⟩)
    ⟨⟨[], ⟨.number, "1", 13⟩, by simp, .inl rfl⟩, ⟨.symbol, "+", 11⟩, .inl (by decide)⟩
  isMark m hm := by
    cases hm
    exact ⟨List.mem_cons_self, by decide⟩

def lastBank : Bank where
  mark := none
  series := .term ⟨[], ⟨.number, "$7F", 17⟩, by simp, .inl rfl⟩
  isMark m hm := by cases hm

def moveLater : Line := ⟨laterBank.tokens ++ ⟨.symbol, ",", 15⟩ :: lastBank.tokens, 20⟩

/-- The first pass goes on behind a source bank that has no value. -/
theorem encode_blockMove_moveLater :
    ∃ en r, (standard.encode (.ofAddress .first 0x8000) (Expr.sum fun _ ↦ none) (fun _ ↦ 0)
      "mvn").run moveLater = .ok en r ∧
        ∃ lo hi : UInt8, en.bytes = [en.opcode, lo, hi] ∧ (lo.toNat : Int) = 0 ∧
          (hi.toNat : Int) = 0x7F := by
  have h : IsMove (.ofAddress .first 0x8000) (fun _ ↦ none) moveLater laterBank lastBank 0 0x7F :=
    ⟨⟨none, moveLater, ⟨.symbol, ",", 15⟩, .bare (by decide), by decide, by decide⟩,
      .inr ⟨rfl, rfl, rfl⟩, .inl ⟨0x7F, by decide, rfl⟩⟩
  have hl : standard.lookup? "mvn" = some ⟨"mvn", .mvn, .blockMove, none⟩ := by decide +kernel
  obtain ⟨hiff, hbytes, -⟩ := encode_blockMove (fun _ ↦ 0) hl rfl h
  obtain ⟨en, r, hen⟩ := hiff.2 (by decide)
  exact ⟨en, r, hen, (hbytes en r hen).2.2⟩

end

end InstructionSet

end Asm65816
