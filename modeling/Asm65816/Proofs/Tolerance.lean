import Asm65816.InstructionSet.Standard
import Asm65816.Proofs.Assembly.Visit
import Asm65816.Proofs.Operand.Accepted
import Asm65816.Proofs.Operand.Refusal

namespace Asm65816

namespace Operand

open TokenSource Grammar

def Sized.Foresees (z z' : Sized) : Prop := z.width = z'.width ∧ (z.value = z'.value ∨ z.value = 0)

section

variable {site site' : Site} {memory memory' : UInt32 → UInt8} {base : Mode} {z z' : Sized}
variable {o' : Operand} {f : Form}

theorem holds_of_foresees {d : Domain} (hz : z.Foresees z') (h : d.Holds z'.value) :
    d.Holds z.value := by
  rcases hz.2 with hv | hv
  · rw [hv]
    exact h
  · rw [hv]
    cases d <;> decide

theorem inReach_of_foresees (hz : z.Foresees z') (h : z'.InReach) : z.InReach := by
  refine ⟨holds_of_foresees hz h.1, ?_⟩
  intro w hw
  rw [hz.1] at hw
  exact holds_of_foresees hz (h.2 w hw)

theorem isImmediate_of_foresees (hz : z.Foresees z') (h : z'.IsImmediate base) :
    z.IsImmediate base := by
  unfold Sized.IsImmediate at h ⊢
  rw [hz.1]
  split
  · next hb =>
    rw [if_pos hb] at h
    exact holds_of_foresees hz h
  · next hb =>
    rw [if_neg hb] at h
    cases hw : z'.width with
    | none =>
      rw [hw] at h
      exact holds_of_foresees hz h
    | some w =>
      rw [hw] at h
      cases w with
      | byte | word => exact holds_of_foresees hz h
      | long => exact h

theorem admits_of_foresees (hf : ∀ b, f ≠ .target b) (hz : z.Foresees z')
    (h : f.Admits site' base z') : f.Admits site base z := by
  cases f with
  | target b => exact absurd rfl (hf b)
  | immediate => exact isImmediate_of_foresees hz h
  | plain | indexedX => exact inReach_of_foresees hz h
  | indexedY => exact ⟨inReach_of_foresees hz h.1, hz.1 ▸ h.2.1, holds_of_foresees hz h.2.2⟩
  | onStack => exact ⟨inReach_of_foresees hz h.1, holds_of_foresees hz h.2⟩
  | _ => exact holds_of_foresees hz h

theorem exists_settle_first (hp : site.pass = .first) (hp' : site'.pass = .final)
    (hz : z.Foresees z') (h : f.settle site' memory' base z' = .ok o') :
    ∃ o, f.settle site memory base z = .ok o := by
  by_cases hf : ∃ b, f = .target b
  · obtain ⟨b, rfl⟩ := hf
    rw [Form.settle, Branch.operand_first hp]
    exact ⟨_, rfl⟩
  · have hne (b : Branch) : f ≠ .target b := fun hb ↦ hf ⟨b, hb⟩
    have ha := (exists_settle_iff fun _ _ ↦ hp').1 ⟨o', h⟩
    exact (exists_settle_iff fun b hb ↦ absurd hb (hne b)).2 (admits_of_foresees hne hz ha)

end

section

variable {σ : Type} [TokenSource σ] [LawfulTokenSource σ] {site site' : Site}
variable {labels labels' : String → Option Int} {memory memory' : UInt32 → UInt8} {base : Mode}
variable {width : Option Width} {t : Token} {s r : σ} {z' : Sized} {o' : Operand}
variable (hle : ∀ l w, labels l = some w → labels' l = some w) (hp : site.pass = .first)
variable (hp' : site'.pass = .final)

include hle hp hp'

theorem exists_evaluate_first {l : Lead σ} {v' : Int} (hl : l.IsSteady)
    (h : (evaluate site' (Expr.sum labels')).run l.start = .ok v' r)
    (he : ends (next r).1 = true) :
    ∃ v, (evaluate site (Expr.sum labels)).run l.start = .ok v r ∧
      (l.take v).Foresees (l.take v') := by
  have hwidth (v : Int) : (l.take v).width = (l.take v').width := (hl.1 v).trans (hl.1 v').symm
  rcases run_evaluate_first_of_final hle hp hp' h he with ⟨-, hv⟩ | ⟨-, hv⟩
  · exact ⟨v', hv, rfl, .inl rfl⟩
  · exact ⟨0, hv, hwidth 0, .inr hl.2⟩

theorem exists_value_first {x : Opening}
    (h : (x.value site' (Expr.sum labels') width t).run s = .ok z' r)
    (he : ends (next r).1 = true) :
    ∃ z, (x.value site (Expr.sum labels) width t).run s = .ok z r ∧ z.Foresees z' := by
  obtain ⟨l, v', hl, hv', rfl⟩ := run_value_eq_ok.1 h
  obtain ⟨v, hv, hz⟩ := exists_evaluate_first hle hp hp' (Opening.isSteady_of_lead? hl) hv' he
  exact ⟨l.take v, run_value_eq_ok.2 ⟨l, v, hl, hv, rfl⟩, hz⟩

theorem exists_address_first
    (h : (address site' (Expr.sum labels') width t).run s = .ok z' r)
    (he : ends (next r).1 = true) :
    ∃ z, (address site (Expr.sum labels) width t).run s = .ok z r ∧ z.Foresees z' :=
  exists_value_first (x := .bare) hle hp hp' h he

/-- Both addresses of a block move may lack their labels, each on its own. -/
theorem exists_blockMove_first
    (h : (blockMove site' (Expr.sum labels') width t).run s = .ok o' r)
    (hr : (next r).1.isStop = true) :
    ∃ o, (blockMove site (Expr.sum labels) width t).run s = .ok o r := by
  obtain ⟨source', q, destination', hs', hc, hn, hd', hl, hh, -⟩ := run_blockMove_eq_ok.1 h
  have hcomma : ends (next q).1 = true := ends_eq_true.2 (.inr (.inr hc))
  have hstop : ends (next r).1 = true := ends_eq_true.2 (.inl hr)
  obtain ⟨source, hs, hsource⟩ := exists_address_first hle hp hp' hs' hcomma
  obtain ⟨destination, hd, hdestination⟩ := exists_address_first hle hp hp' hd' hstop
  rw [← hsource.1] at hd
  exact ⟨_, run_blockMove_eq_ok.2 ⟨source, q, destination, hs, hc, hn, hd,
    holds_of_foresees hsource hl, holds_of_foresees hdestination hh, rfl⟩⟩

theorem exists_body_first
    (h : (body site' (Expr.sum labels') memory' base width t).run s = .ok o' r)
    (hr : (next r).1.isStop = true) :
    ∃ o, (body site (Expr.sum labels) memory base width t).run s = .ok o r := by
  cases hx : Opening.ofToken? base t with
  | none =>
    obtain rfl := Opening.eq_blockMove_of_ofToken? hx
    exact exists_blockMove_first hle hp hp' h hr
  | some x =>
    obtain ⟨z', q, f, hz', hf, ho'⟩ := (run_body_eq_ok hx).1 h
    obtain ⟨z, hz, hforesees⟩ :=
      exists_value_first hle hp hp' hz' (Opening.ends_of_closing hf hr)
    obtain ⟨o, ho⟩ := exists_settle_first hp hp' hforesees ho'
    exact ⟨o, (run_body_eq_ok hx).2 ⟨z, q, f, hz, hf, ho⟩⟩

theorem exists_parse_first
    (h : (parse site' (Expr.sum labels') memory' base width).run s = .ok o' r) :
    ∃ o, (parse site (Expr.sum labels) memory base width).run s = .ok o r := by
  obtain ⟨w, t, q, hs, ⟨ht, -, hr⟩ | ⟨ht, p, hb, he⟩⟩ := run_parse_eq_ok.1 h
  · exact ⟨_, run_parse_eq_ok.2 ⟨w, t, q, hs, .inl ⟨ht, rfl, hr⟩⟩⟩
  · have hstop : (next p).1.isStop = true := (run_endOfLine_eq_ok.1 he).1
    obtain ⟨o, ho⟩ := exists_body_first hle hp hp' hb hstop
    exact ⟨o, run_parse_eq_ok.2 ⟨w, t, q, hs, .inr ⟨ht, p, ho, he⟩⟩⟩

end

end Operand

namespace InstructionSet

open Operand TokenSource Grammar

variable {set : InstructionSet} {site : Site}

/-- On the first pass an instruction that does not exist is given room all the same. -/
theorem join_first_eq_ok {e : Entry} {o : Operand} :
    set.join .first e o = .ok (o.encoding e.mnemonic
      ((set.select? e.mnemonic (o.requested e.mnemonic)).getD
        (placeholder, o.requested e.mnemonic))) := by
  rw [join_eq, choose_first]
  rfl

theorem fault_of_encode_first {σ : Type} [TokenSource σ] {eval : Expr.Evaluator σ}
    {memory : UInt32 → UInt8} {name : String} {s r : σ} {f : Fault} (hp : site.pass = .first)
    (h : (set.encode site eval memory name).run s = .error f r) :
    f = .unknownMnemonic name ∨ f.OfOperand .first := by
  rcases run_encode_eq_error.1 h with h | ⟨e, o, -, hj⟩
  · rcases run_operand_eq_error.1 h with ⟨-, hf, -⟩ | ⟨e, -, h⟩
    · exact .inl hf
    · exact .inr (hp ▸ Refuses.parse s f r h)
  · rw [hp, join_first_eq_ok] at hj
    cases hj

theorem encode_first_of_final {σ : Type} [TokenSource σ] [LawfulTokenSource σ] {site' : Site}
    {labels labels' : String → Option Int} {memory' : UInt32 → UInt8} {name : String} {s r : σ}
    {en' : Encoding} (hp : site.pass = .first) (hp' : site'.pass = .final)
    (hle : ∀ l w, labels l = some w → labels' l = some w) (memory : UInt32 → UInt8)
    (h : (set.encode site' (Expr.sum labels') memory' name).run s = .ok en' r) :
    ∃ en, (set.encode site (Expr.sum labels) memory name).run s = .ok en r := by
  obtain ⟨e, o', ho', -⟩ := run_encode_eq_ok.1 h
  obtain ⟨hl, hparse⟩ := run_operand_eq_ok.1 ho'
  obtain ⟨o, ho⟩ : ∃ o, (parse site (Expr.sum labels) memory e.base e.width).run s = .ok o r :=
    exists_parse_first hle hp hp' hparse
  obtain ⟨en, hen⟩ : ∃ en, set.join site.pass e o = .ok en := ⟨_, by rw [hp, join_first_eq_ok]⟩
  exact ⟨en, run_encode_of_parse hl ho hen⟩

/-- The first pass rejects no line that the final pass accepts, though labels are missing that the
final pass has. It fails neither for a mode that an instruction does not have nor for an expression
without a value, whatever evaluates the expression. -/
theorem exists_encode_first (set : InstructionSet) (site : Site) (hp : site.pass = .first) :
    (∀ (σ : Type) [TokenSource σ] [LawfulTokenSource σ] (site' : Site)
        (labels labels' : String → Option Int) (memory memory' : UInt32 → UInt8) (name : String)
        (s r : σ) (en' : Encoding), site'.pass = .final →
      (∀ l w, labels l = some w → labels' l = some w) →
      (set.encode site' (Expr.sum labels') memory' name).run s = .ok en' r →
      ∃ en, (set.encode site (Expr.sum labels) memory name).run s = .ok en r) ∧
    ∀ (σ : Type) [TokenSource σ] (eval : Expr.Evaluator σ) (memory : UInt32 → UInt8)
        (name : String) (s r : σ) (f : Fault),
      (set.encode site eval memory name).run s = .error f r →
      (∀ n m, f ≠ .unsupportedMode n m) ∧ ∀ g, f ≠ .expression g := by
  refine ⟨?_, ?_⟩
  · intro σ _ _ site' labels labels' memory memory' name s r en' hp' hle h
    exact encode_first_of_final hp hp' hle memory h
  · intro σ _ eval memory name s r f h
    rcases fault_of_encode_first hp h with rfl | hf
    · simp
    · constructor
      · intro n m hn
        rw [hn] at hf
        exact hf
      · intro g hg
        rw [hg] at hf
        cases hf

/-- `mvn later,bank+1`, when neither label has been met. -/
theorem exists_encode_first_blockMove :
    ∃ en r, (standard.encode (.ofAddress .first 0x8000) (Expr.sum fun _ ↦ none) (fun _ ↦ 0)
      "mvn").run (⟨[⟨.identifier, "later", 5⟩, ⟨.symbol, ",", 10⟩, ⟨.identifier, "bank", 11⟩,
        ⟨.symbol, "+", 15⟩, ⟨.number, "1", 16⟩], 17⟩ : Line) = .ok en r := by
  have hrun : Assembly.Visit.result? ((standard.encode (.ofAddress .final 0x9000)
      (Expr.sum fun _ ↦ some 0x7E) (fun _ ↦ 0xFF) "mvn").run (⟨[⟨.identifier, "later", 5⟩,
        ⟨.symbol, ",", 10⟩, ⟨.identifier, "bank", 11⟩, ⟨.symbol, "+", 15⟩,
        ⟨.number, "1", 16⟩], 17⟩ : Line)) = some ⟨0x54, 0x7F7E, 3⟩ := by
    decide +kernel
  obtain ⟨r, h⟩ := Assembly.Visit.result?_eq_some_iff.1 hrun
  have hle : ∀ (l : String) (w : Int), none = some w → some (0x7E : Int) = some w := by simp
  obtain ⟨en, hen⟩ := (exists_encode_first standard (.ofAddress .first 0x8000) rfl).1 Line
    (.ofAddress .final 0x9000) _ _ (fun _ ↦ 0) _ _ _ _ _ rfl hle h
  exact ⟨en, r, hen⟩

end InstructionSet

end Asm65816
