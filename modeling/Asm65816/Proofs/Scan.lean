import Asm65816.Proofs.Encode
import Asm65816.Proofs.InstructionSet
import Asm65816.Proofs.Occurrence
import Asm65816.Proofs.Operand.Refusal

namespace Asm65816

namespace InstructionSet

open Operand TokenSource Grammar

inductive Classed (instructions : List Instruction) (m : Mnemonic) : Mode → Prop
  | first {i : Instruction} : IsFirst (·.mnemonic = m) instructions i →
    Classed instructions m i.base
  | none : (∀ i ∈ instructions, i.mnemonic ≠ m) → Classed instructions m .implied

/-- What a name stands for: its last alias, or else its last instruction. -/
inductive Names (instructions : List Instruction) (aliases : List Alias) (name : String) :
    Entry → Prop
  | ofAlias {a : Alias} {base : Mode} : IsLast (·.name = name) aliases a →
    Classed instructions a.mnemonic base →
    Names instructions aliases name ⟨a.name, a.mnemonic, base, some a.width⟩
  | ofInstruction {i : Instruction} : (∀ a ∈ aliases, a.name ≠ name) →
    IsLast (·.name = name) instructions i →
    Names instructions aliases name ⟨i.name, i.mnemonic, i.base, none⟩

def Unnamed (instructions : List Instruction) (aliases : List Alias) (name : String) : Prop :=
  (∀ i ∈ instructions, i.name ≠ name) ∧ ∀ a ∈ aliases, a.name ≠ name

/-- The index and the mode of the row for an instruction: the first one in just that mode, or else
the first one in the mode that is wider by one step. -/
inductive Finds (rows : List (Mnemonic × Mode)) (m : Mnemonic) (mode : Mode) : Nat → Mode → Prop
  | exact {i : Nat} : FirstAt rows (m, mode) i → Finds rows m mode i mode
  | wider {i : Nat} {wider : Mode} : (m, mode) ∉ rows → mode.wider? = some wider →
    FirstAt rows (m, wider) i → Finds rows m mode i wider

def Lacks (rows : List (Mnemonic × Mode)) (m : Mnemonic) (mode : Mode) : Prop :=
  (m, mode) ∉ rows ∧ ∀ wider, mode.wider? = some wider → (m, wider) ∉ rows

inductive Scan {σ : Type} [TokenSource σ] (instructions : List Instruction) (aliases : List Alias)
    (rows : List (Mnemonic × Mode)) (site : Site) (eval : Expr.Evaluator σ)
    (memory : UInt32 → UInt8) (name : String) (s : σ) : EStateM.Result Fault σ Encoding → Prop
  | unknown : Unnamed instructions aliases (Text.fold name) →
    Scan instructions aliases rows site eval memory name s (.error (.unknownMnemonic name) s)
  | unread {e : Entry} {f : Fault} {r : σ} : Names instructions aliases (Text.fold name) e →
    (parse site eval memory e.base e.width).run s = .error f r →
    Scan instructions aliases rows site eval memory name s (.error f r)
  | found {e : Entry} {o : Operand} {r : σ} {i : Nat} {mode : Mode} :
    Names instructions aliases (Text.fold name) e →
    (parse site eval memory e.base e.width).run s = .ok o r →
    Finds rows e.mnemonic (o.requested e.mnemonic) i mode →
    Scan instructions aliases rows site eval memory name s
      (.ok (o.encoding e.mnemonic (UInt8.ofNat i, mode)) r)
  | reserved {e : Entry} {o : Operand} {r : σ} : site.pass = .first →
    Names instructions aliases (Text.fold name) e →
    (parse site eval memory e.base e.width).run s = .ok o r →
    Lacks rows e.mnemonic (o.requested e.mnemonic) →
    Scan instructions aliases rows site eval memory name s
      (.ok (o.encoding e.mnemonic (0xFF, o.requested e.mnemonic)) r)
  | missing {e : Entry} {o : Operand} {r : σ} : site.pass = .final →
    Names instructions aliases (Text.fold name) e →
    (parse site eval memory e.base e.width).run s = .ok o r →
    Lacks rows e.mnemonic (o.requested e.mnemonic) →
    Scan instructions aliases rows site eval memory name s
      (.error (.unsupportedMode e.name (o.requested e.mnemonic)) r)

section

variable {instructions : List Instruction} {aliases : List Alias}
variable {rows : List (Mnemonic × Mode)} {name : String} {e : Entry} {m : Mnemonic}
variable {mode : Mode} {row : UInt8 × Mode}

theorem classed_iff {a : Alias} {base : Mode} :
    Classed instructions a.mnemonic base ↔ base = (a.entry instructions).base := by
  have hfirst {i : Instruction} (hi : IsFirst (·.mnemonic = a.mnemonic) instructions i) :
      (a.entry instructions).base = i.base := by
    unfold Alias.entry
    rw [find?_eq_some_iff_isFirst.2 hi]
    rfl
  have hnone (hn : ∀ i ∈ instructions, i.mnemonic ≠ a.mnemonic) :
      (a.entry instructions).base = .implied := by
    unfold Alias.entry
    rw [List.find?_eq_none.2 fun i hi ↦ by simpa using hn i hi]
    rfl
  constructor
  · intro h
    cases h with
    | first hi => rw [hfirst hi]
    | none hn => rw [hnone hn]
  · intro h
    rw [h]
    cases hf : instructions.find? (·.mnemonic = a.mnemonic) with
    | some i =>
      have hi := find?_eq_some_iff_isFirst.1 hf
      rw [hfirst hi]
      exact .first hi
    | none =>
      have hn : ∀ i ∈ instructions, i.mnemonic ≠ a.mnemonic := by
        intro i hi
        simpa using List.find?_eq_none.1 hf i hi
      rw [hnone hn]
      exact .none hn

theorem lookup?_eq_or :
    (ofLists instructions aliases rows).lookup? name =
      ((aliases.reverse.find? (·.name = Text.fold name)).map (·.entry instructions)).or
        ((instructions.reverse.find? (·.name = Text.fold name)).map Instruction.entry) := by
  unfold lookup? ofLists
  rw [List.find?_append, ← List.map_reverse, ← List.map_reverse, List.find?_map, List.find?_map]
  rfl

def insert (table : String → Option Entry) (e : Entry) : String → Option Entry :=
  fun name ↦ if e.name = name then some e else table name

theorem foldl_insert (es : List Entry) (table : String → Option Entry) :
    es.foldl insert table name = (es.reverse.find? (·.name = name)).or (table name) := by
  induction es generalizing table with
  | nil => rfl
  | cons e es ih =>
    rw [List.foldl_cons, ih, List.reverse_cons, List.find?_append, Option.or_assoc]
    congr 1
    by_cases he : e.name = name <;> simp [insert, he]

theorem lookup?_eq_foldl :
    (ofLists instructions aliases rows).lookup? name =
      (aliases.map (·.entry instructions)).foldl insert
        ((instructions.map Instruction.entry).foldl insert fun _ ↦ none) (Text.fold name) := by
  rw [foldl_insert, foldl_insert, Option.or_none, lookup?, ofLists, List.find?_append]

def insertNew (table : Mnemonic × Mode → Option UInt8) (row : (Mnemonic × Mode) × Nat) :
    Mnemonic × Mode → Option UInt8 :=
  fun key ↦ (table key).or (if row.1 = key then some (UInt8.ofNat row.2) else none)

theorem foldl_insertNew (key : Mnemonic × Mode) (k : Nat)
    (table : Mnemonic × Mode → Option UInt8) :
    (rows.zipIdx k).foldl insertNew table key =
      (table key).or ((rows.idxOf? key).map fun i ↦ UInt8.ofNat (i + k)) := by
  induction rows generalizing k table with
  | nil => simp
  | cons row rows ih =>
    rw [List.zipIdx_cons, List.foldl_cons, ih, insertNew, Option.or_assoc, List.idxOf?_cons]
    congr 1
    by_cases hrow : row = key
    · simp [hrow]
    · have hnext (i : Nat) : UInt8.ofNat (i + (k + 1)) = UInt8.ofNat (i + 1 + k) :=
        congrArg UInt8.ofNat (by omega)
      simp only [hrow, if_false, Option.none_or, beq_iff_eq, Option.map_map, Function.comp_def,
        hnext]

theorem opcode?_eq_foldl :
    (ofLists instructions aliases rows).opcode? m mode =
      rows.zipIdx.foldl insertNew (fun _ ↦ none) (m, mode) := by
  rw [foldl_insertNew]
  rfl

theorem lookup?_eq_none_iff :
    (ofLists instructions aliases rows).lookup? name = none ↔
      Unnamed instructions aliases (Text.fold name) := by
  rw [lookup?_eq_or]
  simp only [Option.or_eq_none_iff, Option.map_eq_none_iff, List.find?_eq_none, List.mem_reverse,
    decide_eq_true_eq]
  exact and_comm

theorem lookup?_eq_some_iff :
    (ofLists instructions aliases rows).lookup? name = some e ↔
      Names instructions aliases (Text.fold name) e := by
  rw [lookup?_eq_or]
  constructor
  · intro h
    cases ha : aliases.reverse.find? (·.name = Text.fold name) with
    | some a =>
      rw [ha] at h
      cases h
      exact .ofAlias (isFirst_reverse.1 (find?_eq_some_iff_isFirst.1 ha)) (classed_iff.2 rfl)
    | none =>
      rw [ha] at h
      obtain ⟨i, hi, rfl⟩ := Option.map_eq_some_iff.1 h
      refine .ofInstruction (fun a hmem ↦ ?_)
        (isFirst_reverse.1 (find?_eq_some_iff_isFirst.1 hi))
      simpa using List.find?_eq_none.1 ha a (List.mem_reverse.2 hmem)
  · intro h
    cases h with
    | ofAlias ha hc =>
      rw [find?_eq_some_iff_isFirst.2 (isFirst_reverse.2 ha), classed_iff.1 hc]
      rfl
    | ofInstruction hn hi =>
      rw [find?_eq_some_iff_isFirst.2 (isFirst_reverse.2 hi), List.find?_eq_none.2 fun a ha ↦ by
        simpa using hn a (List.mem_reverse.1 ha)]
      rfl

theorem opcode?_eq_some_iff {set : InstructionSet} {opcode : UInt8} :
    set.opcode? m mode = some opcode ↔
      ∃ i, FirstAt set.rows (m, mode) i ∧ opcode = UInt8.ofNat i := by
  simp only [opcode?, Option.map_eq_some_iff, idxOf?_eq_some_iff_firstAt, eq_comm (a := opcode)]

theorem select?_eq_some_iff {set : InstructionSet} :
    set.select? m mode = some row ↔
      ∃ i, Finds set.rows m mode i row.2 ∧ row.1 = UInt8.ofNat i := by
  simp only [select?_eq_some, opcode?_eq_none_iff, opcode?_eq_some_iff]
  constructor
  · intro h
    obtain ⟨⟨i, hi, hopcode⟩, hmode⟩ | ⟨hn, hw, i, hi, hopcode⟩ := h
    · rw [hmode]
      exact ⟨i, .exact hi, hopcode⟩
    · exact ⟨i, .wider hn hw hi, hopcode⟩
  · intro h
    obtain ⟨i, hfinds, hopcode⟩ := h
    generalize hm : row.2 = mode' at hfinds
    cases hfinds with
    | exact hi => exact .inl ⟨⟨i, hi, hopcode⟩, rfl⟩
    | wider hn hw hi => exact .inr ⟨hn, hw, i, hi, hopcode⟩

theorem select?_eq_none_iff {set : InstructionSet} :
    set.select? m mode = none ↔ Lacks set.rows m mode := by
  simp only [select?, Option.or_eq_none_iff, Option.map_eq_none_iff, Option.bind_eq_none_iff,
    opcode?_eq_none_iff, Lacks]

end

section

variable {σ : Type} [TokenSource σ] {instructions : List Instruction} {aliases : List Alias}
variable {rows : List (Mnemonic × Mode)} {site : Site} {eval : Expr.Evaluator σ}
variable {memory : UInt32 → UInt8} {name : String} {s r : σ} {e : Entry} {o : Operand}
variable {en : Encoding} {f : Fault} {x : EStateM.Result Fault σ Encoding}

theorem scan_of_join_ok (hn : Names instructions aliases (Text.fold name) e)
    (ho : (parse site eval memory e.base e.width).run s = .ok o r)
    (hj : (ofLists instructions aliases rows).join site.pass e o = .ok en) :
    Scan instructions aliases rows site eval memory name s (.ok en r) := by
  obtain ⟨⟨opcode, mode⟩, hc, rfl⟩ := join_eq_ok.1 hj
  rcases choose_eq_ok.1 hc with hs | ⟨hs, hp, hrow⟩
  · obtain ⟨i, hi, rfl⟩ := select?_eq_some_iff.1 hs
    exact .found hn ho hi
  · cases hrow
    exact .reserved hp hn ho (select?_eq_none_iff.1 hs)

theorem scan_of_join_error (hn : Names instructions aliases (Text.fold name) e)
    (ho : (parse site eval memory e.base e.width).run s = .ok o r)
    (hj : (ofLists instructions aliases rows).join site.pass e o = .error f) :
    Scan instructions aliases rows site eval memory name s (.error f r) := by
  obtain ⟨hs, hp, rfl⟩ := choose_eq_error.1 (join_eq_error.1 hj)
  exact .missing hp hn ho (select?_eq_none_iff.1 hs)

/-- Encoding gives what the scan gives. -/
theorem scan_run_encode : Scan instructions aliases rows site eval memory name s
    (((ofLists instructions aliases rows).encode site eval memory name).run s) := by
  cases hx : ((ofLists instructions aliases rows).encode site eval memory name).run s with
  | ok en r =>
    obtain ⟨e, o, ho, hj⟩ := run_encode_eq_ok.1 hx
    obtain ⟨hl, hparse⟩ := run_operand_eq_ok.1 ho
    exact scan_of_join_ok (lookup?_eq_some_iff.1 hl) hparse hj
  | error f r =>
    rcases run_encode_eq_error.1 hx with ho | ⟨e, o, ho, hj⟩
    · rcases run_operand_eq_error.1 ho with ⟨hl, rfl, rfl⟩ | ⟨e, hl, hparse⟩
      · exact .unknown (lookup?_eq_none_iff.1 hl)
      · exact .unread (lookup?_eq_some_iff.1 hl) hparse
    · obtain ⟨hl, hparse⟩ := run_operand_eq_ok.1 ho
      exact scan_of_join_error (lookup?_eq_some_iff.1 hl) hparse hj

theorem run_encode_of_scan (h : Scan instructions aliases rows site eval memory name s x) :
    ((ofLists instructions aliases rows).encode site eval memory name).run s = x := by
  have hoperand {e : Entry} {o : Operand} {r : σ}
      (hn : Names instructions aliases (Text.fold name) e)
      (ho : (parse site eval memory e.base e.width).run s = .ok o r) :
      ((ofLists instructions aliases rows).operand site eval memory name).run s =
        .ok (e, o) r :=
    run_operand_eq_ok.2 ⟨lookup?_eq_some_iff.2 hn, ho⟩
  cases h with
  | unknown hn =>
    have hl : (ofLists instructions aliases rows).lookup? name = none := lookup?_eq_none_iff.2 hn
    exact run_encode_of_unknown hl
  | unread hn hf =>
    have hl : (ofLists instructions aliases rows).lookup? name = some _ :=
      lookup?_eq_some_iff.2 hn
    exact run_encode_of_parse_error hl hf
  | found hn ho hi =>
    refine run_encode_eq_ok.2 ⟨_, _, hoperand hn ho, join_eq_ok.2 ⟨_, ?_, rfl⟩⟩
    exact choose_eq_ok.2 (.inl (select?_eq_some_iff.2 ⟨_, hi, rfl⟩))
  | reserved hp hn ho hlacks =>
    refine run_encode_eq_ok.2 ⟨_, _, hoperand hn ho, join_eq_ok.2 ⟨_, ?_, rfl⟩⟩
    exact choose_eq_ok.2 (.inr ⟨select?_eq_none_iff.2 hlacks, hp, rfl⟩)
  | missing hp hn ho hlacks =>
    refine run_encode_eq_error.2 (.inr ⟨_, _, hoperand hn ho, join_eq_error.2 ?_⟩)
    exact choose_eq_error.2 ⟨select?_eq_none_iff.2 hlacks, hp, rfl⟩

theorem unnamed_of_unknown {n : String}
    (h : Scan instructions aliases rows site eval memory name s (.error (.unknownMnemonic n) r)) :
    n = name ∧ Unnamed instructions aliases (Text.fold name) := by
  cases h with
  | unknown hn => exact ⟨rfl, hn⟩
  | unread hn hf => exact (Refuses.parse s _ r hf).elim

/-- A name is unknown just when no instruction and no alias has it, and the encoder gives just what
going through the lists gives. -/
theorem encode_iff_scan (instructions : List Instruction) (aliases : List Alias)
    (rows : List (Mnemonic × Mode)) (site : Site) (eval : Expr.Evaluator σ)
    (memory : UInt32 → UInt8) (name : String) (s : σ) :
    (∀ n, (∃ r, ((ofLists instructions aliases rows).encode site eval memory name).run s =
        .error (.unknownMnemonic n) r) ↔
      n = name ∧ Unnamed instructions aliases (Text.fold name)) ∧
    ∀ x, ((ofLists instructions aliases rows).encode site eval memory name).run s = x ↔
      Scan instructions aliases rows site eval memory name s x := by
  have hscan (x : EStateM.Result Fault σ Encoding) :
      ((ofLists instructions aliases rows).encode site eval memory name).run s = x ↔
        Scan instructions aliases rows site eval memory name s x := by
    constructor
    · intro h
      rw [← h]
      exact scan_run_encode
    · exact run_encode_of_scan
  refine ⟨fun n ↦ ?_, hscan⟩
  constructor
  · intro h
    obtain ⟨r, hr⟩ := h
    exact unnamed_of_unknown ((hscan _).1 hr)
  · intro h
    obtain ⟨rfl, hn⟩ := h
    exact ⟨s, (hscan _).2 (.unknown hn)⟩

end

end InstructionSet

end Asm65816
