import Asm65816.InstructionSet.Standard
import Asm65816.Proofs.Assembly.Visit
import Asm65816.Proofs.Occurrence
import Asm65816.Session
import Mathlib.Logic.Function.Basic

namespace Asm65816

namespace Image

abbrev Store := UInt32 × UInt8

def stores (address : UInt32) : List UInt8 → List Store
  | [] => []
  | b :: bs => (address, b) :: stores (address + 1) bs

def overlay (memory : UInt32 → UInt8) (log : List Store) : UInt32 → UInt8 :=
  log.foldl (fun m s ↦ Function.update m s.1 s.2) memory

variable {memory : UInt32 → UInt8} {log : List Store} {x : UInt32}

theorem overlay_append (memory : UInt32 → UInt8) (xs ys : List Store) :
    overlay memory (xs ++ ys) = overlay (overlay memory xs) ys := List.foldl_append

theorem overlay_of_forall_ne (h : ∀ s ∈ log, s.1 ≠ x) : overlay memory log x = memory x := by
  induction log generalizing memory with
  | nil => rfl
  | cons s log ih =>
    obtain ⟨hs, hlog⟩ := List.forall_mem_cons.1 h
    exact (ih hlog).trans (Function.update_of_ne hs.symm _ _)

theorem overlay_of_isLast {s : Store} (h : IsLast (·.1 = x) log s) :
    overlay memory log x = s.2 := by
  obtain ⟨front, behind, rfl, rfl, hbehind⟩ := h
  rw [overlay_append]
  exact (overlay_of_forall_ne hbehind).trans (Function.update_self _ _ _)

theorem read_write_eq_overlay (image : Image) (address : UInt32) (bytes : List UInt8) :
    (image.write address bytes).read = overlay image.read (stores address bytes) := by
  induction bytes generalizing image address with
  | nil => rfl
  | cons b bs ih =>
    have hb : (Image.mk (image.cells.insert address b) image.cursor).read =
        Function.update image.read address b := by
      funext y
      by_cases hy : y = address
      · subst hy
        simp [read]
      · rw [Function.update_of_ne hy]
        simp [read, Std.TreeMap.getD_insert, Ne.symm hy]
    rw [write, ih, hb]
    rfl

theorem read_emit_eq_overlay (image : Image) (bytes : List UInt8) :
    (image.emit bytes).read = overlay image.read (stores image.cursor bytes) :=
  read_write_eq_overlay image image.cursor bytes

theorem ne_of_mem_stores {address : UInt32} {bytes : List UInt8}
    (h : ∀ i < bytes.length, x ≠ address + UInt32.ofNat i) :
    ∀ s ∈ stores address bytes, s.1 ≠ x := by
  induction bytes generalizing address with
  | nil => simp [stores]
  | cons b bs ih =>
    refine List.forall_mem_cons.2 ⟨fun hx ↦ h 0 (by simp) (by simpa using hx.symm), ih ?_⟩
    intro i hi hx
    refine h (i + 1) (Nat.succ_lt_succ hi) ?_
    rw [hx, UInt32.ofNat_add, UInt32.add_comm (UInt32.ofNat i), UInt32.add_assoc]
    rfl

end Image

namespace Session

open Image

variable (set : InstructionSet)

def site (s : Session) (address : Option UInt32) : Site :=
  ⟨s.pass, address.getD s.image.cursor, s.unit⟩

def encode (s : Session) (address : Option UInt32) (name : String) (line : Line) :
    EStateM.Result Fault Line Encoding :=
  (set.encode (s.site address) (Expr.sum s.label?) s.image.read name).run line

def after (s : Session) (cs : List Command) : Session := cs.foldl (fun s c ↦ (s.run set c).2) s

def stores (s : Session) : Command → List Store
  | .write address bytes => Image.stores address bytes
  | .emit bytes => Image.stores s.image.cursor bytes
  | .enter address name line =>
    match s.encode set address name line with
    | .ok e _ => Image.stores s.image.cursor e.bytes
    | .error .. => []
  | .pass _ | .unit _ | .define .. | .seek _ | .read .. => []

def log (s : Session) : List Command → List Store
  | [] => []
  | c :: cs => s.stores set c ++ (s.run set c).2.log cs

variable {set} {s : Session} {address : Option UInt32} {name : String} {line r : Line}

theorem run_enter_of_error {f : Fault} (h : s.encode set address name line = .error f r) :
    s.run set (.enter address name line) = (.refused f, s) := by
  unfold encode site at h
  simp only [run, Workspace.enter, h]

theorem run_enter_of_ok {e : Encoding} (h : s.encode set address name line = .ok e r) :
    s.run set (.enter address name line) =
      (.encoded e, { s with image := s.image.emit e.bytes }) := by
  unfold encode site at h
  simp only [run, Workspace.enter, h]

theorem length_of_encode {e : Encoding} (h : s.encode set address name line = .ok e r) :
    0 < e.length ∧ e.length ≤ 4 := by
  obtain ⟨_, _, -, hj⟩ := InstructionSet.run_encode_eq_ok.1 h
  exact InstructionSet.length_of_join hj

/-- A command changes the memory by what it stores and by nothing else. -/
theorem read_run (s : Session) (c : Command) :
    (s.run set c).2.image.read = overlay s.image.read (s.stores set c) := by
  cases c with
  | pass | unit | define | seek | read => rfl
  | write address bytes => exact read_write_eq_overlay s.image address bytes
  | emit bytes => exact read_emit_eq_overlay s.image bytes
  | enter address name line =>
    cases h : s.encode set address name line with
    | ok e r =>
      rw [run_enter_of_ok h, stores, h]
      exact read_emit_eq_overlay s.image e.bytes
    | error f r =>
      rw [run_enter_of_error h, stores, h]
      rfl

theorem read_after (s : Session) (cs : List Command) :
    (s.after set cs).image.read = overlay s.image.read (s.log set cs) := by
  induction cs generalizing s with
  | nil => rfl
  | cons c cs ih =>
    rw [log, overlay_append, ← read_run]
    exact ih _

/-- An instruction that is refused leaves the session as it was. One that is encoded goes to the
cursor, wherever it is taken to stand, and changes nothing but the cursor and these bytes. So an
address holds the byte that was stored there last, and zero when there was none. -/
theorem enter_and_read_after (set : InstructionSet) (s : Session) :
    (∀ address name line f r, s.encode set address name line = .error f r →
      s.run set (.enter address name line) = (.refused f, s)) ∧
    (∀ address name line e r, s.encode set address name line = .ok e r →
      ∃ t, s.run set (.enter address name line) = (.encoded e, t) ∧
        0 < e.length ∧ t.image.slice s.image.cursor e.length = e.bytes ∧
        t.image.cursor = s.image.cursor + UInt32.ofNat e.length ∧
        (∀ x, (∀ i < e.length, x ≠ s.image.cursor + UInt32.ofNat i) →
          t.image.read x = s.image.read x) ∧
        t.labels = s.labels ∧ t.pass = s.pass ∧ t.unit = s.unit) ∧
    ∀ cs x, (∀ b, IsLast (·.1 = x) (s.log set cs) (x, b) → (s.after set cs).image.read x = b) ∧
      ((∀ p ∈ s.log set cs, p.1 ≠ x) → (s.after set cs).image.read x = s.image.read x ∧
        ∀ cursor, s.image = .empty cursor → (s.after set cs).image.read x = 0) := by
  refine ⟨fun _ _ _ _ _ ↦ run_enter_of_error, fun address name line e r h ↦ ?_, fun cs x ↦ ?_⟩
  · obtain ⟨hpos, hle⟩ := length_of_encode h
    have hlength : e.bytes.length = e.length := Encoding.length_bytes (Nat.le_succ_of_le hle)
    have hsize : e.bytes.length ≤ UInt32.size := by
      rw [hlength, UInt32.size]
      omega
    refine ⟨_, run_enter_of_ok h, hpos, ?_, ?_, fun x hx ↦ ?_, rfl, rfl, rfl⟩
    · rw [← hlength]
      exact slice_emit s.image hsize
    · rw [← hlength]
      exact cursor_emit s.image e.bytes
    · rw [← hlength] at hx
      exact (congrFun (read_emit_eq_overlay s.image e.bytes) x).trans
        (overlay_of_forall_ne (ne_of_mem_stores hx))
  · rw [read_after]
    refine ⟨fun b hb ↦ overlay_of_isLast hb, fun hx ↦ ⟨overlay_of_forall_ne hx, ?_⟩⟩
    intro cursor hs
    rw [overlay_of_forall_ne hx, hs, read_empty]

/-- `lda $1234` in an empty image, taken to stand elsewhere than at the cursor, and `rep #$100`. -/
theorem enter_and_read_after_load :
    let s : Session := ⟨.empty 0x8000, .first, 1⟩
    let load : Line := ⟨[⟨.number, "$1234", 4⟩], 9⟩
    let reset : Line := ⟨[⟨.symbol, "#", 4⟩, ⟨.number, "$100", 5⟩], 9⟩
    (∃ t, s.run .standard (.enter (some 0x9000) "lda" load) = (.encoded ⟨0xAD, 0x1234, 3⟩, t) ∧
      t.image.slice 0x8000 3 = [0xAD, 0x34, 0x12] ∧ t.image.cursor = 0x8003) ∧
    s.run .standard (.enter none "rep" reset) = (.refused (.outOfRange .constant8 0x100), s) ∧
    (s.after .standard [.write 0x8000 [0xFF, 0xFF], .emit [0xEA]]).image.read 0x8000 = 0xEA ∧
    (s.after .standard [.write 0x8000 [0xFF, 0xFF], .emit [0xEA]]).image.read 0x8002 = 0 := by
  intro s load reset
  have hload : Assembly.Visit.result? (encode .standard ⟨.empty 0x8000, .first, 1⟩ (some 0x9000)
      "lda" ⟨[⟨.number, "$1234", 4⟩], 9⟩) = some ⟨0xAD, 0x1234, 3⟩ := by decide +kernel
  have hreset : Assembly.Visit.fault? (encode .standard ⟨.empty 0x8000, .first, 1⟩ none
      "rep" ⟨[⟨.symbol, "#", 4⟩, ⟨.number, "$100", 5⟩], 9⟩) =
        some (.outOfRange .constant8 0x100) := by decide +kernel
  obtain ⟨r, hr⟩ := Assembly.Visit.result?_eq_some_iff.1 hload
  obtain ⟨q, hq⟩ := Assembly.Visit.fault?_eq_some_iff.1 hreset
  obtain ⟨hrefused, hencoded, hread⟩ := enter_and_read_after .standard s
  obtain ⟨t, ht, -, hslice, hcursor, -⟩ := hencoded _ _ _ _ _ hr
  have hlog : s.log .standard [.write 0x8000 [0xFF, 0xFF], .emit [0xEA]] =
      [(0x8000, 0xFF), (0x8001, 0xFF), (0x8000, 0xEA)] := rfl
  refine ⟨⟨t, ht, hslice, hcursor⟩, hrefused _ _ _ _ _ hq, ?_, ?_⟩
  · exact (hread _ _).1 _ ⟨[(0x8000, 0xFF), (0x8001, 0xFF)], [], hlog, rfl, by simp⟩
  · exact ((hread _ _).2 (hlog ▸ by simp)).2 _ rfl

end Session

end Asm65816
