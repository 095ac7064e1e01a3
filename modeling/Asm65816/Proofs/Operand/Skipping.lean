import Asm65816.Proofs.Operand.Deferral
import Mathlib.Data.List.Induction

namespace Asm65816.Operand

open TokenSource

/-- An operand ends in front of a stop, and in front of a comma or a closing bracket where as many
brackets have been closed as opened. -/
def EndsBehind (front : List Token) (t : Token) : Prop :=
  t.isStop = true ∨
    (closes t = true ∨ t.isSymbol ',' = true) ∧ front.countP opens = front.countP closes

def Passed (ts : List Token) : Prop := ∀ us t vs, ts = us ++ t :: vs → ¬EndsBehind us t

structure Cut (ts front behind : List Token) : Prop where
  eq_append : ts = front ++ behind
  passed : Passed front
  ends : ∀ t, behind.head? = some t → EndsBehind front t

section

variable {t : Token} {us front behind : List Token} {stop : UInt32}

theorem EndsBehind.ends (h : EndsBehind us t) : Operand.ends t = true := by
  rcases h with h | ⟨h | h, -⟩
  · exact ends_eq_true.2 (.inl h)
  · exact ends_eq_true.2 (.inr (.inl h))
  · exact ends_eq_true.2 (.inr (.inr h))

/-- A token that does not end the operand is passed over. Where it is a closing bracket, there is
one that it closes. -/
theorem skip_cons_of_not_endsBehind (h : ¬EndsBehind us t)
    (hle : us.countP closes ≤ us.countP opens) (ts : List Token) (stop : UInt32) :
    (us ++ [t]).countP closes ≤ (us ++ [t]).countP opens ∧
      skip (us.countP opens - us.countP closes) (⟨t :: ts, stop⟩ : Line) =
        skip ((us ++ [t]).countP opens - (us ++ [t]).countP closes) (⟨ts, stop⟩ : Line) := by
  obtain ⟨hstop, hbalance⟩ := not_or.1 h
  simp only [List.countP_append, List.countP_singleton]
  cases ho : opens t with
  | true =>
    have hc := not_closes_of_opens ho
    simp only [hc, if_true, Bool.false_eq_true, if_false]
    refine ⟨by omega, ?_⟩
    rw [skip_of_opens _ (s := (⟨t :: ts, stop⟩ : Line)) ho]
    congr 1
    omega
  | false =>
    cases hc : closes t with
    | true =>
      have hne : us.countP opens ≠ us.countP closes := fun he ↦ hbalance ⟨.inl hc, he⟩
      simp only [if_true, Bool.false_eq_true, if_false]
      refine ⟨by omega, ?_⟩
      obtain ⟨d, hd⟩ : ∃ d, us.countP opens - us.countP closes = d + 1 :=
        Nat.exists_eq_succ_of_ne_zero (by omega)
      rw [hd, skip_of_closes _ (s := (⟨t :: ts, stop⟩ : Line)) hc]
      congr 1
      omega
    | false =>
      simp only [Bool.false_eq_true, if_false, Nat.add_zero]
      have hs : t.isStop = false := Bool.eq_false_iff.2 hstop
      refine ⟨hle, skip_of_not_bracket _ (s := (⟨t :: ts, stop⟩ : Line)) hs ho hc ?_⟩
      intro hcomma hd
      exact hbalance ⟨.inr hcomma, by omega⟩

theorem passed_iff {ts : List Token} :
    Passed ts ↔ ∀ i : Fin ts.length, ¬EndsBehind (ts.take i) ts[i] := by
  constructor
  · intro h i
    refine h _ _ (ts.drop (i + 1)) ?_
    rw [Fin.getElem_fin, List.getElem_cons_drop, List.take_append_drop]
  · rintro h us u vs rfl
    have hu := h ⟨us.length, by simp⟩
    simpa using hu

instance : Decidable (EndsBehind us t) := inferInstanceAs (Decidable (_ ∨ _ ∧ _))

instance (ts : List Token) : Decidable (Passed ts) := decidable_of_iff' _ passed_iff

theorem passed_append_singleton : Passed (us ++ [t]) ↔ Passed us ∧ ¬EndsBehind us t := by
  constructor
  · intro h
    refine ⟨fun ws w vs hus ↦ h ws w (vs ++ [t]) ?_, h us t [] rfl⟩
    rw [hus, List.append_assoc, List.cons_append]
  · rintro ⟨hus, ht⟩ ws w vs h
    induction vs using List.reverseRecOn with
    | nil =>
      obtain ⟨rfl, hw⟩ := List.append_inj' h rfl
      cases hw
      exact ht
    | append_singleton vs v _ =>
      rw [← List.cons_append, ← List.append_assoc] at h
      exact hus ws w vs (List.append_inj_left' h rfl)

/-- As long as nothing ends the operand its tokens are passed over. As many brackets have been
opened as closed or more, and the depth is how many more. -/
theorem skip_append_of_passed (h : Passed front) (behind : List Token) (stop : UInt32) :
    front.countP closes ≤ front.countP opens ∧
      skip 0 (⟨front ++ behind, stop⟩ : Line) =
        skip (front.countP opens - front.countP closes) (⟨behind, stop⟩ : Line) := by
  induction front using List.reverseRecOn generalizing behind with
  | nil => exact ⟨Nat.le_refl 0, rfl⟩
  | append_singleton us t ih =>
    obtain ⟨hus, ht⟩ := passed_append_singleton.1 h
    obtain ⟨hle, hskip⟩ := ih hus (t :: behind)
    obtain ⟨hle', hstep⟩ := skip_cons_of_not_endsBehind ht hle behind stop
    refine ⟨hle', ?_⟩
    rw [List.append_assoc, List.singleton_append, hskip, hstep]

theorem exists_cut (ts : List Token) : ∃ front behind, Cut ts front behind := by
  induction ts using List.reverseRecOn with
  | nil => exact ⟨[], [], rfl, fun us t vs h ↦ by simp at h, fun _ h ↦ nomatch h⟩
  | append_singleton ts t ih =>
    obtain ⟨front, behind, rfl, hpassed, hends⟩ := ih
    cases behind with
    | cons u us =>
      exact ⟨front, u :: us ++ [t], List.append_assoc .., hpassed, fun v hv ↦ hends v hv⟩
    | nil =>
      rw [List.append_nil]
      by_cases ht : EndsBehind front t
      · refine ⟨front, [t], rfl, hpassed, fun v hv ↦ ?_⟩
        cases hv
        exact ht
      · exact ⟨front ++ [t], [], (List.append_nil _).symm, passed_append_singleton.2 ⟨hpassed, ht⟩,
          fun _ h ↦ nomatch h⟩

theorem EndsBehind.skip_cons (h : EndsBehind us t) (ts : List Token) :
    skip (us.countP opens - us.countP closes) (⟨t :: ts, stop⟩ : Line) = ⟨t :: ts, stop⟩ := by
  rcases h.imp_right And.right with hstop | hbalance
  · exact skip_of_isStop _ hstop
  · rw [hbalance, Nat.sub_self]
    exact skip_of_ends (s := (⟨t :: ts, stop⟩ : Line)) h.ends

theorem Cut.skip_eq {l : Line} (h : Cut l.tokens front behind) :
    skip 0 l = ⟨if behind = [] then [.stop l.stop] else behind, l.stop⟩ := by
  obtain ⟨ts, stop⟩ := l
  obtain ⟨rfl, hpassed, hends⟩ := h
  rw [(skip_append_of_passed hpassed behind stop).2]
  cases behind with
  | nil => exact skip_of_isStop (s := (⟨[], stop⟩ : Line)) _ rfl
  | cons t ts => exact (hends t rfl).skip_cons ts

theorem skip_skip (l : Line) : skip 0 (skip 0 l) = skip 0 l := by
  obtain ⟨front, behind, h⟩ := exists_cut l.tokens
  rw [h.skip_eq]
  cases behind with
  | nil => exact skip_of_isStop (s := (⟨[.stop l.stop], l.stop⟩ : Line)) 0 rfl
  | cons t ts => exact skip_of_ends (s := (⟨t :: ts, l.stop⟩ : Line)) (h.ends t rfl).ends

end

/-- The rest of an operand is passed over exactly: up to the first token that ends it, or else up
to the end of the line. In front of each token that is passed over no more brackets have been closed
than opened, and the depth is the number of those that are open. To pass over the rest once more
changes nothing. -/
theorem skip_exact (l : Line) :
    (∃ front behind, Cut l.tokens front behind) ∧
    (∀ front behind, Cut l.tokens front behind →
      skip 0 l = ⟨if behind = [] then [.stop l.stop] else behind, l.stop⟩ ∧
      ∀ us vs, front = us ++ vs →
        us.countP closes ≤ us.countP opens ∧
        skip 0 l = skip (us.countP opens - us.countP closes) (⟨vs ++ behind, l.stop⟩ : Line)) ∧
    skip 0 (skip 0 l) = skip 0 l := by
  refine ⟨exists_cut l.tokens, fun front behind h ↦ ⟨h.skip_eq, fun us vs hfront ↦ ?_⟩, skip_skip l⟩
  have hus : Passed us := fun ws t ws' hws ↦ h.passed ws t (ws' ++ vs) (by simp [hfront, hws])
  have hline : l = ⟨us ++ (vs ++ behind), l.stop⟩ := by
    rw [← List.append_assoc, ← hfront, ← h.eq_append]
  obtain ⟨hle, hskip⟩ := skip_append_of_passed hus (vs ++ behind) l.stop
  exact ⟨hle, (congrArg (skip 0) hline).trans hskip⟩

/-- `+ (3, 4]), x` with a stop in front of the index. -/
def nested : Line :=
  ⟨[⟨.symbol, "+", 0⟩, ⟨.symbol, "(", 2⟩, ⟨.number, "3", 3⟩, ⟨.symbol, ",", 4⟩,
    ⟨.number, "4", 6⟩, ⟨.symbol, "]", 7⟩, ⟨.symbol, ")", 8⟩, ⟨.symbol, ",", 9⟩, .stop 10,
    ⟨.identifier, "x", 11⟩], 12⟩

/-- A bracket of either kind closes the other one, and a comma between them ends nothing. -/
theorem skip_exact_nested :
    Cut nested.tokens (nested.tokens.take 6) (nested.tokens.drop 6) ∧
      skip 0 nested = ⟨nested.tokens.drop 6, 12⟩ := by
  have hends : ∀ t, (nested.tokens.drop 6).head? = some t →
      EndsBehind (nested.tokens.take 6) t := by
    intro t ht
    cases ht
    decide +kernel
  have hcut : Cut nested.tokens (nested.tokens.take 6) (nested.tokens.drop 6) :=
    ⟨rfl, by decide +kernel, hends⟩
  exact ⟨hcut, ((skip_exact nested).2.1 _ _ hcut).1⟩

end Asm65816.Operand
