import Asm65816.Line

namespace Asm65816

instance : HAppend (List Token) Line Line := ⟨fun ts l ↦ ⟨ts ++ l.tokens, l.stop⟩⟩

namespace Line

open TokenSource

variable {t : Token} {ts us vs : List Token} {l p q : Line}

@[simp] theorem nil_append (l : Line) : ([] : List Token) ++ l = l := rfl

@[simp] theorem next_cons_append (t : Token) (ts : List Token) (l : Line) :
    TokenSource.next (t :: ts ++ l) = (t, ts ++ l) := rfl

theorem append_append (ts us : List Token) (l : Line) : ts ++ us ++ l = ts ++ (us ++ l) :=
  congrArg (fun vs ↦ Line.mk vs l.stop) (List.append_assoc ts us l.tokens)

theorem cons_append_eq (h : t :: ts = us ++ vs) (l : Line) :
    [t] ++ (ts ++ l) = us ++ (vs ++ l) := by
  rw [← append_append, ← append_append]
  exact congrArg (fun ws ↦ (ws ++ l : Line)) h

theorem putBack_eq_append (t : Token) (l : Line) : TokenSource.putBack t l = [t] ++ l := rfl

theorem eq_next_append (h : (TokenSource.next l).1.isStop = false) :
    l = [(TokenSource.next l).1] ++ (TokenSource.next l).2 := by
  obtain ⟨_ | ⟨t, ts⟩, stop⟩ := l
  · cases h
  · rfl

theorem words_of_isStop (h : (TokenSource.next l).1.isStop = true) : l.words = [] := by
  obtain ⟨_ | ⟨t, ts⟩, stop⟩ := l
  · rfl
  · change t.isStop = true at h
    simp [words, h]

theorem not_isStop_of_mem_words (h : t ∈ l.words) : t.isStop = false := by
  simpa using List.all_eq_true.1 List.all_takeWhile t h

theorem words_append (h : ∀ t ∈ ts, t.isStop = false) : (ts ++ l).words = ts ++ l.words :=
  List.takeWhile_append_of_pos fun t ht ↦ by simp [h t ht]

theorem words_eq_tokens (h : ∀ t ∈ l.tokens, t.isStop = false) : l.words = l.tokens := by
  have hw : (l.tokens ++ []).takeWhile (!·.isStop) = l.tokens ++ [] :=
    List.takeWhile_append_of_pos fun t ht ↦ by simp [h t ht]
  rwa [List.append_nil] at hw

theorem words_of_next (h : (TokenSource.next l).1.isStop = false) :
    l.words = (TokenSource.next l).1 :: (TokenSource.next l).2.words := by
  rw [congrArg words (eq_next_append h)]
  exact words_append (by simpa using h)

theorem next_of_words_eq_cons (h : l.words = t :: ts) :
    (TokenSource.next l).1 = t ∧ (TokenSource.next l).2.words = ts := by
  cases hs : (TokenSource.next l).1.isStop with
  | true =>
    rw [words_of_isStop hs] at h
    cases h
  | false =>
    rw [words_of_next hs] at h
    exact List.cons.inj h

theorem words_putBack_next (l : Line) :
    (TokenSource.putBack (TokenSource.next l).1 (TokenSource.next l).2).words = l.words := by
  cases h : (TokenSource.next l).1.isStop with
  | true => rw [words_of_isStop h, words_of_isStop (by exact h)]
  | false => rw [putBack_eq_append, ← eq_next_append h]

theorem eq_words_append (l : Line) :
    ∃ q : Line, l = l.words ++ q ∧ (TokenSource.next q).1.isStop = true := by
  obtain ⟨tokens, stop⟩ := l
  refine ⟨⟨tokens.dropWhile (!·.isStop), stop⟩, ?_, ?_⟩
  · exact congrArg (fun vs ↦ Line.mk vs stop) List.takeWhile_append_dropWhile.symm
  · cases h : tokens.dropWhile (!·.isStop) with
    | nil => rfl
    | cons t ts =>
      have ht := List.head_dropWhile_not (fun t : Token ↦ !t.isStop) (l := tokens) (by simp [h])
      change t.isStop = true
      simpa [h] using ht

/-- To put back what comes next changes a line at most behind its stop. -/
theorem putBack_next_append (ts : List Token) (p : Line) :
    ∃ q : Line, TokenSource.putBack (TokenSource.next (ts ++ p)).1 (TokenSource.next (ts ++ p)).2 =
      ts ++ q ∧ TokenSource.next q = TokenSource.next p := by
  cases ts with
  | nil => exact ⟨TokenSource.putBack (TokenSource.next p).1 (TokenSource.next p).2, rfl, rfl⟩
  | cons t ts => exact ⟨p, rfl, rfl⟩

theorem firstStop_of_isStop (h : (TokenSource.next l).1.isStop = true) :
    l.firstStop = (TokenSource.next l).1 := by
  obtain ⟨_ | ⟨t, ts⟩, stop⟩ := l
  · rfl
  · change t.isStop = true at h
    simp [firstStop, TokenSource.next, h]

theorem firstStop_append (h : ∀ t ∈ ts, t.isStop = false) :
    (ts ++ l).firstStop = l.firstStop := by
  have hnone : ts.find? (·.isStop) = none := List.find?_eq_none.2 fun t ht ↦ by simp [h t ht]
  change ((ts ++ l.tokens).find? (·.isStop)).getD _ = _
  rw [List.find?_append, hnone]
  rfl

theorem eq_words_append_stop (h : ∀ t ∈ l.tokens, t.isStop = false) :
    l = l.words ++ (⟨[], l.stop⟩ : Line) ∧ l.firstStop = .stop l.stop := by
  have hl : l = l.tokens ++ (⟨[], l.stop⟩ : Line) :=
    congrArg (Line.mk · l.stop) (List.append_nil l.tokens).symm
  refine ⟨by rwa [words_eq_tokens h], ?_⟩
  rw [congrArg firstStop hl, firstStop_append h]
  rfl

theorem firstStop_of_next (h : (TokenSource.next l).1.isStop = false) :
    (TokenSource.next l).2.firstStop = l.firstStop := by
  rw [congrArg firstStop (eq_next_append h), firstStop_append (by simpa using h)]

end Line

end Asm65816
