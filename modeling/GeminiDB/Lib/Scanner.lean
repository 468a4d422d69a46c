import Mathlib.Data.List.Induction

/-!
# Incremental scanners

A scanner looks at the bytes received so far and finds an item at their start,
finds them malformed, or asks for more. When an item or a failure, once found,
is not affected by further bytes, what a stream is cut into does not depend on
how it arrives.
-/

namespace Scanner

variable {α β : Type*}

inductive Outcome (β : Type*) where
  | item (b : β) (consumed : ℕ)
  | fail
  | more
  deriving DecidableEq

structure Stable (scan : List α → Outcome β) : Prop where
  nil : scan [] = .more
  consumed : ∀ {s b n}, scan s = .item b n → 0 < n ∧ n ≤ s.length
  item : ∀ {s b n} (t), scan s = .item b n → scan (s ++ t) = .item b n
  fail : ∀ {s} (t), scan s = .fail → scan (s ++ t) = .fail

/-- Take at most `k` items off the front. The rest is `none` after a failure. -/
def drainUpTo (scan : List α → Outcome β) : ℕ → List α → List β × Option (List α)
  | 0, s => ([], some s)
  | k + 1, s =>
      match scan s with
      | .item b n =>
          let d := drainUpTo scan k (s.drop n)
          (b :: d.1, d.2)
      | .fail => ([], none)
      | .more => ([], some s)

/-- Take items off the front until the scanner fails or asks for more. -/
def drain (scan : List α → Outcome β) (s : List α) : List β × Option (List α) :=
  drainUpTo scan (s.length + 1) s

variable {scan : List α → Outcome β}

/-- As an item takes at least one byte, more attempts than bytes change nothing. -/
theorem Stable.drainUpTo_eq (h : Stable scan) {k : ℕ} {s : List α} (hk : s.length < k) :
    drainUpTo scan k s = drain scan s := by
  suffices ∀ j k (s : List α), s.length < j → s.length < k →
      drainUpTo scan j s = drainUpTo scan k s from this _ _ s hk (by omega)
  intro j
  induction j with
  | zero => exact fun k s hj ↦ absurd hj (by omega)
  | succ j ih =>
      intro k s hj hk
      obtain ⟨k, rfl⟩ : ∃ m, k = m + 1 := ⟨k - 1, by omega⟩
      simp only [drainUpTo]
      cases hscan : scan s with
      | item b n =>
          obtain ⟨hpos, hle⟩ := h.consumed hscan
          simp only [ih k (s.drop n) (by simp; omega) (by simp; omega)]
      | fail => rfl
      | more => rfl

theorem Stable.drain_item (h : Stable scan) {s : List α} {b : β} {n : ℕ}
    (hscan : scan s = .item b n) :
    drain scan s = (b :: (drain scan (s.drop n)).1, (drain scan (s.drop n)).2) := by
  obtain ⟨hpos, hle⟩ := h.consumed hscan
  rw [drain, drainUpTo, hscan]
  simp only [h.drainUpTo_eq (show (s.drop n).length < s.length by simp; omega)]

theorem drain_fail {s : List α} (hscan : scan s = .fail) : drain scan s = ([], none) := by
  rw [drain, drainUpTo, hscan]

theorem drain_more {s : List α} (hscan : scan s = .more) : drain scan s = ([], some s) := by
  rw [drain, drainUpTo, hscan]

/-- Taking items off a longer input continues where the shorter one ended. -/
theorem Stable.drain_append (h : Stable scan) (s t : List α) :
    drain scan (s ++ t) = match drain scan s with
      | (bs, none) => (bs, none)
      | (bs, some rest) => (bs ++ (drain scan (rest ++ t)).1, (drain scan (rest ++ t)).2) := by
  induction hlen : s.length using Nat.strongRecOn generalizing s with
  | _ len ih =>
      cases hscan : scan s with
      | fail => rw [drain_fail hscan, drain_fail (h.fail t hscan)]
      | more => simp [drain_more hscan]
      | item b n =>
          obtain ⟨hpos, hle⟩ := h.consumed hscan
          have hrest := ih (s.drop n).length (by simp; omega) (s.drop n) rfl
          rw [h.drain_item (h.item t hscan), h.drain_item hscan, List.drop_append_of_le_length hle,
            hrest]
          rcases drain scan (s.drop n) with ⟨bs, _ | rest⟩ <;> rfl

/-- The items `bs` were taken off `s`, of which `rest` is left. -/
def Taken (scan : List α → Outcome β) (s : List α) (bs : List β) (rest : List α) : Prop :=
  drain scan s = (bs ++ (drain scan rest).1, (drain scan rest).2)

theorem taken_nil (scan : List α → Outcome β) (s : List α) : Taken scan s [] s := rfl

theorem Taken.item (h : Stable scan) {s rest : List α} {bs : List β} (ht : Taken scan s bs rest)
    {b : β} {n : ℕ} (hscan : scan rest = .item b n) : Taken scan s (bs ++ [b]) (rest.drop n) := by
  rw [Taken, ht, h.drain_item hscan, List.append_assoc, List.singleton_append]

theorem Taken.append (h : Stable scan) {s rest : List α} {bs : List β} (ht : Taken scan s bs rest)
    (t : List α) : Taken scan (s ++ t) bs (rest ++ t) := by
  rw [Taken, h.drain_append, h.drain_append, ht]
  rcases drain scan rest with ⟨cs, _ | left⟩
  · rfl
  · simp only [List.append_assoc]

/-- What was delivered so far and what is left of the input, after one more chunk. -/
def feed (scan : List α → Outcome β) (st : List β × Option (List α)) (chunk : List α) :
    List β × Option (List α) :=
  match st with
  | (bs, none) => (bs, none)
  | (bs, some rest) => (bs ++ (drain scan (rest ++ chunk)).1, (drain scan (rest ++ chunk)).2)

/-- Chunks are delivered as the whole stream is. -/
theorem Stable.feed_chunks (h : Stable scan) (chunks : List (List α)) :
    chunks.foldl (feed scan) ([], some []) = drain scan chunks.flatten := by
  induction chunks using List.reverseRecOn with
  | nil => simp [drain_more h.nil]
  | append_singleton chunks chunk ih =>
      rw [List.foldl_append, ih, List.foldl_cons, List.foldl_nil, List.flatten_append,
        List.flatten_singleton, h.drain_append]
      rcases drain scan chunks.flatten with ⟨bs, _ | rest⟩ <;> rfl

end Scanner
