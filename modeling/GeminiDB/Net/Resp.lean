import GeminiDB.Util.Strings

/-!
# Requests and responses (`resp.cpp`, `proc.h`)
-/

namespace GeminiDB

abbrev Request := List Bytes

abbrev Response := List Bytes

namespace Response

open Decimal

/-- `reply_int`. -/
def replyInt (resp : Response) (status val : Int) : Response :=
  if status = -1 then resp ++ [ascii "error"] else resp ++ [ascii "ok", intBytes val]

/-- The array `buf` of `add`. -/
def addBufSize : ℕ := 20

/-- What `sprintf` writes into `buf`, its NUL included. -/
def addText (val : Int) : Bytes := intBytes val ++ [0]

/-- `add(int64_t)` and `add(uint64_t)`; `none` when `sprintf` writes beyond `buf`. -/
def add (resp : Response) (val : Int) : Option Response :=
  if (addText val).length ≤ addBufSize then some (resp ++ [intBytes val]) else none

/-- `reply_int` together with the writes of `add`. -/
def replyIntAdd (resp : Response) (status val : Int) : Option Response :=
  if status = -1 then some (resp ++ [ascii "error"]) else add (resp ++ [ascii "ok"]) val

/-- As long as the text fits, it is only the reply that matters. -/
theorem replyIntAdd_of_fits (resp : Response) (status : Int) {val : Int}
    (h : (addText val).length ≤ addBufSize) :
    resp.replyIntAdd status val = some (resp.replyInt status val) := by
  rw [replyIntAdd, replyInt, add, if_pos h]
  split <;> simp

/-- The texts that fit have at most 19 characters. -/
theorem addText_fits_iff (val : Int) :
    (addText val).length ≤ addBufSize ↔ -10 ^ 18 < val ∧ val < 10 ^ 19 := by
  have hlong (n : ℕ) (k : ℕ) (hk : 0 < k) : (digits n).length ≤ k ↔ n < 10 ^ k := by
    refine ⟨fun hle ↦ ?_, length_digits_le hk⟩
    by_contra hge
    have := lt_length_digits hk (not_lt.mp hge)
    omega
  rw [addText, addBufSize, intBytes]
  by_cases hneg : val < 0
  · have := hlong val.natAbs 18 (by decide)
    simp only [hneg, if_true, List.length_append, List.length_cons, List.length_nil]
    omega
  · have := hlong val.natAbs 19 (by decide)
    simp only [hneg, if_false, List.length_append, List.length_cons, List.length_nil]
    omega

/-- `reply_get` without an error message. -/
def replyGet (resp : Response) (status : Int) (val : Bytes) : Response :=
  if status = -1 then resp ++ [ascii "error"]
  else if status = 0 then resp ++ [ascii "not_found"]
  else resp ++ [ascii "ok", val]

end Response

end GeminiDB
