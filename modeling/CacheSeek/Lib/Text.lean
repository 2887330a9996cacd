import CacheSeek.Lib.JsonText
import Mathlib.Data.List.Infix

namespace CacheSeek.Lib

/-- `s.rsplit(sep, 1)[-1]`. -/
def rsplitLast (sep : List Char) : List Char → List Char
  | [] => []
  | c :: s =>
    if sep <:+: s then rsplitLast sep s
    else if sep <+: c :: s then (c :: s).drop sep.length
    else c :: s

/-- `int(s)` of an optional sign and decimal digits. -/
def readInt (s : List Char) : Option Int :=
  let digits := if s.head? = some '-' ∨ s.head? = some '+' then s.tail else s
  if digits ≠ [] ∧ digits.all Char.isDigit then
    let n : Int := Nat.ofDigitChars 10 digits 0
    some (if s.head? = some '-' then -n else n)
  else none

theorem readInt_dumpInt (i : Int) : readInt (Json.dumpInt i) = some i := by
  have hdigits : ∀ n : Nat, Nat.toDigits 10 n ≠ [] ∧ (Nat.toDigits 10 n).all Char.isDigit = true := by
    intro n
    refine ⟨?_, List.all_eq_true.mpr fun c hc => Json.toDigits_digit hc⟩
    intro h
    have := Nat.length_toDigits_pos (b := 10) (n := n)
    rw [h] at this
    exact absurd this (Nat.lt_irrefl 0)
  unfold readInt
  cases i with
  | ofNat n =>
    have hplus : (Nat.toDigits 10 n).head? ≠ some '+' := by
      intro h
      have := Json.toDigits_digit (List.mem_of_mem_head? h)
      simp at this
    simp only [Json.dumpInt, Json.toDigits_head, hplus, or_false, if_false, if_pos (hdigits n),
      Nat.ofDigitChars_ten_toDigits]
    rfl
  | negSucc n =>
    simp only [Json.dumpInt, List.head?_cons, List.tail_cons, true_or, if_true, if_pos (hdigits (n + 1)),
      Nat.ofDigitChars_ten_toDigits]
    rfl

/-- A separator whose first character comes neither later in it nor in `t`. -/
theorem rsplitLast_append {c : Char} {sep : List Char} (hsep : c ∉ sep) (s : List Char) {t : List Char}
    (ht : c ∉ t) : rsplitLast (c :: sep) (s ++ (c :: sep ++ t)) = t := by
  induction s with
  | nil =>
    have hno : ¬ (c :: sep) <:+: sep ++ t := by
      intro h
      have hc : c ∈ sep ++ t := h.subset List.mem_cons_self
      rcases List.mem_append.mp hc with hc | hc
      · exact hsep hc
      · exact ht hc
    have hpre : (c :: sep) <+: c :: (sep ++ t) := ⟨t, rfl⟩
    simp only [List.nil_append, List.cons_append, rsplitLast, if_neg hno, if_pos hpre, List.length_cons,
      List.drop_succ_cons, List.drop_left]
  | cons d s ih =>
    have hin : (c :: sep) <:+: s ++ (c :: sep ++ t) := ⟨s, t, by simp⟩
    rw [List.cons_append, rsplitLast, if_pos hin, ih]

end CacheSeek.Lib
