import Mathlib.Data.List.DropRight
import WireCut.Proofs.Program.Numeral
import WireCut.Proofs.Text.Pattern

/-! Numbers as patterns. What a parameter is read from is the match of one of two patterns, and the scanner stops where the
match of the pattern of a decimal number ends. -/
namespace WireCut
open Text Pattern

namespace Literal

def signPattern : Pattern :=
  optional (one fun c => c = '+' || c = '-')

def digitsPattern : Pattern :=
  oneOrMore isDecimalDigit

/-- Digits with an optional point and optional digits behind it, or else a point and digits. -/
def mantissaPattern : Pattern :=
  either (both digitsPattern (both (optional (one (· = '.'))) (many isDecimalDigit))) (both (one (· = '.')) digitsPattern)

def exponentPattern : Pattern :=
  optional (both (one fun c => c = 'e' || c = 'E') (both signPattern digitsPattern))

def numberPattern : Pattern :=
  both signPattern (both mantissaPattern exponentPattern)

def infinityPattern : Pattern :=
  both signPattern (word infinityWord)

private theorem dropWhile_isDecimalDigit (cs : List Char) : cs.dropWhile isDecimalDigit = (digitRun digitValue? cs).2 := by
  induction cs with
  | nil => rfl
  | cons c cs ih =>
    rw [List.dropWhile_cons, digitRun, isDecimalDigit]
    cases digitValue? c with
    | none => rfl
    | some d => exact ih

private theorem after?_digits (cs : List Char) :
    digitsPattern.after? cs =
      if (digitRun digitValue? cs).1.isEmpty then none else some (digitRun digitValue? cs).2 := by
  rw [digitsPattern, after?_oneOrMore]
  cases cs with
  | nil => rfl
  | cons c cs =>
    rw [after?_one, digitRun, isDecimalDigit]
    cases digitValue? c with
    | none => rfl
    | some d => exact congrArg some (dropWhile_isDecimalDigit cs)

/-- A sign is passed over by what cannot begin with one. -/
private theorem after?_signed {q : Pattern} (h : ∀ c rest, c = '+' ∨ c = '-' → q.after? (c :: rest) = none) (cs : List Char) :
    (both signPattern q).after? cs = q.after? (sign cs).2 := by
  rw [signPattern, after?_optional_both, after?_one_both]
  unfold sign
  split
  · rw [after?_one, h _ _ (.inr rfl), Option.or_none]
    rfl
  · rw [after?_one, h _ _ (.inl rfl), Option.or_none]
    rfl
  · rename_i hminus hplus
    cases cs with
    | nil => rfl
    | cons c cs =>
      have hc : ¬ (decide (c = '+') || decide (c = '-')) = true := by
        rw [Bool.or_eq_true, decide_eq_true_eq, decide_eq_true_eq]
        rintro (rfl | rfl)
        · exact hplus cs rfl
        · exact hminus cs rfl
      rw [after?_one, if_neg hc]
      rfl

private theorem after?_digits_of_sign (c : Char) (rest : List Char) (h : c = '+' ∨ c = '-') :
    digitsPattern.after? (c :: rest) = none := by
  rw [after?_digits, digitRun]
  obtain rfl | rfl := h
  · rw [apart_digitValue?.plus]
    rfl
  · rw [apart_digitValue?.minus]
    rfl

private theorem after?_exponent (cs : List Char) :
    exponentPattern.after? cs = some ((exponentPart? digitValue? cs).getD (0, cs)).2 := by
  rw [exponentPattern, after?_optional, after?_one_both]
  cases cs with
  | nil => rfl
  | cons c cs =>
    rw [after?_one, exponentPart?]
    split_ifs with hmark
    · rw [Option.bind_some, after?_signed after?_digits_of_sign, after?_digits]
      cases hrun : digitRun digitValue? (sign cs).2 with
      | mk ds rest => cases ds <;> simp [hrun]
    · rfl

private theorem after?_point (cs : List Char) :
    (both (optional (one (· = '.'))) (many isDecimalDigit)).after? cs =
      some (digitRun digitValue? (if cs.head? = some '.' then cs.tail else cs)).2 := by
  rw [after?_both (fun rest => by rw [after?_many]; exact Option.some_ne_none _), after?_optional, Option.bind_some, after?_many,
    dropWhile_isDecimalDigit]
  cases cs with
  | nil => rfl
  | cons c cs =>
    rw [after?_one]
    by_cases hc : c = '.' <;> simp [hc]

private theorem after?_mantissa (cs : List Char) :
    mantissaPattern.after? cs = (mantissaPart digitValue? cs).map (·.2.2) := by
  have hpoint (rest : List Char) := after?_point rest
  rw [mantissaPattern, after?_either, after?_both (fun rest => by rw [hpoint]; exact Option.some_ne_none _), after?_digits,
    mantissaPart]
  have hagain : (digitRun digitValue? (digitRun digitValue? cs).2).2 = (digitRun digitValue? cs).2 := by
    rw [← dropWhile_isDecimalDigit, ← dropWhile_isDecimalDigit]
    exact List.dropWhile_idempotent _ _
  obtain ⟨ds, hds, hdigits⟩ := digitRun_parts digitValue? cs
  cases hrun : digitRun digitValue? cs with
  | mk whole rest =>
    rw [hrun] at hagain hds hdigits
    cases whole with
    | nil =>
      obtain rfl := hdigits.eq_nil_iff.mpr rfl
      obtain rfl : cs = rest := hds
      rw [after?_one_both]
      cases cs with
      | nil => rfl
      | cons c cs =>
        rw [after?_one]
        by_cases hc : c = '.'
        · subst hc
          simp only [decide_true, if_true, Option.bind_some, after?_digits, List.isEmpty_nil, Option.bind_none, Option.none_or,
            Bool.true_and]
          split_ifs <;> rfl
        · simp [hc]
    | cons d whole =>
      rw [if_neg (by simp), Option.bind_some, hpoint]
      cases rest with
      | nil => rfl
      | cons c rest =>
        by_cases hc : c = '.'
        · subst hc
          rfl
        · simp [hc, hagain]

/-- Neither a sign nor what may follow it is a match of a mantissa. -/
private theorem after?_mantissa_of_sign (c : Char) (rest : List Char) (h : c = '+' ∨ c = '-') :
    mantissaPattern.after? (c :: rest) = none := by
  rw [after?_mantissa, mantissaPart, digitRun_stop]
  · obtain rfl | rfl := h <;> rfl
  · rintro d ⟨⟩
    obtain rfl | rfl := h
    · exact apart_digitValue?.plus
    · exact apart_digitValue?.minus

/-- The scanner stops where the match of the pattern ends. -/
theorem scan?_eq_after? (cs : List Char) : (scan? digitValue? cs).map Prod.snd = numberPattern.after? cs := by
  have hexponent (rest : List Char) : exponentPattern.after? rest ≠ none := by
    rw [after?_exponent]
    exact Option.some_ne_none _
  have hnumber (c : Char) (rest : List Char) (h : c = '+' ∨ c = '-') :
      (both mantissaPattern exponentPattern).after? (c :: rest) = none := by
    rw [after?_both hexponent, after?_mantissa_of_sign c rest h]
    rfl
  rw [numberPattern, after?_signed hnumber, after?_both hexponent, after?_mantissa, scan?]
  dsimp only
  cases mantissaPart digitValue? (sign cs).2 with
  | none => rfl
  | some mantissa => exact (after?_exponent mantissa.2.2).symm

private theorem after?_infinity (cs : List Char) :
    infinityPattern.after? cs =
      if infinityWord.isPrefixOf (sign cs).2 then some ((sign cs).2.drop infinityWord.length) else none := by
  have hword (c : Char) (rest : List Char) (h : c = '+' ∨ c = '-') : (word infinityWord).after? (c :: rest) = none := by
    rw [after?_word]
    obtain rfl | rfl := h <;> rfl
  rw [infinityPattern, after?_signed hword, after?_word]

private theorem sign_eq_minus (cs : List Char) : (sign cs).1 = decide (cs.head? = some '-') := by
  unfold sign
  split
  · rfl
  · rfl
  · rename_i hminus _
    cases cs with
    | nil => rfl
    | cons c cs =>
      have hc : c ≠ '-' := by
        rintro rfl
        exact hminus cs rfl
      simp [hc]

end Literal

open Literal

/-- A parameter is read from the match of the pattern of a number, which spells it, or else from that of the pattern of
infinity. -/
theorem readNumber_eq_patterns (cs : List Char) :
    let text := trimLeft cs
    (∀ rest, numberPattern.after? text = some rest →
      ∃ p l, text = p ++ rest ∧ Spelled p l ∧ readNumber cs = l.toFloat) ∧
    (numberPattern.after? text = none → readNumber cs =
      if infinityPattern.after? text = none then notANumber
      else if text.head? = some '-' then -infinity else infinity) := by
  intro text
  rw [← scan?_eq_after?, readNumber]
  cases hscan : scan? digitValue? text with
  | none =>
    refine ⟨nofun, fun _ => ?_⟩
    rw [after?_infinity]
    simp only [sign_eq_minus, decide_eq_true_eq]
    by_cases hword : infinityWord.isPrefixOf (sign text).2 = true
    · rw [if_pos hword, if_pos hword, if_neg (Option.some_ne_none _)]
    · rw [if_neg hword, if_neg hword, if_pos rfl]
  | some read =>
    obtain ⟨p, hp, hsplit⟩ := Longest.of_scan? hscan
    refine ⟨fun rest hrest => ?_, nofun⟩
    obtain rfl := Option.some.inj hrest
    exact ⟨p, read.1, hsplit, hp.spelled, rfl⟩

end WireCut
