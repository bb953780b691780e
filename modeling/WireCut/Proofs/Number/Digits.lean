import Mathlib.Data.List.Induction
import Mathlib.Tactic.Ring
import WireCut.Json.Printer
import WireCut.Json.Reader

/-! Decimal digits. The digits that are written for a number are read as that number. -/
namespace WireCut

namespace Literal

def digitValue (c : Char) : Nat := c.toNat - 0x30

theorem ofDigits_append (ds es : List Nat) : ofDigits (ds ++ es) = 10 ^ es.length * ofDigits ds + ofDigits es := by
  have hfold (es : List Nat) (n : Nat) :
      es.foldl (fun n d => 10 * n + d) n = 10 ^ es.length * n + es.foldl (fun n d => 10 * n + d) 0 := by
    induction es generalizing n with
    | nil => simp
    | cons d es ih =>
      rw [List.foldl_cons, ih, List.foldl_cons, ih (10 * 0 + d), List.length_cons]
      ring
  rw [ofDigits, List.foldl_append, hfold]
  rfl

theorem ofDigits_lt {ds : List Nat} (h : ∀ d ∈ ds, d < 10) : ofDigits ds < 10 ^ ds.length := by
  induction ds using List.reverseRecOn with
  | nil => exact Nat.one_pos
  | append_singleton ds d ih =>
    have hd : d < 10 := h d (List.mem_append_right ds List.mem_cons_self)
    have hds := ih fun e he => h e (List.mem_append_left [d] he)
    have hone : ofDigits [d] = d := by simp [ofDigits]
    rw [ofDigits_append, hone, List.length_append, List.length_singleton, Nat.pow_succ]
    omega

theorem digit?_of_isDigit {c : Char} (h : c.isDigit = true) : Json.digit? c = some (digitValue c) := by
  rw [Json.digit?, if_pos h]
  rfl

private theorem digitValue_lt {c : Char} (h : c.isDigit = true) : digitValue c < 10 := by
  have hrange : 0x30 ≤ c.toNat ∧ c.toNat ≤ 0x39 := Char.isDigit_iff_toNat.mp h
  rw [digitValue]
  omega

/-- The digits that are read are decimal. -/
theorem digitRun_lt {cs rest : List Char} {ds : List Nat} (h : digitRun Json.digit? cs = (ds, rest)) :
    ∀ d ∈ ds, d < 10 := by
  induction cs generalizing ds with
  | nil =>
    cases h
    exact List.forall_mem_nil _
  | cons c cs ih =>
    by_cases hc : c.isDigit = true
    · rw [digitRun, digit?_of_isDigit hc] at h
      cases h
      exact List.forall_mem_cons.mpr ⟨digitValue_lt hc, ih rfl⟩
    · rw [digitRun, Json.digit?, if_neg hc] at h
      cases h
      exact List.forall_mem_nil _

/-- A run of digits is read up to the next character that is none. -/
theorem digitRun_append {cs rest : List Char} (h : ∀ c ∈ cs, c.isDigit = true)
    (hrest : ∀ c ∈ rest.head?, c.isDigit = false) : digitRun Json.digit? (cs ++ rest) = (cs.map digitValue, rest) := by
  induction cs with
  | nil =>
    cases rest with
    | nil => rfl
    | cons c rest =>
      rw [List.nil_append, digitRun, Json.digit?, hrest c rfl]
      rfl
  | cons c cs ih =>
    rw [List.cons_append, digitRun, digit?_of_isDigit (h c List.mem_cons_self),
      ih fun d hd => h d (List.mem_cons_of_mem c hd)]
    rfl

private theorem ofDigits_map_digitValue (cs : List Char) : ofDigits (cs.map digitValue) = Nat.ofDigitChars 10 cs 0 := by
  rw [ofDigits, List.foldl_map]
  rfl

end Literal

namespace Decimal
open Literal

private theorem toList_digitText (n : Nat) : (digitText n).toList = Nat.toDigits 10 n :=
  String.toList_ofList

theorem isDigit_of_mem_digitText {n : Nat} {c : Char} (h : c ∈ (digitText n).toList) : c.isDigit = true :=
  Nat.isDigit_of_mem_toDigits (by decide) (by decide) (toList_digitText n ▸ h)

theorem ofDigits_digitText (n : Nat) : ofDigits ((digitText n).toList.map digitValue) = n := by
  rw [ofDigits_map_digitValue, toList_digitText, Nat.ofDigitChars_toDigits (by decide) (by decide)]

theorem length_digitText_le_iff {n k : Nat} (hk : 0 < k) : (digitText n).toList.length ≤ k ↔ n < 10 ^ k := by
  rw [toList_digitText, Nat.length_toDigits_le_iff (by decide) hk]

/-- Only zero is written with a zero in front. -/
private theorem digitText_eq_zero_cons {n : Nat} {cs : List Char} (h : (digitText n).toList = '0' :: cs) : n = 0 ∧ cs = [] := by
  have hvalue := ofDigits_digitText n
  have hlt : ofDigits (cs.map digitValue) < 10 ^ cs.length := by
    rw [← List.length_map digitValue]
    refine ofDigits_lt (List.forall_mem_map.mpr fun c hc => digitValue_lt ?_)
    exact isDigit_of_mem_digitText (h ▸ List.mem_cons_of_mem '0' hc)
  have hskip : ofDigits (('0' :: cs).map digitValue) = ofDigits (cs.map digitValue) := rfl
  rw [h, hskip] at hvalue
  rw [hvalue] at hlt
  cases cs with
  | nil => exact ⟨hvalue.symm, rfl⟩
  | cons c cs =>
    have hle := (length_digitText_le_iff (Nat.succ_pos cs.length)).mpr hlt
    rw [h, List.length_cons, List.length_cons] at hle
    omega

theorem head_digitText {n : Nat} (h : (digitText n).toList.head? = some '0') : (digitText n).toList = ['0'] := by
  obtain ⟨cs, hcs⟩ := List.head?_eq_some_iff.mp h
  rw [hcs, (digitText_eq_zero_cons hcs).2]

theorem head_digitText_ne {n : Nat} (hn : 0 < n) : (digitText n).toList.head? ≠ some '0' := by
  intro h
  obtain ⟨cs, hcs⟩ := List.head?_eq_some_iff.mp h
  exact hn.ne' (digitText_eq_zero_cons hcs).1

theorem digitText_ne_nil (n : Nat) : (digitText n).toList ≠ [] := by
  rw [toList_digitText]
  exact Nat.toDigits_ne_nil

end Decimal

namespace Json
open Literal Decimal

/-- The whole part of a number is read up to the next character that is no digit. -/
theorem wholePart?_append {cs rest : List Char} (hdigits : ∀ c ∈ cs, c.isDigit = true) (hne : cs ≠ [])
    (hzero : cs.head? = some '0' → cs = ['0']) (hrest : ∀ c ∈ rest.head?, c.isDigit = false) :
    wholePart? (cs ++ rest) = some (cs.map digitValue, rest) := by
  obtain ⟨c, cs, rfl⟩ := List.exists_cons_of_ne_nil hne
  by_cases hc : c = '0'
  · subst hc
    rw [hzero rfl]
    rfl
  · have hrun := digitRun_append hdigits hrest
    rw [List.cons_append] at hrun ⊢
    unfold wholePart?
    split
    · rename_i heq
      exact absurd (List.cons.inj heq).1 hc
    · rw [hrun]
      rfl

end Json

end WireCut
