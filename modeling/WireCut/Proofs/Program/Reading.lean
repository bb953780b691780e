import WireCut.Proofs.Number.Closest
import WireCut.Proofs.Number.Digits
import WireCut.Proofs.Program.Numeral
import WireCut.Proofs.Text.Search

/-! The number that is read from a parameter: the value of the longest numeral in front, rounded once. -/
namespace WireCut

namespace Literal
open Text Binary64

def value (l : Literal) : ℚ :=
  (if l.negative then -1 else 1) *
    ((ofDigits l.whole + ofDigits l.fraction / 10 ^ l.fraction.length) * 10 ^ l.exponent)

/-- A float that is as close to the value of a literal as any, and has its sign. The value is rounded as if the exponent
had no bound, and what is then beyond all finite floats is infinite. -/
structure ReadAs (l : Literal) (v : Float) : Prop where
  nearest : Nearest l.value v
  closest : v.isFinite = true → ∀ w, |l.value - toRat v| ≤ |l.value - toRat w|
  number : v.isNaN = false
  sign : isNegative v = l.negative

private theorem readAs_toFloat (l : Literal) : ReadAs l l.toFloat := by
  have hvalue : l.value = (if l.negative then -1 else 1) *
      (ofDigits (l.whole ++ l.fraction) * 10 ^ (l.exponent - l.fraction.length)) := by
    rw [value, ofDigits_append, zpow_sub₀ (by norm_num), zpow_natCast]
    push_cast
    field_simp
  obtain ⟨hnear, hnumber, hsign⟩ :=
    scaled_nearest l.negative (ofDigits (l.whole ++ l.fraction)) (l.exponent - l.fraction.length)
  rw [← hvalue] at hnear
  exact ⟨hnear, hnear.closest, hnumber, hsign⟩

def NumeralFirst (text : List Char) : Prop :=
  ∃ p l, Spelled p l ∧ p <+: text

def InfinityFirst (text : List Char) (negative : Bool) : Prop :=
  ∃ σ, SignText σ negative ∧ σ ++ infinityWord <+: text

private theorem scan?_eq_none_iff {text : List Char} : scan? digitValue? text = none ↔ ¬NumeralFirst text := by
  constructor
  · rintro hnone ⟨p, l, hp, rest, rfl⟩
    obtain ⟨l', after, hread, -⟩ := hp.scan?_append rest
    rw [hnone] at hread
    cases hread
  · intro hfirst
    cases hread : scan? digitValue? text with
    | none => rfl
    | some read =>
      obtain ⟨p, hp, -⟩ := Longest.of_scan? hread
      exact absurd ⟨p, _, hp.spelled, hp.starts⟩ hfirst

/-- The word for infinity is found behind the sign. -/
private theorem infinityFirst_iff {text : List Char} {negative : Bool} :
    InfinityFirst text negative ↔ (sign text).1 = negative ∧ infinityWord.isPrefixOf (sign text).2 = true := by
  rw [List.isPrefixOf_iff_prefix]
  constructor
  · rintro ⟨σ, hσ, rest, rfl⟩
    rw [List.append_assoc, hσ.sign_append (by rintro c ⟨⟩; decide)]
    exact ⟨rfl, rest, rfl⟩
  · rintro ⟨rfl, rest, hrest⟩
    obtain ⟨σ, hσ, hsplit⟩ := sign_parts text
    exact ⟨σ, hσ, rest, by rw [List.append_assoc, hrest, ← hsplit]⟩

/-- No text begins with both. -/
private theorem InfinityFirst.not_numeralFirst {text : List Char} {negative : Bool} (h : InfinityFirst text negative) :
    ¬NumeralFirst text := by
  obtain ⟨σ, hσ, rest, rfl⟩ := h
  rw [← scan?_eq_none_iff, scan?, List.append_assoc, hσ.sign_append (by rintro c ⟨⟩; decide)]
  rfl

end Literal

open Literal Text

private theorem readNumber_longest {text p : List Char} {l : Literal} (h : Longest (trimLeft text) p l) :
    readNumber text = l.toFloat := by
  obtain ⟨rest, hrest⟩ := h.starts
  rw [readNumber, h.scan? rest hrest.symm]

private theorem readNumber_infinity {text : List Char} {negative : Bool} (h : InfinityFirst (trimLeft text) negative) :
    readNumber text = if negative then -infinity else infinity := by
  have hnone := scan?_eq_none_iff.mpr h.not_numeralFirst
  obtain ⟨rfl, hword⟩ := infinityFirst_iff.mp h
  rw [readNumber, hnone]
  dsimp only
  rw [if_pos hword]

private theorem readNumber_nothing {text : List Char} (hnumeral : ¬NumeralFirst (trimLeft text))
    (hinfinity : ¬∃ negative, InfinityFirst (trimLeft text) negative) : readNumber text = notANumber := by
  rw [readNumber, scan?_eq_none_iff.mpr hnumeral]
  dsimp only
  rw [if_neg fun hword => hinfinity ⟨_, infinityFirst_iff.mpr ⟨rfl, hword⟩⟩]

private theorem trimLeft_gap {gap text : List Char} (hgap : ∀ c ∈ gap, isBlank c = true) :
    trimLeft (gap ++ text) = trimLeft text :=
  List.dropWhile_append_of_pos hgap

private theorem Literal.Spelled.ne_nil {p : List Char} {l : Literal} (h : Spelled p l) : p ≠ [] := by
  obtain @⟨σ, m, x, negative, whole, fraction, e, signed, digits, scaled⟩ := h
  have hm : m ≠ [] := by cases digits <;> simp_all
  simp [hm]

/-- A numeral that was found behind blanks does not begin with one. -/
private theorem Literal.Longest.trimLeft_append {text p : List Char} {l : Literal} (h : Longest (trimLeft text) p l)
    (rest : List Char) : trimLeft (p ++ rest) = p ++ rest := by
  obtain ⟨after, hafter⟩ := h.starts
  obtain ⟨c, cs, rfl⟩ := List.exists_cons_of_ne_nil h.spelled.ne_nil
  have hhead : c ∈ (trimLeft text).head? := by
    rw [← hafter]
    rfl
  have hc := trimLeft_head hhead
  exact List.dropWhile_cons_of_neg (by simp [hc])

/-- Behind blanks the longest numeral is read, and rounded once. A text without one is infinite if it begins with the word
for it, and any other text is not a number. What follows the numeral without making it longer is not read. -/
theorem readNumber_spec (text : List Char) :
    (NumeralFirst (trimLeft text) → ∃ p l, Longest (trimLeft text) p l) ∧
      (∀ p l, Longest (trimLeft text) p l → ReadAs l (readNumber text)) ∧
      (∀ negative, InfinityFirst (trimLeft text) negative → ¬NumeralFirst (trimLeft text) ∧
        readNumber text = if negative then -infinity else infinity) ∧
      (¬NumeralFirst (trimLeft text) → (¬∃ negative, InfinityFirst (trimLeft text) negative) →
        readNumber text = notANumber) ∧
      ∀ p l gap rest, Longest (trimLeft text) p l → (∀ c ∈ gap, isBlank c = true) → Longest (p ++ rest) p l →
        readNumber (gap ++ (p ++ rest)) = readNumber text := by
  refine ⟨?_, ?_, ?_, readNumber_nothing, ?_⟩
  · rintro ⟨p, l, hp, hstarts⟩
    exact Longest.exists_of_prefix hp hstarts
  · intro p l h
    rw [readNumber_longest h]
    exact readAs_toFloat l
  · intro negative h
    exact ⟨h.not_numeralFirst, readNumber_infinity h⟩
  · intro p l gap rest h hgap hrest
    rw [readNumber_longest h]
    have hread : Longest (trimLeft (gap ++ (p ++ rest))) p l := by
      rwa [trimLeft_gap hgap, h.trimLeft_append]
    exact readNumber_longest hread

end WireCut
