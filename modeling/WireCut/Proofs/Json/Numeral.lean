import WireCut.Proofs.Number.Digits
import WireCut.Proofs.Number.Shortest

/-! Printed numbers are read back. The text of a number, whatever ends it, is read as that number. -/
namespace WireCut

namespace Literal

private theorem ofDigits_zeros (k : ℕ) : ofDigits (List.replicate k 0) = 0 := by
  induction k with
  | zero => rfl
  | succ k ih => exact ih

/-- Zeros in front have no value. -/
private theorem ofDigits_zeros_append (k : ℕ) (ds : List ℕ) : ofDigits (List.replicate k 0 ++ ds) = ofDigits ds := by
  rw [ofDigits_append, ofDigits_zeros, mul_zero, zero_add]

end Literal

namespace Json
open Literal Decimal

def Ends (after : List Char) : Prop :=
  ∀ c ∈ after.head?, c = ',' ∨ c = '\n'

namespace Ends
variable {after : List Char}

private theorem isDigit (h : Ends after) : ∀ c ∈ after.head?, c.isDigit = false := by
  intro c hc
  obtain rfl | rfl := h c hc <;> rfl

private theorem fractionPart? (h : Ends after) : fractionPart? after = none := by
  unfold Json.fractionPart?
  split
  · obtain hc | hc := h _ rfl <;> cases hc
  · rfl

private theorem exponentPart? (h : Ends after) : exponentPart? digit? after = none := by
  cases after with
  | nil => rfl
  | cons c cs => obtain rfl | rfl := h c rfl <;> rfl

end Ends

def minus (negative : Bool) : List Char :=
  if negative then ['-'] else []

/-- The digits of a number show where its sign ends. -/
theorem sign_minus (negative : Bool) {cs after : List Char} {whole : List ℕ} (h : wholePart? cs = some (whole, after)) :
    (match minus negative ++ cs with
      | '-' :: rest => (true, rest)
      | _ => (false, minus negative ++ cs) : Bool × List Char) = (negative, cs) := by
  cases negative with
  | true => rfl
  | false =>
    rw [minus, if_neg Bool.false_ne_true, List.nil_append]
    split
    · cases h
    · rfl

private theorem signed_natAbs (n : ℤ) : Exact.signed (n < 0) n.natAbs = n := by
  rw [Exact.signed]
  split <;> simp_all only [decide_eq_true_eq] <;> omega

theorem toList_intText (n : ℤ) : (intText n).toList = minus (n < 0) ++ (digitText n.natAbs).toList := by
  rw [intText, String.toList_append, minus]
  split <;> simp_all

theorem readNumber_int {n : ℤ} (hshort : n.natAbs < 10 ^ maxIntegerDigits) {after : List Char} (hafter : Ends after) :
    readNumber (minus (n < 0) ++ (digitText n.natAbs).toList ++ after) = .ok (.int n, after) := by
  have hwhole := wholePart?_append (fun c hc => isDigit_of_mem_digitText hc) (digitText_ne_nil n.natAbs) head_digitText
    hafter.isDigit
  have hlength : ¬ maxIntegerDigits < ((digitText n.natAbs).toList.map digitValue).length := by
    rw [List.length_map, not_lt, length_digitText_le_iff (by decide)]
    exact hshort
  rw [List.append_assoc]
  unfold readNumber
  split
  rename_i sign signless heq
  obtain ⟨rfl, rfl⟩ := Prod.mk.inj ((sign_minus _ hwhole).symm.trans heq)
  simp only [hwhole, hafter.fractionPart?, hafter.exponentPart?, if_neg hlength, ofDigits_digitText, signed_natAbs]

structure Numeral where
  whole : List Char
  fraction : List Char
  exponent : Option (Bool × List Char)

namespace Numeral

structure Valid (n : Numeral) : Prop where
  whole_digits : ∀ c ∈ n.whole, c.isDigit = true
  whole_ne_nil : n.whole ≠ []
  whole_zero : n.whole.head? = some '0' → n.whole = ['0']
  fraction_digits : ∀ c ∈ n.fraction, c.isDigit = true
  exponent_digits : ∀ s ∈ n.exponent, s.2 ≠ [] ∧ ∀ c ∈ s.2, c.isDigit = true
  float : n.fraction ≠ [] ∨ n.exponent ≠ none

def fractionText (n : Numeral) : List Char :=
  if n.fraction = [] then [] else '.' :: n.fraction

def exponentText (n : Numeral) : List Char :=
  match n.exponent with
  | none => []
  | some (negative, ds) => 'e' :: (if negative then '-' else '+') :: ds

def text (n : Numeral) : List Char :=
  n.whole ++ n.fractionText ++ n.exponentText

def significand (n : Numeral) : ℕ :=
  ofDigits (n.whole.map digitValue ++ n.fraction.map digitValue)

def scale (n : Numeral) : ℤ :=
  match n.exponent with
  | none => 0
  | some (negative, ds) => Exact.signed negative (ofDigits (ds.map digitValue))

variable {n : Numeral} {after : List Char}

def value (n : Numeral) : ℚ :=
  n.significand * 10 ^ (n.scale - n.fraction.length)

/-- What stands behind the fraction is no digit. -/
private theorem isDigit_exponentText (n : Numeral) (hafter : Ends after) :
    ∀ c ∈ (n.exponentText ++ after).head?, c.isDigit = false := by
  rw [exponentText]
  split
  · exact hafter.isDigit
  · rintro c ⟨⟩
    rfl

/-- What stands behind the whole part is no digit. -/
private theorem isDigit_fractionText (n : Numeral) (hafter : Ends after) :
    ∀ c ∈ (n.fractionText ++ (n.exponentText ++ after)).head?, c.isDigit = false := by
  rw [fractionText]
  split
  · exact n.isDigit_exponentText hafter
  · rintro c ⟨⟩
    rfl

private theorem Valid.exponentPart?_of_some (h : n.Valid) (hafter : Ends after) (hexponent : n.exponent ≠ none) :
    exponentPart? digit? (n.exponentText ++ after) = some (n.scale, after) := by
  obtain ⟨⟨negative, ds⟩, hsome⟩ := Option.ne_none_iff_exists'.mp hexponent
  obtain ⟨hne, hdigits⟩ := h.exponent_digits _ hsome
  have hsign : sign ((if negative then '-' else '+') :: (ds ++ after)) = (negative, ds ++ after) := by
    cases negative <;> rfl
  obtain ⟨d, ds, rfl⟩ := List.exists_cons_of_ne_nil hne
  rw [exponentText, scale, hsome]
  simp only [List.cons_append] at hsign ⊢
  rw [Literal.exponentPart?]
  simp only [decide_true, Bool.true_or, if_true, hsign]
  rw [← List.cons_append, digitRun_append hdigits hafter.isDigit]
  rfl

/-- What stands behind the fraction is an exponent or the end of the number. -/
private theorem Valid.exponentPart?_getD (h : n.Valid) (hafter : Ends after) :
    (exponentPart? digit? (n.exponentText ++ after)).getD (0, n.exponentText ++ after) = (n.scale, after) := by
  by_cases hexponent : n.exponent = none
  · rw [exponentText, scale, hexponent, List.nil_append, hafter.exponentPart?]
    rfl
  · rw [h.exponentPart?_of_some hafter hexponent]
    rfl

theorem Valid.readNumber_text (h : n.Valid) (negative : Bool) (hafter : Ends after) :
    readNumber (minus negative ++ n.text ++ after) =
      .ok (.float (scaled negative n.significand (n.scale - n.fraction.length)), after) := by
  have hwhole := wholePart?_append h.whole_digits h.whole_ne_nil h.whole_zero (n.isDigit_fractionText hafter)
  have hfloat : scaled negative n.significand (n.scale - n.fraction.length) =
      toFloat ⟨negative, n.whole.map digitValue, n.fraction.map digitValue, n.scale⟩ := by
    rw [toFloat, List.length_map]
    rfl
  rw [text, List.append_assoc, List.append_assoc, List.append_assoc, hfloat]
  unfold readNumber
  split
  rename_i heq
  obtain ⟨rfl, rfl⟩ := Prod.mk.inj ((sign_minus _ hwhole).symm.trans heq)
  simp only [hwhole]
  by_cases hfraction : n.fraction = []
  · -- there is an exponent right behind the whole part
    have hexponent : n.exponent ≠ none := h.float.resolve_left (absurd hfraction)
    have hnone : fractionPart? (n.exponentText ++ after) = none := by
      obtain ⟨s, hsome⟩ := Option.ne_none_iff_exists'.mp hexponent
      rw [exponentText, hsome]
      rfl
    rw [fractionText, if_pos hfraction, List.nil_append]
    simp only [hnone, h.exponentPart?_of_some hafter hexponent, hfraction, List.map_nil]
  · have hsome : fractionPart? (n.fractionText ++ (n.exponentText ++ after)) =
        some (n.fraction.map digitValue, n.exponentText ++ after) := by
      rw [fractionText, if_neg hfraction, List.cons_append, fractionPart?,
        digitRun_append h.fraction_digits (n.isDigit_exponentText hafter)]
      obtain ⟨d, ds, hds⟩ := List.exists_cons_of_ne_nil hfraction
      rw [hds]
      rfl
    simp only [hsome, h.exponentPart?_getD hafter]

theorem Valid.starts (h : n.Valid) : ∃ c cs, n.text = c :: cs ∧ c.isDigit = true := by
  obtain ⟨c, cs, hcs⟩ := List.exists_cons_of_ne_nil h.whole_ne_nil
  exact ⟨c, cs ++ n.fractionText ++ n.exponentText, by rw [text, hcs]; rfl, h.whole_digits c (hcs ▸ List.mem_cons_self)⟩

/-- A number is written without a carriage return. -/
theorem Valid.not_mem_text (h : n.Valid) : '\r' ∉ n.text := by
  have hdigits {cs : List Char} (hcs : ∀ c ∈ cs, c.isDigit = true) : '\r' ∉ cs :=
    fun hmem => absurd (hcs _ hmem) (by decide)
  rw [text, List.mem_append, List.mem_append, not_or, not_or]
  refine ⟨⟨hdigits h.whole_digits, ?_⟩, ?_⟩
  · rw [fractionText]
    split
    · exact List.not_mem_nil
    · exact List.not_mem_cons_of_ne_of_not_mem (by decide) (hdigits h.fraction_digits)
  · rw [exponentText]
    split
    · exact List.not_mem_nil
    · rename_i negative ds hsome
      have hsign : '\r' ≠ if negative then '-' else '+' := by cases negative <;> decide
      exact List.not_mem_cons_of_ne_of_not_mem (by decide)
        (List.not_mem_cons_of_ne_of_not_mem hsign (hdigits (h.exponent_digits _ hsome).2))

end Numeral

/-- Digits with a point behind the first `k` of them, or an exponent. -/
def Numeral.pointed (cs : List Char) (k : ℕ) (exponent : Option (Bool × List Char)) : Numeral :=
  ⟨cs.take k, cs.drop k, exponent⟩

namespace Numeral
variable {cs : List Char} {k : ℕ} {exponent : Option (Bool × List Char)}

private theorem significand_pointed : (pointed cs k exponent).significand = Literal.ofDigits (cs.map digitValue) := by
  rw [significand, pointed, ← List.map_append, List.take_append_drop]

private theorem valid_pointed (digits : ∀ c ∈ cs, c.isDigit = true) (pos : 0 < k) (le : k ≤ cs.length)
    (zero : cs.head? = some '0' → k = 1) (exponent_digits : ∀ s ∈ exponent, s.2 ≠ [] ∧ ∀ c ∈ s.2, c.isDigit = true)
    (float : k < cs.length ∨ exponent ≠ none) : (pointed cs k exponent).Valid where
  whole_digits c hc := digits c (List.mem_of_mem_take hc)
  whole_ne_nil h := by
    obtain h | h := List.take_eq_nil_iff.mp h
    · omega
    · rw [h, List.length_nil] at le
      omega
  whole_zero h := by
    rw [pointed, List.head?_take, if_neg pos.ne'] at h
    obtain ⟨ds, rfl⟩ := List.head?_eq_some_iff.mp h
    rw [pointed, zero h]
    rfl
  fraction_digits c hc := digits c (List.mem_of_mem_drop hc)
  exponent_digits := exponent_digits
  float := by
    refine float.imp_left fun hlt hnil => ?_
    have := List.drop_eq_nil_iff.mp hnil
    omega

end Numeral

private theorem toList_zeros (k : ℕ) : (zeros k).toList = List.replicate k '0' :=
  String.toList_ofList

private theorem isDigit_of_mem_zeros {k : ℕ} {c : Char} (h : c ∈ (zeros k).toList) : c.isDigit = true := by
  rw [toList_zeros] at h
  rw [List.eq_of_mem_replicate h]
  rfl

private theorem map_digitValue_zeros (k : ℕ) : (zeros k).toList.map digitValue = List.replicate k 0 := by
  rw [toList_zeros, List.map_replicate]
  rfl

/-- A whole number is laid out with zeros behind it, and a fraction of zero. -/
private theorem whole_eq {digits : ℕ} (hdigits : 0 < digits) (k : ℕ) :
    ∃ n : Numeral, n.Valid ∧ (digitText digits ++ zeros k ++ ".0").toList = n.text ∧ n.value = digits * 10 ^ k := by
  let cs := (digitText digits).toList ++ (zeros k).toList
  obtain ⟨c, ds, hds⟩ := List.exists_cons_of_ne_nil (digitText_ne_nil digits)
  have hcs (c : Char) (hc : c ∈ cs ++ ['0']) : c.isDigit = true := by
    obtain (hc | hc) | hc := (List.mem_append.mp hc).imp_left List.mem_append.mp
    · exact isDigit_of_mem_digitText hc
    · exact isDigit_of_mem_zeros hc
    · rw [List.mem_singleton.mp hc]
      rfl
  have hhead : (cs ++ ['0']).head? ≠ some '0' := by
    have hne := head_digitText_ne hdigits
    simp only [cs, hds] at hne ⊢
    exact hne
  have hlength : 0 < cs.length := by
    simp only [cs, hds]
    exact Nat.succ_pos _
  have hlast : (cs ++ ['0']).length = cs.length + 1 := List.length_append
  have hvalue : ofDigits ((cs ++ ['0']).map digitValue) = 10 * (10 ^ k * digits) := by
    rw [List.map_append, ofDigits_append, List.map_append, ofDigits_append, ofDigits_digitText, map_digitValue_zeros,
      ofDigits_zeros, List.length_replicate]
    rfl
  refine ⟨.pointed (cs ++ ['0']) cs.length none,
    Numeral.valid_pointed hcs hlength (by omega) (fun h => absurd h hhead) nofun (.inl (by omega)), ?_, ?_⟩
  · rw [String.toList_append, String.toList_append, Numeral.pointed, List.take_left, List.drop_left]
    simp [Numeral.text, Numeral.fractionText, Numeral.exponentText, cs]
  · rw [Numeral.value, Numeral.significand_pointed, hvalue, Numeral.pointed, List.drop_left]
    simp only [Numeral.scale, List.length_singleton]
    push_cast
    norm_num
    ring

/-- A fraction is laid out with a point before the last of its digits, and zeros in front if there are too few. -/
private theorem pointed_eq {digits places : ℕ} (hdigits : 0 < digits) (hplaces : 0 < places) :
    ∃ n : Numeral, n.Valid ∧ (Decimal.pointed digits places).toList = n.text ∧ n.value = digits * 10 ^ (-places : ℤ) := by
  let ds := (digitText digits).toList
  let cs := List.replicate (places + 1 - ds.length) '0' ++ ds
  have hcs (c : Char) (hc : c ∈ cs) : c.isDigit = true := by
    obtain hc | hc := List.mem_append.mp hc
    · rw [List.eq_of_mem_replicate hc]
      rfl
    · exact isDigit_of_mem_digitText hc
  have hlength : cs.length = max (places + 1) ds.length := by
    simp only [cs, List.length_append, List.length_replicate]
    omega
  have hzero (h : cs.head? = some '0') : cs.length - places = 1 := by
    by_contra hlong
    have hnone : places + 1 - ds.length = 0 := by omega
    simp only [cs, hnone, List.replicate_zero, List.nil_append] at h
    exact head_digitText_ne hdigits h
  have hvalue : ofDigits (cs.map digitValue) = digits := by
    have hzeros :
        (List.replicate (places + 1 - ds.length) '0').map digitValue = List.replicate (places + 1 - ds.length) 0 :=
      List.map_replicate
    rw [List.map_append, hzeros, ofDigits_zeros_append, ofDigits_digitText]
  refine ⟨.pointed cs (cs.length - places) none,
    Numeral.valid_pointed hcs (by omega) (by omega) hzero nofun (.inl (by omega)), ?_, ?_⟩
  · have hlayout : Decimal.pointed digits places =
        String.ofList (cs.take (cs.length - places)) ++ "." ++ String.ofList (cs.drop (cs.length - places)) :=
      if_neg hplaces.ne'
    have hfraction : cs.drop (cs.length - places) ≠ [] := by
      rw [ne_eq, List.drop_eq_nil_iff]
      omega
    rw [hlayout, Numeral.text, Numeral.fractionText, Numeral.pointed, if_neg hfraction, Numeral.exponentText]
    simp
  · have hplaces : cs.length - (cs.length - places) = places := by omega
    rw [Numeral.value, Numeral.significand_pointed, hvalue, Numeral.pointed, List.length_drop, hplaces]
    simp only [Numeral.scale, zero_sub]

/-- A large or small number is laid out with a point behind its first digit, if there is a second one. -/
private theorem mantissa_eq (digits width : ℕ) (top : ℤ) :
    ∃ n : Numeral, n.Valid ∧ (mantissaText digits ++ "e" ++ exponentText width top).toList = n.text ∧
      n.value = digits * 10 ^ (top + 1 - (digitText digits).length) := by
  let es := (zeros (width - (digitText top.natAbs).length)).toList ++ (digitText top.natAbs).toList
  have hes : es ≠ [] ∧ ∀ c ∈ es, c.isDigit = true := by
    refine ⟨List.append_ne_nil_of_right_ne_nil _ (digitText_ne_nil _), fun c hc => ?_⟩
    obtain hc | hc := List.mem_append.mp hc
    · exact isDigit_of_mem_zeros hc
    · exact isDigit_of_mem_digitText hc
  have hscale : Exact.signed (top < 0) (ofDigits (es.map digitValue)) = top := by
    rw [List.map_append, map_digitValue_zeros, ofDigits_zeros_append, ofDigits_digitText, signed_natAbs]
  obtain ⟨c, cs, hcs⟩ := List.exists_cons_of_ne_nil (digitText_ne_nil digits)
  refine ⟨.pointed (digitText digits).toList 1 (some (top < 0, es)), Numeral.valid_pointed
    (fun c hc => isDigit_of_mem_digitText hc) one_pos ?_ (fun _ => rfl) ?_ (.inr nofun), ?_, ?_⟩
  · rw [hcs]
    exact Nat.succ_pos _
  · rintro s ⟨⟩
    exact hes
  · have hexponent : (exponentText width top).toList = (if top < 0 then '-' else '+') :: es := by
      rw [exponentText, String.toList_append, String.toList_append]
      split <;> rfl
    rw [String.toList_append, hexponent, mantissaText, Numeral.text, Numeral.fractionText, Numeral.exponentText, hcs,
      Numeral.pointed]
    cases cs <;> simp
  · rw [Numeral.value, Numeral.significand_pointed, ofDigits_digitText, Numeral.pointed, List.length_drop]
    have hlength : (digitText digits).length = cs.length + 1 := by rw [← String.length_toList, hcs, List.length_cons]
    have hexponent : top - ((digitText digits).toList.length - 1 : ℕ) = top + 1 - (digitText digits).length := by
      rw [hcs, hlength, List.length_cons]
      omega
    simp only [Numeral.scale, hscale, hexponent]

/-- The text of a positive decimal is that of a number with its value. -/
private theorem number_eq {d : Decimal} (hd : 0 < d.digits) :
    ∃ n : Numeral, n.Valid ∧ (floatLayout.number d).toList = n.text ∧ n.value = d.value := by
  rw [Layout.number]
  split
  · split
    · rename_i hwhole
      obtain ⟨n, hvalid, htext, hvalue⟩ := whole_eq hd d.exponent.toNat
      refine ⟨n, hvalid, htext, ?_⟩
      rw [hvalue, value, ← zpow_natCast, Int.toNat_of_nonneg hwhole]
    · obtain ⟨n, hvalid, htext, hvalue⟩ := pointed_eq hd (show 0 < (-d.exponent).toNat by omega)
      refine ⟨n, hvalid, htext, ?_⟩
      rw [hvalue, value, Int.toNat_of_nonneg (by omega), neg_neg]
  · obtain ⟨n, hvalid, htext, hvalue⟩ := mantissa_eq d.digits floatLayout.exponentWidth
      ((digitText d.digits).length + d.exponent - 1)
    have hexponent :
        ((digitText d.digits).length + d.exponent - 1 + 1 - (digitText d.digits).length : ℤ) = d.exponent := by omega
    exact ⟨n, hvalid, htext, by rw [hvalue, value, hexponent]⟩

/-- A float is written as a word, or as a number that is read as the float. -/
theorem float_eq (v : Float) :
    (∃ word, (word, Json.float v) ∈ wordValues ∧ floatLayout.float v = word) ∨
      ∃ (negative : Bool) (n : Numeral), n.Valid ∧ (floatLayout.float v).toList = minus negative ++ n.text ∧
        scaled negative n.significand (n.scale - n.fraction.length) = v := by
  have hsign (negative : Bool) (t : String) :
      ((if negative then "-" else "") ++ t).toList = minus negative ++ t.toList := by
    rw [String.toList_append]
    cases negative <;> rfl
  cases hu : v.toModel.unpack with
  | notANumber =>
    obtain rfl : v = notANumber := eq_of_unpack hu
    exact .inl ⟨"NaN", by simp [wordValues], rfl⟩
  | infinity s =>
    refine .inl ?_
    cases s with
    | negative =>
      obtain rfl : v = -infinity := eq_of_unpack hu
      exact ⟨"-Infinity", by simp [wordValues], rfl⟩
    | positive =>
      obtain rfl : v = infinity := eq_of_unpack hu
      exact ⟨"Infinity", by simp [wordValues], rfl⟩
  | zero s =>
    have hv : Exact.ofFloat v = .finite (s == .negative) 0 0 := by rw [Exact.ofFloat, hu]
    refine .inr ⟨s == .negative, ⟨['0'], ['0'], none⟩, ?_, ?_, ?_⟩
    · have hdigit : ∀ c ∈ ['0'], c.isDigit = true := List.forall_mem_singleton.mpr rfl
      refine ⟨hdigit, List.cons_ne_nil _ _, fun _ => rfl, hdigit, fun e he => ?_, .inl (List.cons_ne_nil _ _)⟩
      cases he
    · rw [Layout.float, hv]
      dsimp only
      rw [hsign, if_pos rfl]
      rfl
    · refine eq_of_unpack (Eq.trans ?_ hu.symm)
      cases s <;> rfl
  | finite s m e hm =>
    have hv : Exact.ofFloat v = .finite (s == .negative) m e := by rw [Exact.ofFloat, hu]
    obtain ⟨n, hvalid, htext, hvalue⟩ := number_eq (digits_shortest_pos hv hm)
    refine .inr ⟨s == .negative, n, hvalid, ?_, scaled_shortest hv hm hvalue⟩
    rw [Layout.float, hv]
    dsimp only
    rw [hsign, if_neg hm.ne', htext]

theorem readWord_append {word : String} {value : Json} (h : (word, value) ∈ wordValues) (after : List Char) :
    readWord (word.toList ++ after) = some (value, after) := by
  simp only [wordValues, List.mem_cons, List.not_mem_nil, or_false, Prod.mk.injEq] at h
  obtain ⟨rfl, rfl⟩ | ⟨rfl, rfl⟩ | ⟨rfl, rfl⟩ | ⟨rfl, rfl⟩ | ⟨rfl, rfl⟩ | ⟨rfl, rfl⟩ := h <;> rfl

/-- A number is no word. -/
theorem readWord_minus (negative : Bool) {c : Char} (hc : c.isDigit = true) (cs : List Char) :
    readWord (minus negative ++ c :: cs) = none := by
  have hne {d : Char} (hd : d.isDigit = false) : d ≠ c := by
    rintro rfl
    rw [hc] at hd
    cases hd
  cases negative <;>
    simp [readWord, wordValues, after?, minus, hne (d := 'n') rfl, hne (d := 't') rfl, hne (d := 'f') rfl,
      hne (d := 'N') rfl, hne (d := 'I') rfl, hne (d := '-') rfl]

end Json

end WireCut
