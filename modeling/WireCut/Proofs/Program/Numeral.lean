import WireCut.Program.Number
import WireCut.Proofs.Number.Spelling

/-! Numerals: the texts that are read as decimal numbers. Their grammar is stated on its own, with the literal that a
numeral spells, and the scanner finds the longest numeral that a text begins with. -/
namespace WireCut

namespace Literal
open Text

inductive MantissaText : List Char → List Nat → List Nat → Prop where
  | whole {cs : List Char} {ns : List Nat} (digits : Digits digitValue? cs ns) (ne : cs ≠ []) : MantissaText cs ns []
  | pointed {cs fs : List Char} {ns ms : List Nat} (digits : Digits digitValue? cs ns) (ne : cs ≠ [])
      (fraction : Digits digitValue? fs ms) : MantissaText (cs ++ '.' :: fs) ns ms
  | fraction {fs : List Char} {ms : List Nat} (fraction : Digits digitValue? fs ms) (ne : fs ≠ []) :
      MantissaText ('.' :: fs) [] ms

inductive Spelled : List Char → Literal → Prop where
  | parts {sign mantissa exponent : List Char} {negative : Bool} {whole fraction : List Nat} {e : Int}
      (signed : SignText sign negative) (digits : MantissaText mantissa whole fraction)
      (scaled : ExponentText digitValue? exponent e) :
      Spelled (sign ++ (mantissa ++ exponent)) ⟨negative, whole, fraction, e⟩

structure Longest (text p : List Char) (l : Literal) : Prop where
  spelled : Spelled p l
  starts : p <+: text
  longest : ∀ q k, Spelled q k → q <+: text → q.length ≤ p.length

/-- A decimal digit of any script is neither a sign nor a point nor a mark. -/
theorem apart_digitValue? : Apart digitValue? := by
  refine ⟨by decide, by decide, by decide, ?_⟩
  rintro c (rfl | rfl) <;> decide

/-- What is read as a mantissa is spelled by the characters that are read. -/
private theorem mantissaPart_parts {cs after : List Char} {whole fraction : List Nat}
    (h : mantissaPart digitValue? cs = some (whole, fraction, after)) :
    ∃ m, MantissaText m whole fraction ∧ cs = m ++ after := by
  obtain ⟨ds, hds, hdigits⟩ := digitRun_parts digitValue? cs
  rw [mantissaPart] at h
  split at h
  · rename_i ns rest hrun
    simp only [hrun] at hds hdigits
    obtain ⟨fs, hfs, hfraction⟩ := digitRun_parts digitValue? rest
    dsimp only at h
    split_ifs at h with hempty
    cases h
    by_cases hne : ds = []
    · have hns := hdigits.eq_nil_iff.mp hne
      have hfs' : fs ≠ [] := fun hnil => hempty (by simp [hns, hfraction.eq_nil_iff.mp hnil])
      refine ⟨'.' :: fs, ?_, ?_⟩
      · rw [hns]
        exact .fraction hfraction hfs'
      · rw [hds, hne, List.nil_append, List.cons_append, ← hfs]
    · refine ⟨ds ++ '.' :: fs, .pointed hdigits hne hfraction, ?_⟩
      rw [List.append_assoc, List.cons_append, ← hfs]
      exact hds
  · rename_i ns rest _ hrun
    simp only [hrun] at hds hdigits
    split_ifs at h with hempty
    cases h
    exact ⟨ds, .whole hdigits fun hne => hempty (List.isEmpty_iff.mpr (hdigits.eq_nil_iff.mp hne)), hds⟩

/-- Digits in front of a point are read with the digits after it. -/
private theorem mantissaPart_pointed {cs fs : List Char} {ns ms : List Nat} (digits : Digits digitValue? cs ns)
    (fraction : Digits digitValue? fs ms) (ne : ns ≠ [] ∨ ms ≠ []) (rest : List Char) :
    mantissaPart digitValue? (cs ++ '.' :: (fs ++ rest)) =
      some (ns, ms ++ (digitRun digitValue? rest).1, (digitRun digitValue? rest).2) := by
  have hrun : digitRun digitValue? (cs ++ '.' :: (fs ++ rest)) = (ns, '.' :: (fs ++ rest)) := by
    rw [digitRun_digits digits, digitRun_stop (by rintro c ⟨⟩; exact apart_digitValue?.point), List.append_nil]
  have hsome : ¬(ns.isEmpty && (ms ++ (digitRun digitValue? rest).1).isEmpty) = true := by
    obtain hns | hms := ne
    · simp [hns]
    · simp [hms]
  rw [mantissaPart, hrun]
  simp only [digitRun_digits fraction]
  rw [if_neg hsome]

/-- A mantissa is read to its end at least. If no more is read, then it is read as what it spells. -/
private theorem MantissaText.mantissaPart_append {m : List Char} {whole fraction : List Nat} (h : MantissaText m whole fraction)
    (rest : List Char) :
    ∃ whole' fraction' after, mantissaPart digitValue? (m ++ rest) = some (whole', fraction', after) ∧ after <:+ rest ∧
      (after = rest → whole' = whole ∧ fraction' = fraction) := by
  have hsuffix := digitRun_suffix digitValue? rest
  cases h with
  | whole digits ne =>
    have hns : ¬(whole ++ (digitRun digitValue? rest).1).isEmpty = true := by
      simp [mt digits.eq_nil_iff.mpr ne]
    rw [mantissaPart, digitRun_digits digits]
    split
    · rename_i ns after heq
      obtain ⟨rfl, hpoint⟩ := Prod.mk.inj heq
      have hafter := (digitRun_suffix digitValue? after).trans (List.suffix_cons '.' after)
      dsimp only
      rw [if_neg (by simp [mt digits.eq_nil_iff.mpr ne])]
      refine ⟨_, _, _, rfl, hafter.trans (hpoint ▸ hsuffix), fun hend => ?_⟩
      -- the point itself has been read
      have hlt := (digitRun_suffix digitValue? after).length_le
      have hle := (hpoint ▸ hsuffix).length_le
      rw [hend] at hlt
      rw [List.length_cons] at hle
      omega
    · rename_i ns after _ heq
      obtain ⟨rfl, rfl⟩ := Prod.mk.inj heq
      rw [if_neg hns]
      refine ⟨_, _, _, rfl, hsuffix, fun hend => ⟨?_, rfl⟩⟩
      rw [digitRun_eq_nil hend, List.append_nil]
  | pointed digits ne fractional =>
    rw [List.append_assoc, List.cons_append, mantissaPart_pointed digits fractional (.inl (mt digits.eq_nil_iff.mpr ne))]
    refine ⟨_, _, _, rfl, hsuffix, fun hend => ⟨rfl, ?_⟩⟩
    rw [digitRun_eq_nil hend, List.append_nil]
  | fraction fractional ne =>
    rw [List.cons_append, ← List.nil_append ('.' :: _), mantissaPart_pointed .nil fractional
      (.inr (mt fractional.eq_nil_iff.mpr ne))]
    refine ⟨_, _, _, rfl, hsuffix, fun hend => ⟨rfl, ?_⟩⟩
    rw [digitRun_eq_nil hend, List.append_nil]

/-- A mantissa is read to its end and not beyond it, if neither a digit nor a point follows. -/
private theorem MantissaText.mantissaPart_stop {m : List Char} {whole fraction : List Nat} (h : MantissaText m whole fraction)
    {rest : List Char} (hrest : ∀ c ∈ rest.head?, digitValue? c = none ∧ c ≠ '.') :
    mantissaPart digitValue? (m ++ rest) = some (whole, fraction, rest) := by
  have hrun := digitRun_stop fun c hc => (hrest c hc).1
  cases h with
  | whole digits ne =>
    rw [mantissaPart, digitRun_digits digits, hrun, List.append_nil]
    split
    · rename_i ns after heq
      obtain ⟨-, rfl⟩ := Prod.mk.inj heq
      exact absurd rfl (hrest '.' rfl).2
    · rename_i ns after _ heq
      obtain ⟨rfl, rfl⟩ := Prod.mk.inj heq
      rw [if_neg (by simp [mt digits.eq_nil_iff.mpr ne])]
  | pointed digits ne fractional =>
    rw [List.append_assoc, List.cons_append, mantissaPart_pointed digits fractional (.inl (mt digits.eq_nil_iff.mpr ne)),
      hrun, List.append_nil]
  | fraction fractional ne =>
    rw [List.cons_append, ← List.nil_append ('.' :: _), mantissaPart_pointed .nil fractional
      (.inr (mt fractional.eq_nil_iff.mpr ne)), hrun, List.append_nil]

private theorem MantissaText.head_not_sign {m : List Char} {whole fraction : List Nat} (h : MantissaText m whole fraction)
    (rest : List Char) : ∀ c ∈ (m ++ rest).head?, c ≠ '-' ∧ c ≠ '+' := by
  cases h with
  | whole digits ne => exact digits.head_not_sign apart_digitValue? ne rest
  | pointed digits ne fraction =>
    rw [List.append_assoc]
    exact digits.head_not_sign apart_digitValue? ne _
  | fraction fraction ne =>
    rintro c ⟨⟩
    decide

/-- What is read as a literal is spelled by the characters that are read. -/
private theorem scan?_parts {cs after : List Char} {l : Literal} (h : scan? digitValue? cs = some (l, after)) :
    ∃ p, Spelled p l ∧ cs = p ++ after := by
  obtain ⟨σ, hσ, hcs⟩ := sign_parts cs
  rw [scan?] at h
  dsimp only at h
  split at h
  · cases h
  · rename_i whole fraction afterMantissa hmantissa
    obtain ⟨m, hm, hsplit⟩ := mantissaPart_parts hmantissa
    obtain ⟨x, hx, hrest⟩ := exponentPart?_parts digitValue? afterMantissa
    cases h
    refine ⟨σ ++ (m ++ x), .parts hσ hm hx, ?_⟩
    rw [List.append_assoc, List.append_assoc, ← hrest, ← hsplit]
    exact hcs

/-- A numeral at the start of a text is read to its end at least. If no more is read, then the literal that it spells
is read. -/
theorem Spelled.scan?_append {p : List Char} {l : Literal} (h : Spelled p l) (rest : List Char) :
    ∃ l' after, scan? digitValue? (p ++ rest) = some (l', after) ∧ after <:+ rest ∧ (after = rest → l' = l) := by
  obtain @⟨σ, m, x, negative, whole, fraction, e, signed, digits, scaled⟩ := h
  have hsign := signed.sign_append (digits.head_not_sign (x ++ rest))
  rw [List.append_assoc, List.append_assoc, scan?, hsign]
  cases scaled with
  | none =>
    obtain ⟨whole', fraction', after, hread, hafter, hend⟩ := digits.mantissaPart_append rest
    obtain ⟨e', after', hexp, hafter', hend'⟩ := ExponentText.none.exponentPart?_append apart_digitValue? after
    rw [List.nil_append] at hexp ⊢
    simp only [hread, hexp]
    refine ⟨_, _, rfl, hafter'.trans hafter, fun heq => ?_⟩
    obtain rfl : after = rest := hafter.eq_of_length_le (heq ▸ hafter'.length_le)
    obtain ⟨rfl, rfl⟩ := hend rfl
    rw [hend' heq]
  | @marked mark τ ds _ ns isMark signed digits' ne =>
    have hstop : ∀ c ∈ (mark :: (τ ++ ds) ++ rest).head?, digitValue? c = none ∧ c ≠ '.' := by
      rintro c ⟨⟩
      refine ⟨apart_digitValue?.mark _ isMark, ?_⟩
      obtain rfl | rfl := isMark <;> decide
    obtain ⟨e', after', hexp, hafter', hend'⟩ :=
      (ExponentText.marked isMark signed digits' ne).exponentPart?_append apart_digitValue? rest
    simp only [digits.mantissaPart_stop hstop, hexp]
    refine ⟨_, _, rfl, hafter', fun heq => ?_⟩
    rw [hend' heq]

namespace Longest
variable {text p : List Char} {l : Literal}

/-- What the scanner reads is the longest numeral at the start of the text. -/
theorem of_scan? {after : List Char} (h : scan? digitValue? text = some (l, after)) :
    ∃ p, Longest text p l ∧ text = p ++ after := by
  obtain ⟨p, hp, hsplit⟩ := scan?_parts h
  refine ⟨p, ⟨hp, ⟨after, hsplit.symm⟩, ?_⟩, hsplit⟩
  rintro q k hq ⟨rest, rfl⟩
  obtain ⟨l', after', hread, hafter, -⟩ := hq.scan?_append rest
  obtain ⟨-, rfl⟩ := Prod.mk.inj (Option.some.inj (h.symm.trans hread))
  have hlen := congrArg List.length hsplit
  have hle := hafter.length_le
  rw [List.length_append, List.length_append] at hlen
  omega

/-- The longest numeral at the start of a text is what the scanner reads. -/
theorem scan? (h : Longest text p l) (rest : List Char) (hsplit : text = p ++ rest) :
    Literal.scan? digitValue? text = some (l, rest) := by
  obtain ⟨l', after, hread, hafter, hend⟩ := h.spelled.scan?_append rest
  obtain ⟨q, hq, hq'⟩ := of_scan? (hsplit ▸ hread)
  have hlen := congrArg List.length (hsplit.symm.trans hq')
  have hle := h.longest q l' hq.spelled hq.starts
  rw [List.length_append, List.length_append] at hlen
  obtain rfl := hafter.eq_of_length_le (by omega)
  rw [hsplit, hread, hend rfl]

/-- A text that begins with a numeral begins with a longest one. -/
theorem exists_of_prefix {q : List Char} {k : Literal} (hq : Spelled q k) (hstarts : q <+: text) :
    ∃ p l, Longest text p l := by
  obtain ⟨rest, rfl⟩ := hstarts
  obtain ⟨l, after, hread, -⟩ := hq.scan?_append rest
  obtain ⟨p, hp, -⟩ := of_scan? hread
  exact ⟨p, l, hp⟩

end Longest

end Literal
end WireCut
