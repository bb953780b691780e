import Mathlib.Data.List.Forall2
import WireCut.Number.Exact
import WireCut.Number.Literal

/-! How parts of a number are spelled, for any kind of digits, and that the scanners of these parts read them. -/
namespace WireCut

namespace Literal
variable {digit? : Char → Option Nat}

def Digits (digit? : Char → Option Nat) (cs : List Char) (ns : List Nat) : Prop :=
  List.Forall₂ (fun c n => digit? c = some n) cs ns

inductive SignText : List Char → Bool → Prop where
  | none : SignText [] false
  | plus : SignText ['+'] false
  | minus : SignText ['-'] true

inductive ExponentText (digit? : Char → Option Nat) : List Char → Int → Prop where
  | none : ExponentText digit? [] 0
  | marked {mark : Char} {sign ds : List Char} {negative : Bool} {ns : List Nat} (isMark : mark = 'e' ∨ mark = 'E')
      (signed : SignText sign negative) (digits : Digits digit? ds ns) (ne : ds ≠ []) :
      ExponentText digit? (mark :: (sign ++ ds)) (Exact.signed negative (ofDigits ns))

/-- No character that has another meaning in a number is a digit. -/
structure Apart (digit? : Char → Option Nat) : Prop where
  point : digit? '.' = none
  minus : digit? '-' = none
  plus : digit? '+' = none
  mark : ∀ c, c = 'e' ∨ c = 'E' → digit? c = none

theorem digitRun_digits {cs : List Char} {ns : List Nat} (h : Digits digit? cs ns) (rest : List Char) :
    digitRun digit? (cs ++ rest) = (ns ++ (digitRun digit? rest).1, (digitRun digit? rest).2) := by
  induction h with
  | nil => rfl
  | cons hc _ ih => rw [List.cons_append, digitRun, hc, ih, List.cons_append]

theorem digitRun_parts (digit? : Char → Option Nat) (cs : List Char) :
    ∃ ds, cs = ds ++ (digitRun digit? cs).2 ∧ Digits digit? ds (digitRun digit? cs).1 := by
  induction cs with
  | nil => exact ⟨[], rfl, .nil⟩
  | cons c cs ih =>
    rw [digitRun]
    cases hc : digit? c with
    | none => exact ⟨[], rfl, .nil⟩
    | some d =>
      obtain ⟨ds, hds, hdigits⟩ := ih
      exact ⟨c :: ds, by rw [List.cons_append, ← hds], .cons hc hdigits⟩

theorem digitRun_suffix (digit? : Char → Option Nat) (cs : List Char) : (digitRun digit? cs).2 <:+ cs := by
  obtain ⟨ds, hds, -⟩ := digitRun_parts digit? cs
  exact ⟨ds, hds.symm⟩

/-- What is left whole by a run of digits has no digit in front. -/
theorem digitRun_eq_nil {cs : List Char} (h : (digitRun digit? cs).2 = cs) : (digitRun digit? cs).1 = [] := by
  obtain ⟨ds, hds, hdigits⟩ := digitRun_parts digit? cs
  rw [h] at hds
  obtain rfl : ds = [] := List.self_eq_append_left.mp hds
  generalize (digitRun digit? cs).1 = ns at hdigits
  cases hdigits
  rfl

theorem digitRun_stop {cs : List Char} (h : ∀ c ∈ cs.head?, digit? c = none) : digitRun digit? cs = ([], cs) := by
  cases cs with
  | nil => rfl
  | cons c cs => rw [digitRun, h c rfl]

theorem Digits.eq_nil_iff {cs : List Char} {ns : List Nat} (h : Digits digit? cs ns) : cs = [] ↔ ns = [] := by
  cases h <;> simp

theorem sign_parts (cs : List Char) : ∃ σ, SignText σ (sign cs).1 ∧ cs = σ ++ (sign cs).2 := by
  unfold sign
  split
  · exact ⟨['-'], .minus, rfl⟩
  · exact ⟨['+'], .plus, rfl⟩
  · exact ⟨[], .none, rfl⟩

theorem SignText.sign_append {σ cs : List Char} {negative : Bool} (h : SignText σ negative)
    (hcs : ∀ c ∈ cs.head?, c ≠ '-' ∧ c ≠ '+') : sign (σ ++ cs) = (negative, cs) := by
  cases h with
  | plus => rfl
  | minus => rfl
  | none =>
    rw [List.nil_append]
    unfold sign
    split
    · exact absurd rfl (hcs _ rfl).1
    · exact absurd rfl (hcs _ rfl).2
    · rfl

theorem Digits.head_not_sign (apart : Apart digit?) {cs : List Char} {ns : List Nat} (h : Digits digit? cs ns)
    (ne : cs ≠ []) (rest : List Char) : ∀ c ∈ (cs ++ rest).head?, c ≠ '-' ∧ c ≠ '+' := by
  cases h with
  | nil => exact absurd rfl ne
  | cons hc _ =>
    rintro c ⟨⟩
    constructor
    · rintro rfl
      cases apart.minus.symm.trans hc
    · rintro rfl
      cases apart.plus.symm.trans hc

/-- What is read as an exponent is spelled by the characters that are read. -/
theorem exponentText_of_exponentPart {cs rest : List Char} {e : Int} (h : exponentPart? digit? cs = some (e, rest)) :
    ∃ x, ExponentText digit? x e ∧ x ≠ [] ∧ cs = x ++ rest := by
  cases cs with
  | nil => cases h
  | cons c cs =>
    obtain ⟨σ, hσ, hcs⟩ := sign_parts cs
    obtain ⟨ds, hds, hdigits⟩ := digitRun_parts digit? (sign cs).2
    rw [exponentPart?] at h
    split_ifs at h with hmark
    dsimp only at h
    split at h
    · cases h
    · rename_i ns after hne hrun
      simp only [hrun] at hds hdigits
      cases h
      refine ⟨c :: (σ ++ ds), .marked (by simpa using hmark) hσ hdigits (fun hnil => ?_), List.cons_ne_nil _ _, ?_⟩
      · exact hne (hdigits.eq_nil_iff.mp hnil)
      · rw [List.cons_append, List.append_assoc, ← hds, ← hcs]

/-- What is read where an exponent may stand is spelled by the characters that are read. -/
theorem exponentPart?_parts (digit? : Char → Option Nat) (cs : List Char) :
    ∃ x, ExponentText digit? x ((exponentPart? digit? cs).getD (0, cs)).1 ∧
      cs = x ++ ((exponentPart? digit? cs).getD (0, cs)).2 := by
  cases hexp : exponentPart? digit? cs with
  | none => exact ⟨[], .none, rfl⟩
  | some part =>
    obtain ⟨x, hx, -, hsplit⟩ := exponentText_of_exponentPart hexp
    exact ⟨x, hx, hsplit⟩

/-- An exponent is read with the digits behind it. -/
theorem exponentPart?_marked (apart : Apart digit?) {mark : Char} {sign ds : List Char} {negative : Bool} {ns : List Nat}
    (isMark : mark = 'e' ∨ mark = 'E') (signed : SignText sign negative) (digits : Digits digit? ds ns) (ne : ds ≠ [])
    (rest : List Char) :
    exponentPart? digit? (mark :: (sign ++ ds) ++ rest) =
      some (Exact.signed negative (ofDigits (ns ++ (digitRun digit? rest).1)), (digitRun digit? rest).2) := by
  rw [List.cons_append, List.append_assoc, exponentPart?, if_pos (by simpa using isMark),
    signed.sign_append (digits.head_not_sign apart ne rest)]
  dsimp only
  rw [digitRun_digits digits]
  split
  · rename_i heq
    have hns := mt digits.eq_nil_iff.mpr ne
    exact absurd (Prod.mk.inj heq).1 (by simp [hns])
  · rename_i ks after _ heq
    obtain ⟨rfl, rfl⟩ := Prod.mk.inj heq
    rfl

/-- An exponent is read to its end at least. If no more is read, then it is read as what it spells. -/
theorem ExponentText.exponentPart?_append (apart : Apart digit?) {x : List Char} {e : Int} (h : ExponentText digit? x e)
    (rest : List Char) :
    ∃ e' after, (exponentPart? digit? (x ++ rest)).getD (0, x ++ rest) = (e', after) ∧ after <:+ rest ∧
      (after = rest → e' = e) := by
  cases h with
  | none =>
    obtain ⟨x, hx, hsplit⟩ := exponentPart?_parts digit? rest
    cases hread : (exponentPart? digit? rest).getD (0, rest) with
    | mk e after =>
      simp only [hread] at hx hsplit
      refine ⟨e, after, hread, ⟨x, hsplit.symm⟩, fun hend => ?_⟩
      rw [hend] at hsplit
      obtain rfl : x = [] := List.self_eq_append_left.mp hsplit
      cases hx
      rfl
  | marked isMark signed digits ne =>
    rw [exponentPart?_marked apart isMark signed digits ne]
    refine ⟨_, _, rfl, digitRun_suffix digit? rest, fun hend => ?_⟩
    rw [digitRun_eq_nil hend, List.append_nil]

end Literal
end WireCut
