import WireCut.Proofs.Number.Order

/-! Where exact values stand. They are ordered as the rational numbers are, between the two infinities, and a value that is
not a number has no place in the order. -/
namespace WireCut

namespace Exact
variable {a b : Exact}

def place? : Exact → Option (WithBot (WithTop ℚ))
  | .notANumber => none
  | .infinite true => some ⊥
  | .infinite false => some ⊤
  | .finite negative m e => some ((finite negative m e).value : ℚ)

theorem place?_ofInt (n : ℤ) : (ofInt n).place? = some ((n : ℚ) : WithTop ℚ) :=
  congrArg (fun x : ℚ => some ((x : WithTop ℚ) : WithBot (WithTop ℚ))) (value_ofInt n)

/-- Values are compared as the places where they stand. -/
private theorem compare?_eq_place (a b : Exact) :
    a.compare? b = a.place?.bind fun x => b.place?.map fun y => compare x y := by
  have hfinite : StrictMono fun x : ℚ => ((x : WithTop ℚ) : WithBot (WithTop ℚ)) :=
    fun _ _ h => WithBot.coe_lt_coe.mpr (WithTop.coe_lt_coe.mpr h)
  have habove (x : ℚ) : ((x : WithTop ℚ) : WithBot (WithTop ℚ)) < ⊤ := WithBot.coe_lt_coe.mpr (WithTop.coe_lt_top x)
  have hlt {x y : WithBot (WithTop ℚ)} (h : x < y) : some Ordering.lt = some (compare x y) ∧
      some Ordering.gt = some (compare y x) :=
    ⟨congrArg some (compare_lt_iff_lt.mpr h).symm, congrArg some (compare_gt_iff_gt.mpr h).symm⟩
  have heq (x : WithBot (WithTop ℚ)) : some Ordering.eq = some (compare x x) :=
    congrArg some (compare_eq_iff_eq.mpr rfl).symm
  cases a with
  | notANumber => rfl
  | infinite s =>
    cases b with
    | notANumber => cases s <;> rfl
    | infinite t =>
      cases s <;> cases t
      · exact heq ⊤
      · exact (hlt bot_lt_top).2
      · exact (hlt bot_lt_top).1
      · exact heq ⊥
    | finite t n f =>
      cases s
      · exact (hlt (habove _)).2
      · exact (hlt (WithBot.bot_lt_coe _)).1
  | finite s m e =>
    cases b with
    | notANumber => rfl
    | infinite t =>
      cases t
      · exact (hlt (habove _)).1
      · exact (hlt (WithBot.bot_lt_coe _)).2
    | finite t n f =>
      have hcompare := hfinite.cmp_map_eq (finite s m e).value (finite t n f).value
      simp only [cmp_eq_compare] at hcompare
      rw [compare?_finite, ← hcompare]
      rfl

theorem le_iff : a.le b = true ↔ ∃ x ∈ a.place?, ∃ y ∈ b.place?, x ≤ y := by
  rw [le, compare?_eq_place]
  cases a.place? with
  | none => simp
  | some x =>
    cases b.place? with
    | none => simp
    | some y =>
      simp only [Option.bind_some, Option.map_some, Option.mem_def, Option.some_inj, exists_eq_left']
      rw [← compare_le_iff_le]
      cases compare x y <;> simp

theorem lt_iff : a.lt b = true ↔ ∃ x ∈ a.place?, ∃ y ∈ b.place?, x < y := by
  rw [lt, compare?_eq_place]
  cases a.place? with
  | none => simp
  | some x =>
    cases b.place? with
    | none => simp
    | some y => simp [compare_lt_iff_lt]

end Exact
end WireCut
