import Mathlib.Data.List.Chain
import Mathlib.Data.List.Nodup
import WireCut.Proofs.Number.Digits

/-! Legible values: those that reading can give. Their containers are not nested too deeply, their integers are not too
long, their objects have no key twice, and their strings have no surrogate pair that is not joined. -/
namespace WireCut

namespace CodePoints

def IsHigh (n : Nat) : Prop := 0xd800 ≤ n ∧ n < 0xdc00

def IsLow (n : Nat) : Prop := 0xdc00 ≤ n ∧ n < 0xe000

/-- A string of code points in which no low surrogate stands behind a high one. -/
structure Joined (s : CodePoints) : Prop where
  range : ∀ n ∈ s, n < 0x110000
  apart : s.IsChain fun a b => ¬ (IsHigh a ∧ IsLow b)

end CodePoints

namespace Json
open CodePoints

/-- A value that reading can give with so many containers that may still be opened. -/
inductive Legible : Nat → Json → Prop where
  | null {depth : Nat} : Legible depth .null
  | bool {depth : Nat} (b : Bool) : Legible depth (.bool b)
  | int {depth : Nat} {n : Int} (short : n.natAbs < 10 ^ Literal.maxIntegerDigits) : Legible depth (.int n)
  | float {depth : Nat} (v : Float) : Legible depth (.float v)
  | str {depth : Nat} {s : CodePoints} (joined : s.Joined) : Legible depth (.str s)
  | arr {depth : Nat} {items : List Json} (each : ∀ item ∈ items, Legible depth item) : Legible (depth + 1) (.arr items)
  | obj {depth : Nat} {fields : List (CodePoints × Json)} (keys : ∀ field ∈ fields, field.1.Joined)
      (each : ∀ field ∈ fields, Legible depth field.2) (nodup : (fields.map Prod.fst).Nodup) :
      Legible (depth + 1) (.obj fields)

private theorem joinSurrogates_head (s : CodePoints) :
    (joinSurrogates s).head? = s.head? ∨ ∃ n ∈ (joinSurrogates s).head?, 0x10000 ≤ n := by
  fun_cases joinSurrogates s with
  | case1 high low rest h => exact .inr ⟨_, rfl, by omega⟩
  | case2 high low rest h => exact .inl rfl
  | case3 s => exact .inl rfl

/-- What is left behind each other after joining is no pair. -/
private theorem joined_joinSurrogates {s : CodePoints} (range : ∀ n ∈ s, n < 0x110000) : (joinSurrogates s).Joined := by
  fun_induction joinSurrogates s with
  | case1 high low rest h ih =>
    obtain ⟨hrange, hapart⟩ := ih fun n hn => range n (by simp [hn])
    simp only [Bool.and_eq_true, decide_eq_true_eq] at h
    refine ⟨List.forall_mem_cons.mpr ⟨by omega, hrange⟩, ?_⟩
    refine List.isChain_cons.mpr ⟨fun _ _ hpair => ?_, hapart⟩
    have := hpair.1.2
    omega
  | case2 high low rest h ih =>
    have hlater := ih fun n hn => range n (List.mem_cons_of_mem high hn)
    refine ⟨List.forall_mem_cons.mpr ⟨range high List.mem_cons_self, hlater.range⟩, ?_⟩
    refine List.isChain_cons.mpr ⟨fun b hb hpair => ?_, hlater.apart⟩
    obtain hhead | ⟨n, hn, hlarge⟩ := joinSurrogates_head (low :: rest)
    · rw [hhead] at hb
      obtain rfl : low = b := Option.some.inj hb
      simp only [Bool.and_eq_true, decide_eq_true_eq] at h
      exact h ⟨⟨hpair.1, hpair.2.1⟩, hpair.2.2⟩
    · rw [Option.mem_unique hb hn] at hpair
      have := hpair.2.2
      omega
  | case3 s hs =>
    refine ⟨range, ?_⟩
    match s, hs with
    | [], _ => exact .nil
    | [n], _ => exact .singleton n
    | high :: low :: rest, hs => exact absurd rfl (hs high low rest)

private theorem hexDigit?_lt {c : Char} {n : Nat} (h : hexDigit? c = some n) : n < 0x10 := by
  rw [hexDigit?] at h
  split at h
  · rename_i hc
    have hrange : 0x30 ≤ c.toNat ∧ c.toNat ≤ 0x39 := Char.isDigit_iff_toNat.mp hc
    cases h
    omega
  · split at h
    · rename_i hc
      simp only [Bool.and_eq_true, decide_eq_true_eq] at hc
      have hrange : c.toNat ≤ 0x66 := hc.2
      cases h
      omega
    · split at h
      · rename_i hc
        simp only [Bool.and_eq_true, decide_eq_true_eq] at hc
        have hrange : c.toNat ≤ 0x46 := hc.2
        cases h
        omega
      · cases h

private theorem unit?_lt {a b c d : Char} {n : Nat} (h : unit? a b c d = some n) : n < 0x110000 := by
  unfold unit? at h
  split at h
  · rename_i ha hb hc hd
    have := hexDigit?_lt ha
    have := hexDigit?_lt hb
    have := hexDigit?_lt hc
    have := hexDigit?_lt hd
    cases h
    omega
  · cases h

private theorem shortEscape?_lt {c : Char} {n : Nat} (h : shortEscape? c = some n) : n < 0x110000 := by
  unfold shortEscape? at h
  split at h <;> cases h <;> decide

private theorem units_lt {cs rest : List Char} {s : CodePoints} (h : units cs = some (s, rest)) : ∀ n ∈ s, n < 0x110000 := by
  fun_induction units cs generalizing s with
  | case2 =>
    cases h
    exact List.forall_mem_nil _
  | case3 a b c d rest' n s' after hrest hn ih =>
    cases h
    exact List.forall_mem_cons.mpr ⟨unit?_lt hn, ih hrest⟩
  | case5 e rest' _ n s' after hrest hn ih =>
    cases h
    exact List.forall_mem_cons.mpr ⟨shortEscape?_lt hn, ih hrest⟩
  | case8 c rest' _ _ _ _ s' after hrest ih =>
    cases h
    refine List.forall_mem_cons.mpr ⟨?_, ih hrest⟩
    obtain hlow | ⟨-, hhigh⟩ := c.valid
    · exact Nat.lt_trans hlow (by decide)
    · exact hhigh
  | _ => cases h

private theorem joined_readString {cs rest : List Char} {s : CodePoints} (h : readString cs = some (s, rest)) : s.Joined := by
  obtain ⟨⟨u, after⟩, hu, heq⟩ := Option.map_eq_some_iff.mp h
  cases heq
  exact joined_joinSurrogates (units_lt hu)

private theorem wholePart?_lt {cs rest : List Char} {ds : List Nat} (h : wholePart? cs = some (ds, rest)) :
    ∀ d ∈ ds, d < 10 := by
  unfold wholePart? at h
  split at h
  · cases h
    simp
  · split at h
    · cases h
    · rename_i hrun
      cases h
      exact Literal.digitRun_lt hrun

private theorem legible_readNumber {cs rest : List Char} {v : Json} {depth : Nat} (h : readNumber cs = .ok (v, rest)) :
    Legible depth v := by
  unfold readNumber at h
  split at h
  split at h
  · cases h
  · rename_i whole afterWhole hwhole
    split at h
    · cases h
      exact .float _
    · split at h
      · cases h
        exact .float _
      · split at h
        · cases h
        · rename_i hshort
          cases h
          refine .int ?_
          have hlt := Literal.ofDigits_lt (wholePart?_lt hwhole)
          have hle := Nat.pow_le_pow_right (n := 10) (by decide) (Nat.not_lt.mp hshort)
          rw [Exact.signed]
          split <;> omega

private theorem legible_readWord {cs rest : List Char} {v : Json} {depth : Nat} (h : readWord cs = some (v, rest)) :
    Legible depth v := by
  obtain ⟨⟨word, value⟩, hmem, hvalue⟩ := List.exists_of_findSome?_eq_some h
  obtain ⟨after, -, heq⟩ := Option.map_eq_some_iff.mp hvalue
  cases heq
  simp only [wordValues, List.mem_cons, List.not_mem_nil, or_false, Prod.mk.injEq] at hmem
  obtain ⟨-, rfl⟩ | ⟨-, rfl⟩ | ⟨-, rfl⟩ | ⟨-, rfl⟩ | ⟨-, rfl⟩ | ⟨-, rfl⟩ := hmem
  · exact .null
  · exact .bool true
  · exact .bool false
  · exact .float _
  · exact .float _
  · exact .float _

private theorem mem_putField {fields : List (CodePoints × Json)} {key : CodePoints} {value : Json} {field : CodePoints × Json}
    (h : field ∈ putField fields key value) : field = (key, value) ∨ field ∈ fields := by
  induction fields with
  | nil => exact .inl (List.mem_singleton.mp h)
  | cons f fields ih =>
    rw [putField] at h
    split at h
    · exact (List.mem_cons.mp h).imp_right (List.mem_cons_of_mem f)
    · obtain rfl | h := List.mem_cons.mp h
      · exact .inr List.mem_cons_self
      · exact (ih h).imp_right (List.mem_cons_of_mem f)

theorem nodup_putField {fields : List (CodePoints × Json)} (h : (fields.map Prod.fst).Nodup) (key : CodePoints)
    (value : Json) : ((putField fields key value).map Prod.fst).Nodup := by
  induction fields with
  | nil => exact List.nodup_singleton key
  | cons f fields ih =>
    obtain ⟨k, v⟩ := f
    rw [List.map_cons, List.nodup_cons] at h
    rw [putField]
    split
    · rename_i hk
      rw [List.map_cons, List.nodup_cons]
      exact ⟨hk ▸ h.1, h.2⟩
    · rename_i hk
      rw [List.map_cons, List.nodup_cons]
      refine ⟨fun hmem => ?_, ih h.2⟩
      obtain ⟨field, hfield, hkey⟩ := List.mem_map.mp hmem
      obtain rfl | hold := mem_putField hfield
      · exact hk hkey.symm
      · exact h.1 (List.mem_map.mpr ⟨field, hold, hkey⟩)

private theorem legible_ofFields {fields : List (CodePoints × Json)} {depth : Nat} (keys : ∀ field ∈ fields, field.1.Joined)
    (each : ∀ field ∈ fields, Legible depth field.2) : Legible (depth + 1) (ofFields fields) := by
  have hmem (field : CodePoints × Json)
      (h : field ∈ fields.foldl (fun fs field => putField fs field.1 field.2) []) : field ∈ fields := by
    refine List.foldlRecOn (motive := fun fs => ∀ field ∈ fs, field ∈ fields) fields _ (List.forall_mem_nil _) ?_ field h
    intro fs ih next hnext field hfield
    obtain rfl | hold := mem_putField hfield
    · exact hnext
    · exact ih field hold
  refine .obj (fun field h => keys field (hmem field h)) (fun field h => each field (hmem field h)) ?_
  exact List.foldlRecOn (motive := fun (fs : List (CodePoints × Json)) => (fs.map Prod.fst).Nodup) fields _ .nil
    fun _ h field _ => nodup_putField h field.1 field.2

theorem map_eq_ok {α β : Type} {f : α → β} {x : Except ReadError α} {b : β} (h : x.map f = .ok b) :
    ∃ a, x = .ok a ∧ f a = b := by
  cases x with
  | error reason => cases h
  | ok a => exact ⟨a, rfl, Except.ok.inj h⟩

structure ReadersLegible (fuel : Nat) : Prop where
  value : ∀ {depth cs v rest}, readValue fuel depth cs = .ok (v, rest) → Legible depth v
  items : ∀ {depth cs items rest}, readItems fuel depth cs = .ok (items, rest) → ∀ item ∈ items, Legible depth item
  keys : ∀ {depth cs fields rest}, readFields fuel depth cs = .ok (fields, rest) → ∀ field ∈ fields, field.1.Joined
  fields : ∀ {depth cs fields rest}, readFields fuel depth cs = .ok (fields, rest) →
    ∀ field ∈ fields, Legible depth field.2

namespace ReadersLegible
variable {fuel depth : Nat} {cs rest : List Char}

private theorem value_succ (h : ReadersLegible fuel) {v : Json} (hv : readValue (fuel + 1) depth cs = .ok (v, rest)) :
    Legible depth v := by
  unfold readValue at hv
  split at hv
  · obtain ⟨⟨s, after⟩, hs, heq⟩ := map_eq_ok hv
    cases heq
    rename_i text
    cases hread : readString text with
    | none =>
      rw [hread] at hs
      cases hs
    | some read =>
      rw [hread] at hs
      cases hs
      exact .str (joined_readString hread)
  · cases hv
  · split at hv
    · cases hv
      exact .arr (List.forall_mem_nil _)
    · obtain ⟨⟨items, after⟩, hitems, heq⟩ := map_eq_ok hv
      cases heq
      exact .arr (h.items hitems)
  · cases hv
  · split at hv
    · cases hv
      exact .obj (List.forall_mem_nil _) (List.forall_mem_nil _) .nil
    · obtain ⟨⟨fields, after⟩, hfields, heq⟩ := map_eq_ok hv
      cases heq
      exact legible_ofFields (h.keys hfields) (h.fields hfields)
  · split at hv
    · rename_i hword
      cases hv
      exact legible_readWord hword
    · exact legible_readNumber hv

private theorem items_succ (h : ReadersLegible fuel) {items : List Json}
    (hitems : readItems (fuel + 1) depth cs = .ok (items, rest)) : ∀ item ∈ items, Legible depth item := by
  unfold readItems at hitems
  split at hitems
  · cases hitems
  · rename_i hvalue
    split at hitems
    · cases hitems
      exact List.forall_mem_singleton.mpr (h.value hvalue)
    · obtain ⟨⟨later, after⟩, hlater, heq⟩ := map_eq_ok hitems
      cases heq
      exact List.forall_mem_cons.mpr ⟨h.value hvalue, h.items hlater⟩
    · cases hitems

private theorem fields_succ (h : ReadersLegible fuel) {fields : List (CodePoints × Json)}
    (hfields : readFields (fuel + 1) depth cs = .ok (fields, rest)) :
    ∀ field ∈ fields, field.1.Joined ∧ Legible depth field.2 := by
  unfold readFields at hfields
  split at hfields
  · split at hfields
    · cases hfields
    · rename_i hkey
      split at hfields
      · split at hfields
        · cases hfields
        · rename_i hvalue
          have hfirst := And.intro (joined_readString hkey) (h.value hvalue)
          split at hfields
          · cases hfields
            exact List.forall_mem_singleton.mpr hfirst
          · obtain ⟨⟨later, after⟩, hlater, heq⟩ := map_eq_ok hfields
            cases heq
            exact List.forall_mem_cons.mpr
              ⟨hfirst, fun field hfield => ⟨h.keys hlater field hfield, h.fields hlater field hfield⟩⟩
          · cases hfields
      · cases hfields
  · cases hfields

/-- The calls of the readers are followed down their fuel. -/
private theorem all (fuel : Nat) : ReadersLegible fuel := by
  induction fuel with
  | zero => exact ⟨nofun, nofun, nofun, nofun⟩
  | succ fuel ih =>
    exact ⟨ih.value_succ, ih.items_succ, fun h field hfield => (ih.fields_succ h field hfield).1,
      fun h field hfield => (ih.fields_succ h field hfield).2⟩

end ReadersLegible

/-- A text that is read as a value gives a legible one. -/
theorem legible_of_read {cs : List Char} {v : Json} (h : read cs = .ok v) : Legible maxDepth v := by
  rw [read] at h
  split at h
  · rename_i hvalue
    split at h
    · cases h
      exact (ReadersLegible.all _).value hvalue
    · cases h
  · cases h

end Json

end WireCut
