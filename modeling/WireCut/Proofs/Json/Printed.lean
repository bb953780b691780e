import WireCut.Proofs.Json.Legible
import WireCut.Proofs.Json.Numeral

/-! Printed values are read back. The text of a legible value, whatever stands behind it, is read as that value. -/
namespace WireCut

namespace Json
open CodePoints Literal

def halves (n : Nat) : CodePoints :=
  if n < 0x10000 then [n] else [0xd800 + (n - 0x10000) / 0x400, 0xdc00 + (n - 0x10000) % 0x400]

private theorem toNat_ofNat {n : Nat} (h : n.isValidChar) : (Char.ofNat n).toNat = n := by
  rw [Char.ofNat, dif_pos h]
  rfl

private theorem hexDigit?_hexDigit {n : Nat} (h : n < 0x10) : hexDigit? (hexDigit n) = some n := by
  have hall : ∀ k : Fin 0x10, hexDigit? (hexDigit k) = some k.val := by decide
  exact hall ⟨n, h⟩

private theorem units_unitEscape {n : Nat} (h : n < 0x10000) (rest : List Char) :
    units (unitEscape n ++ rest) = (units rest).map fun (s, after) => (n :: s, after) := by
  have hunit : unit? (hexDigit (n / 0x1000)) (hexDigit (n / 0x100 % 0x10)) (hexDigit (n / 0x10 % 0x10))
      (hexDigit (n % 0x10)) = some n := by
    rw [unit?, hexDigit?_hexDigit (by omega), hexDigit?_hexDigit (by omega), hexDigit?_hexDigit (by omega),
      hexDigit?_hexDigit (by omega)]
    simp only [Option.some.injEq]
    omega
  simp only [unitEscape, List.cons_append, List.nil_append, units, hunit]
  cases units rest <;> rfl

theorem units_shortEscape {e : Char} {n : Nat} (he : shortEscape? e = some n) (hu : e ≠ 'u') (rest : List Char) :
    units ('\\' :: e :: rest) = (units rest).map fun (s, after) => (n :: s, after) := by
  rw [units.eq_4 _ _ fun _ _ _ _ _ h => absurd h hu, he]
  cases units rest <;> rfl

theorem units_plain {c : Char} (hquote : c ≠ '"') (hslash : c ≠ '\\') (hlow : 0x20 ≤ c.toNat) (rest : List Char) :
    units (c :: rest) = (units rest).map fun (s, after) => (c.toNat :: s, after) := by
  rw [units.eq_5 _ _ hquote (fun _ _ _ _ _ h => absurd h hslash) (fun _ _ h => absurd h hslash),
    if_neg (Nat.not_lt.mpr hlow)]
  cases units rest <;> rfl

/-- A character is written as a short escape, as itself, or as the escapes of its units. -/
private theorem printChar_cases (n : Nat) :
    (∃ e, printChar n = ['\\', e] ∧ shortEscape? e = some n ∧ n ≤ 0x7e ∧ e ≠ 'u' ∧ e ≠ '\r') ∨
    (printChar n = [Char.ofNat n] ∧ 0x20 ≤ n ∧ n ≤ 0x7e ∧ n ≠ 0x22 ∧ n ≠ 0x5c) ∨
    (printChar n = unitEscape n ∧ n < 0x10000) ∨
    (printChar n = unitEscape (0xd800 + (n - 0x10000) / 0x400) ++ unitEscape (0xdc00 + (n - 0x10000) % 0x400) ∧
      0x10000 ≤ n) := by
  by_cases hshort : n ∈ [0x22, 0x5c, 0x0a, 0x0d, 0x09, 0x0c, 0x08]
  · left
    simp only [List.mem_cons, List.not_mem_nil, or_false] at hshort
    obtain rfl | rfl | rfl | rfl | rfl | rfl | rfl := hshort <;>
      exact ⟨_, rfl, rfl, by decide, by decide, by decide⟩
  · simp only [List.mem_cons, List.not_mem_nil, or_false, not_or] at hshort
    obtain ⟨hquote, hslash, hn, hr, ht, hf, hb⟩ := hshort
    rw [printChar, if_neg hquote, if_neg hslash, if_neg hn, if_neg hr, if_neg ht, if_neg hf, if_neg hb]
    split
    · rename_i hplain
      simp only [Bool.and_eq_true, decide_eq_true_eq] at hplain
      exact .inr (.inl ⟨rfl, hplain.1, hplain.2, hquote, hslash⟩)
    split
    · rename_i hsmall
      exact .inr (.inr (.inl ⟨rfl, hsmall⟩))
    · rename_i hlarge
      exact .inr (.inr (.inr ⟨rfl, Nat.not_lt.mp hlarge⟩))

/-- What is written for a character is read as its units. -/
private theorem units_printChar {n : Nat} (h : n < 0x110000) (rest : List Char) :
    units (printChar n ++ rest) = (units rest).map fun (s, after) => (halves n ++ s, after) := by
  obtain ⟨e, htext, he, hsmall, hu, -⟩ | ⟨htext, hlow, hhigh, hquote, hslash⟩ | ⟨htext, hsmall⟩ | ⟨htext, hlarge⟩ :=
    printChar_cases n
  · rw [htext, halves, if_pos (by omega)]
    exact units_shortEscape he hu rest
  · have hchar : (Char.ofNat n).toNat = n := toNat_ofNat (.inl (by omega))
    have hne {c : Char} (hc : n ≠ c.toNat) : Char.ofNat n ≠ c := fun heq => hc (heq ▸ hchar.symm)
    rw [htext, List.singleton_append, units_plain (hne hquote) (hne hslash) (by omega), hchar, halves, if_pos (by omega)]
    rfl
  · rw [htext, units_unitEscape hsmall, halves, if_pos hsmall]
    rfl
  · rw [htext, List.append_assoc, units_unitEscape (by omega), units_unitEscape (by omega), halves,
      if_neg (Nat.not_lt.mpr hlarge)]
    cases units rest <;> rfl

private theorem units_flatMap_printChar {s : CodePoints} (h : ∀ n ∈ s, n < 0x110000) (rest : List Char) :
    units (s.flatMap printChar ++ '"' :: rest) = some (s.flatMap halves, rest) := by
  induction s with
  | nil => rfl
  | cons n s ih =>
    rw [List.flatMap_cons, List.append_assoc, units_printChar (h n List.mem_cons_self),
      ih fun m hm => h m (List.mem_cons_of_mem n hm), List.flatMap_cons]
    rfl

/-- Two units that are no pair stay apart. -/
private theorem joinSurrogates_cons {n : Nat} {s : CodePoints} (h : ∀ m ∈ s.head?, ¬ (IsHigh n ∧ IsLow m)) :
    joinSurrogates (n :: s) = n :: joinSurrogates s := by
  cases s with
  | nil => rfl
  | cons m s =>
    rw [joinSurrogates, if_neg]
    intro hpair
    simp only [Bool.and_eq_true, decide_eq_true_eq] at hpair
    exact h m rfl ⟨⟨hpair.1.1.1, hpair.1.1.2⟩, hpair.1.2, hpair.2⟩

private theorem joinSurrogates_flatMap_halves {s : CodePoints} (h : s.Joined) : joinSurrogates (s.flatMap halves) = s := by
  obtain ⟨hrange, hapart⟩ := h
  induction s with
  | nil => rfl
  | cons n s ih =>
    obtain ⟨hn, hlater⟩ := List.forall_mem_cons.mp hrange
    obtain ⟨hnext, hchain⟩ := List.isChain_cons.mp hapart
    have hrest := ih hlater hchain
    rw [List.flatMap_cons, halves]
    split
    · rename_i hsmall
      rw [List.singleton_append, joinSurrogates_cons, hrest]
      -- what stands behind begins with a low surrogate only if the string goes on with one
      intro m hm hpair
      cases s with
      | nil => cases hm
      | cons k s =>
        rw [List.flatMap_cons, halves] at hm
        split at hm
        · cases hm
          exact hnext _ rfl hpair
        · have hk : k < 0x110000 := hlater k List.mem_cons_self
          cases hm
          have := hpair.2.1
          omega
    · rename_i hlarge
      rw [List.cons_append, List.singleton_append, joinSurrogates, if_pos, hrest]
      · have hsum : 0x10000 + (0xd800 + (n - 0x10000) / 0x400 - 0xd800) * 0x400
            + (0xdc00 + (n - 0x10000) % 0x400 - 0xdc00) = n := by omega
        rw [hsum]
      · simp only [Bool.and_eq_true, decide_eq_true_eq]
        omega

private theorem readString_printString {s : CodePoints} (h : s.Joined) (rest : List Char) :
    readString (s.flatMap printChar ++ '"' :: rest) = some (s, rest) := by
  rw [readString, units_flatMap_printChar h.range, Option.map_some]
  dsimp only
  rw [joinSurrogates_flatMap_halves h]

section
variable {depth level : Nat}

/-- A text that is written for a value at a level of indentation, and that is read as the value. -/
structure Reads (depth level : Nat) (j : Json) (t : List Char) : Prop where
  eq : ∀ after, print level after j = t ++ after
  starts : ∃ c cs, t = c :: cs ∧ isSpace c = false ∧ c ≠ ']' ∧ c ≠ '\x7d'
  no_return : '\r' ∉ t
  read : ∀ {fuel after}, Ends after → t.length ≤ fuel → readValue fuel depth (t ++ after) = .ok (j, after)

/-- What begins with no quote and no bracket is a word or a number. -/
theorem readValue_plain {fuel : Nat} {c : Char} {cs : List Char} (hquote : c ≠ '"') (hbracket : c ≠ '[')
    (hbrace : c ≠ '\x7b') :
    readValue (fuel + 1) depth (c :: cs) =
      match readWord (c :: cs) with
      | some word => .ok word
      | none => readNumber (c :: cs) := by
  unfold readValue
  split
  · rename_i heq
    exact absurd (List.cons.inj heq).1 hquote
  · rename_i heq
    exact absurd (List.cons.inj heq).1 hbracket
  · rename_i heq
    exact absurd (List.cons.inj heq).1 hbracket
  · rename_i heq
    exact absurd (List.cons.inj heq).1 hbrace
  · rename_i heq
    exact absurd (List.cons.inj heq).1 hbrace
  · rfl

structure Plain (c : Char) : Prop where
  isSpace : isSpace c = false
  quote : c ≠ '"'
  brackets : c ≠ '[' ∧ c ≠ ']'
  braces : c ≠ '\x7b' ∧ c ≠ '\x7d'

theorem plain_of_isDigit {c : Char} (h : c.isDigit = true) : Plain c := by
  have hne {d : Char} (hd : d.isDigit = false) : c ≠ d := by
    rintro rfl
    rw [h] at hd
    cases hd
  refine ⟨?_, hne rfl, ⟨hne rfl, hne rfl⟩, hne rfl, hne rfl⟩
  simp [Json.isSpace, hne (d := ' ') rfl, hne (d := '\t') rfl, hne (d := '\n') rfl, hne (d := '\r') rfl]

theorem plain_minus : Plain '-' := by
  constructor <;> decide

theorem plain_word {word : String} {j : Json} (h : (word, j) ∈ wordValues) :
    ∃ c cs, word.toList = c :: cs ∧ Plain c ∧ '\r' ∉ c :: cs := by
  simp only [wordValues, List.mem_cons, List.not_mem_nil, or_false, Prod.mk.injEq] at h
  obtain ⟨rfl, -⟩ | ⟨rfl, -⟩ | ⟨rfl, -⟩ | ⟨rfl, -⟩ | ⟨rfl, -⟩ | ⟨rfl, -⟩ := h <;>
    exact ⟨_, _, rfl, by constructor <;> decide, by decide⟩

/-- A text that begins with a plain character, and is read as a word or as a number. -/
private theorem reads_plain {j : Json} {c : Char} {cs : List Char} (hc : Plain c) (hreturn : '\r' ∉ c :: cs)
    (hprint : ∀ after, print level after j = c :: cs ++ after)
    (hread : ∀ after, Ends after → readWord (c :: cs ++ after) = some (j, after) ∨
      readWord (c :: cs ++ after) = none ∧ readNumber (c :: cs ++ after) = .ok (j, after)) :
    Reads depth level j (c :: cs) where
  eq := hprint
  starts := ⟨c, cs, rfl, hc.isSpace, hc.brackets.2, hc.braces.2⟩
  no_return := hreturn
  read {fuel after} hafter hfuel := by
    rw [List.length_cons] at hfuel
    obtain ⟨f, rfl⟩ := Nat.exists_eq_add_of_le' (show 1 ≤ fuel by omega)
    rw [List.cons_append, readValue_plain hc.quote hc.brackets.1 hc.braces.1, ← List.cons_append]
    obtain hword | ⟨hword, hnumber⟩ := hread after hafter
    · rw [hword]
    · rw [hword]
      exact hnumber

private theorem reads_word (word : String) {j : Json} (h : (word, j) ∈ wordValues)
    (hprint : ∀ after, print level after j = word.toList ++ after) : Reads depth level j word.toList := by
  obtain ⟨c, cs, hword, hc, hreturn⟩ := plain_word h
  rw [hword] at hprint ⊢
  refine reads_plain hc hreturn hprint fun after _ => .inl ?_
  rw [← hword]
  exact readWord_append h after

private theorem reads_number (negative : Bool) {t : List Char} {j : Json} (hstart : ∃ c cs, t = c :: cs ∧ c.isDigit = true)
    (hreturn : '\r' ∉ t) (hprint : ∀ after, print level after j = minus negative ++ t ++ after)
    (hread : ∀ after, Ends after → readNumber (minus negative ++ t ++ after) = .ok (j, after)) :
    Reads depth level j (minus negative ++ t) := by
  obtain ⟨c, cs, rfl, hc⟩ := hstart
  have hword (after : List Char) : readWord (minus negative ++ (c :: cs) ++ after) = none := by
    rw [List.append_assoc, List.cons_append]
    exact readWord_minus negative hc (cs ++ after)
  cases negative with
  | false =>
    exact reads_plain (plain_of_isDigit hc) hreturn hprint fun after hafter => .inr ⟨hword after, hread after hafter⟩
  | true =>
    exact reads_plain plain_minus (List.not_mem_cons_of_ne_of_not_mem (by decide) hreturn) hprint
      fun after hafter => .inr ⟨hword after, hread after hafter⟩

private theorem reads_int {n : Int} (hshort : n.natAbs < 10 ^ Literal.maxIntegerDigits) :
    ∃ t, Reads depth level (.int n) t := by
  have hdigits (c : Char) (hc : c ∈ (Decimal.digitText n.natAbs).toList) : c.isDigit = true :=
    Decimal.isDigit_of_mem_digitText hc
  obtain ⟨c, cs, hcs⟩ := List.exists_cons_of_ne_nil (Decimal.digitText_ne_nil n.natAbs)
  refine ⟨_, reads_number (n < 0) ⟨c, cs, hcs, hdigits c (hcs ▸ List.mem_cons_self)⟩
    (fun hmem => absurd (hdigits _ hmem) (by decide)) (fun after => ?_) fun after => readNumber_int hshort⟩
  rw [print, toList_intText]

private theorem reads_float (v : Float) : ∃ t, Reads depth level (.float v) t := by
  obtain ⟨word, hword, htext⟩ | ⟨negative, n, hvalid, htext, hvalue⟩ := float_eq v
  · refine ⟨_, reads_word word hword fun after => ?_⟩
    rw [print, htext]
  · refine ⟨_, reads_number negative hvalid.starts hvalid.not_mem_text (fun after => ?_)
      fun after hafter => ?_⟩
    · rw [print, htext]
    · rw [hvalid.readNumber_text negative hafter, hvalue]

private theorem ofNat_ne_return {n : Nat} (h : 0x20 ≤ n) : '\r' ≠ Char.ofNat n := by
  intro heq
  have hchar : 13 = (Char.ofNat n).toNat := congrArg Char.toNat heq
  by_cases hvalid : n.isValidChar
  · rw [toNat_ofNat hvalid] at hchar
    omega
  · have hnull : Char.ofNat n = '\x00' := dif_neg hvalid
    rw [hnull] at hchar
    cases hchar

private theorem not_mem_unitEscape (n : Nat) : '\r' ∉ unitEscape n := by
  have hdigit (k : Nat) : '\r' ≠ hexDigit k := ofNat_ne_return (by split <;> omega)
  simp [unitEscape, hdigit]

private theorem not_mem_printChar (n : Nat) : '\r' ∉ printChar n := by
  obtain ⟨e, htext, -, -, -, he⟩ | ⟨htext, hlow, -⟩ | ⟨htext, -⟩ | ⟨htext, -⟩ := printChar_cases n
  · rw [htext, List.mem_cons, List.mem_singleton, not_or]
    exact ⟨by decide, he.symm⟩
  · rw [htext, List.mem_singleton]
    exact ofNat_ne_return hlow
  · rw [htext]
    exact not_mem_unitEscape n
  · rw [htext]
    exact List.not_mem_append (not_mem_unitEscape _) (not_mem_unitEscape _)

private theorem not_mem_printString (s : CodePoints) : '\r' ∉ printString s := by
  rw [printString, List.mem_append, List.mem_cons, List.mem_flatMap]
  rintro ((hquote | ⟨n, -, hn⟩) | hquote)
  · cases hquote
  · exact not_mem_printChar n hn
  · cases List.mem_singleton.mp hquote

private theorem reads_str {s : CodePoints} (h : s.Joined) : Reads depth level (.str s) (printString s) where
  eq _ := rfl
  starts := ⟨'"', _, rfl, by decide, by decide, by decide⟩
  no_return := not_mem_printString s
  read {fuel after} _ hfuel := by
    rw [printString, List.cons_append, List.length_cons] at hfuel
    obtain ⟨f, rfl⟩ := Nat.exists_eq_add_of_le' (show 1 ≤ fuel by omega)
    rw [printString, List.cons_append, List.cons_append, List.append_assoc, List.singleton_append, readValue,
      readString_printString h]
    rfl

private theorem skip_newLine (level : Nat) {c : Char} (hc : isSpace c = false) (cs : List Char) :
    skip (newLine level ++ c :: cs) = c :: cs := by
  have hblank (b : Char) (hb : b ∈ newLine level) : isSpace b = true := by
    obtain rfl | hb := List.mem_cons.mp hb
    · rfl
    · rw [List.eq_of_mem_replicate hb]
      rfl
  rw [skip, List.dropWhile_append_of_pos hblank, List.dropWhile_cons_of_neg (by simp [hc])]

theorem skip_of_not_space {c : Char} (hc : isSpace c = false) (cs : List Char) : skip (c :: cs) = c :: cs := by
  rw [skip, List.dropWhile_cons_of_neg (by simp [hc])]

private theorem newLine_no_return (level : Nat) : '\r' ∉ newLine level := by
  refine List.not_mem_cons_of_ne_of_not_mem (by decide) fun hmem => ?_
  cases List.eq_of_mem_replicate hmem

private theorem comma_no_return (level : Nat) : '\r' ∉ ',' :: newLine level :=
  List.not_mem_cons_of_ne_of_not_mem (by decide) (newLine_no_return level)

/-- Parts between brackets, on lines of their own. -/
private theorem enclosed_no_return (level : Nat) {opening closing : Char} (hopening : '\r' ≠ opening) (hclosing : '\r' ≠ closing)
    {t : List Char} (ht : '\r' ∉ t) : '\r' ∉ opening :: newLine (level + 1) ++ t ++ (newLine level ++ [closing]) := by
  have hopened := List.not_mem_cons_of_ne_of_not_mem hopening (newLine_no_return (level + 1))
  have hclosed := List.not_mem_append (newLine_no_return level) (List.not_mem_cons_of_ne_of_not_mem hclosing List.not_mem_nil)
  exact List.not_mem_append (List.not_mem_append hopened ht) hclosed

private theorem field_no_return (key : CodePoints) {t : List Char} (ht : '\r' ∉ t) : '\r' ∉ printString key ++ ':' :: ' ' :: t := by
  have hcolon := List.not_mem_cons_of_ne_of_not_mem (y := ' ') (by decide) ht
  exact List.not_mem_append (not_mem_printString key) (List.not_mem_cons_of_ne_of_not_mem (by decide) hcolon)

private theorem ends_newLine (level : Nat) (after : List Char) : Ends (newLine level ++ after) :=
  fun _ hc => .inr (Option.some.inj hc).symm

private theorem putField_of_not_mem {fields : List (CodePoints × Json)} {key : CodePoints} (h : key ∉ fields.map Prod.fst)
    (value : Json) : putField fields key value = fields ++ [(key, value)] := by
  induction fields with
  | nil => rfl
  | cons field fields ih =>
    rw [List.map_cons, List.mem_cons, not_or] at h
    rw [putField, if_neg (Ne.symm h.1), ih h.2]
    rfl

/-- Fields of which no two have the same key are kept. -/
private theorem ofFields_of_nodup {fields : List (CodePoints × Json)} (h : (fields.map Prod.fst).Nodup) :
    ofFields fields = .obj fields := by
  have hfold (later kept : List (CodePoints × Json)) (h : ((kept ++ later).map Prod.fst).Nodup) :
      later.foldl (fun fs field => putField fs field.1 field.2) kept = kept ++ later := by
    induction later generalizing kept with
    | nil => exact (List.append_nil kept).symm
    | cons field later ih =>
      have hnew : field.1 ∉ kept.map Prod.fst := fun hmem => by
        rw [List.map_append, List.nodup_append] at h
        exact h.2.2 _ hmem _ List.mem_cons_self rfl
      rw [List.foldl_cons, putField_of_not_mem hnew, ih _ (by simpa using h), List.append_assoc]
      rfl
  rw [ofFields, hfold fields [] h]
  rfl

structure ReadsItems (depth level : Nat) (x : Json) (xs : List Json) (t : List Char) : Prop where
  eq : ∀ after, print level (printItems level after xs) x = t ++ after
  starts : ∃ c cs, t = c :: cs ∧ isSpace c = false ∧ c ≠ ']'
  no_return : '\r' ∉ t
  read : ∀ {fuel close after}, t.length < fuel →
    readItems fuel depth (t ++ (newLine close ++ ']' :: after)) = .ok (x :: xs, after)

private theorem reads_items {x : Json} {xs : List Json} (h : ∀ item ∈ x :: xs, ∃ t, Reads depth level item t) :
    ∃ t, ReadsItems depth level x xs t := by
  induction xs generalizing x with
  | nil =>
    obtain ⟨t, ht⟩ := h x List.mem_cons_self
    obtain ⟨c, cs, hcs, hspace, hbracket, -⟩ := ht.starts
    refine ⟨t, ht.eq, ⟨c, cs, hcs, hspace, hbracket⟩, ht.no_return, fun {fuel close after} hfuel => ?_⟩
    obtain ⟨f, rfl⟩ := Nat.exists_eq_add_of_le' (show 1 ≤ fuel by omega)
    rw [readItems, ht.read (ends_newLine close _) (by omega)]
    dsimp only
    rw [skip_newLine close rfl]
    rfl
  | cons y ys ih =>
    obtain ⟨t, ht⟩ := h x List.mem_cons_self
    obtain ⟨later, hlater⟩ := ih fun item hitem => h item (List.mem_cons_of_mem x hitem)
    obtain ⟨c, cs, hcs, hspace, hbracket, -⟩ := ht.starts
    obtain ⟨d, ds, hds, hspace', -⟩ := hlater.starts
    refine ⟨t ++ ',' :: newLine level ++ later, fun after => ?_,
      ⟨c, cs ++ ',' :: newLine level ++ later, ?_, hspace, hbracket⟩, ?_, fun {fuel close after} hfuel => ?_⟩
    · rw [ht.eq, printItems, hlater.eq]
      simp only [List.append_assoc, List.cons_append]
    · rw [hcs]
      rfl
    · exact List.not_mem_append (List.not_mem_append ht.no_return (comma_no_return level)) hlater.no_return
    · obtain ⟨f, rfl⟩ := Nat.exists_eq_add_of_le' (show 1 ≤ fuel by omega)
      simp only [List.length_append, List.length_cons] at hfuel
      have hends : Ends (',' :: newLine level ++ (later ++ (newLine close ++ ']' :: after))) :=
        fun _ hc => .inl (Option.some.inj hc).symm
      rw [List.append_assoc, List.append_assoc, readItems, ht.read hends (by omega)]
      dsimp only
      rw [List.cons_append, skip_of_not_space rfl]
      change (readItems f depth (skip (newLine level ++ (later ++ (newLine close ++ ']' :: after))))).map
        (fun read => (x :: read.1, read.2)) = _
      rw [hds, List.cons_append, skip_newLine level hspace', ← List.cons_append, ← hds, hlater.read (by omega)]
      rfl

/-- A field is read up to what stands behind its value. -/
private theorem readFields_succ {key : CodePoints} (hkey : key.Joined) {x : Json} {t : List Char} (ht : Reads depth level x t)
    {fuel : Nat} (hfuel : t.length ≤ fuel) {rest : List Char} (hrest : Ends rest) :
    readFields (fuel + 1) depth (printString key ++ ':' :: ' ' :: t ++ rest) =
      match skip rest with
      | '\x7d' :: after => .ok ([(key, x)], after)
      | ',' :: next => (readFields fuel depth (skip next)).map fun (fields, after) => ((key, x) :: fields, after)
      | _ => .error .malformed := by
  obtain ⟨c, cs, hcs, hspace, -⟩ := ht.starts
  have hvalue : skip (' ' :: (t ++ rest)) = t ++ rest := by
    rw [hcs, List.cons_append]
    exact skip_of_not_space hspace _
  rw [printString, List.cons_append, List.cons_append, List.cons_append, List.append_assoc, List.append_assoc, readFields]
  simp only [List.cons_append, List.nil_append]
  rw [readString_printString hkey]
  dsimp only
  rw [skip_of_not_space rfl]
  split
  · rename_i afterColon heq
    obtain rfl := (List.cons.inj heq).2
    rewrite [hvalue, ht.read hrest hfuel]
    rfl
  · rename_i hcolon
    exact absurd rfl (hcolon _)

structure ReadsFields (depth level : Nat) (key : CodePoints) (x : Json) (fields : List (CodePoints × Json))
    (t : List Char) : Prop where
  eq : ∀ after, printString key ++ ':' :: ' ' :: print level (printFields level after fields) x = t ++ after
  starts : ∃ cs, t = '"' :: cs
  no_return : '\r' ∉ t
  read : ∀ {fuel close after}, t.length < fuel →
    readFields fuel depth (t ++ (newLine close ++ '\x7d' :: after)) = .ok ((key, x) :: fields, after)

private theorem reads_fields {key : CodePoints} {x : Json} {fields : List (CodePoints × Json)}
    (keys : ∀ field ∈ (key, x) :: fields, field.1.Joined)
    (h : ∀ field ∈ (key, x) :: fields, ∃ t, Reads depth level field.2 t) :
    ∃ t, ReadsFields depth level key x fields t := by
  induction fields generalizing key x with
  | nil =>
    have hkey := keys _ List.mem_cons_self
    obtain ⟨t, ht⟩ := h _ List.mem_cons_self
    refine ⟨printString key ++ ':' :: ' ' :: t, fun after => ?_, ⟨_, rfl⟩, ?_, fun {fuel close after} hfuel => ?_⟩
    · rw [ht.eq, printFields, List.append_assoc]
      rfl
    · exact field_no_return key ht.no_return
    · simp only [List.length_append, List.length_cons] at hfuel
      obtain ⟨f, rfl⟩ := Nat.exists_eq_add_of_le' (show 1 ≤ fuel by omega)
      rw [readFields_succ hkey ht (by omega) (ends_newLine close _), skip_newLine close rfl]
      rfl
  | cons field fields ih =>
    obtain ⟨key', y⟩ := field
    have hkey := keys _ List.mem_cons_self
    obtain ⟨t, ht⟩ := h _ List.mem_cons_self
    obtain ⟨later, hlater⟩ := ih (fun field hfield => keys field (List.mem_cons_of_mem _ hfield))
      fun field hfield => h field (List.mem_cons_of_mem _ hfield)
    obtain ⟨cs, hcs⟩ := hlater.starts
    refine ⟨printString key ++ ':' :: ' ' :: t ++ ',' :: newLine level ++ later, fun after => ?_, ⟨_, rfl⟩, ?_,
      fun {fuel close after} hfuel => ?_⟩
    · rw [ht.eq, printFields, List.append_assoc (',' :: newLine level), hlater.eq]
      simp only [List.append_assoc, List.cons_append]
    · have hfield := field_no_return key ht.no_return
      exact List.not_mem_append (List.not_mem_append hfield (comma_no_return level)) hlater.no_return
    · simp only [List.length_append, List.length_cons] at hfuel
      obtain ⟨f, rfl⟩ := Nat.exists_eq_add_of_le' (show 1 ≤ fuel by omega)
      have hends : Ends (',' :: newLine level ++ (later ++ (newLine close ++ '\x7d' :: after))) :=
        fun _ hc => .inl (Option.some.inj hc).symm
      rw [List.append_assoc, List.append_assoc, readFields_succ hkey ht (by omega) hends, List.cons_append,
        skip_of_not_space rfl]
      change (readFields f depth (skip (newLine level ++ (later ++ (newLine close ++ '\x7d' :: after))))).map
        (fun read => ((key, x) :: read.1, read.2)) = _
      rw [hcs, List.cons_append, skip_newLine level rfl, ← List.cons_append, ← hcs, hlater.read (by omega)]
      rfl

private theorem reads_arr_nil : Reads (depth + 1) level (.arr []) ['[', ']'] where
  eq _ := rfl
  starts := ⟨'[', [']'], rfl, by decide, by decide, by decide⟩
  no_return := by decide
  read {fuel after} _ hfuel := by
    obtain ⟨f, rfl⟩ := Nat.exists_eq_add_of_le' (show 1 ≤ fuel from Nat.le_of_succ_le hfuel)
    rfl

private theorem reads_arr_cons {x : Json} {xs : List Json} {t : List Char} (ht : ReadsItems depth (level + 1) x xs t) :
    Reads (depth + 1) level (.arr (x :: xs)) ('[' :: newLine (level + 1) ++ t ++ (newLine level ++ [']'])) where
  eq after := by
    rw [print, ht.eq]
    simp only [List.append_assoc, List.cons_append, List.nil_append]
  starts := ⟨'[', _, rfl, by decide, by decide, by decide⟩
  no_return := enclosed_no_return level (by decide) (by decide) ht.no_return
  read {fuel after} _ hfuel := by
    simp only [List.length_append, List.length_cons] at hfuel
    obtain ⟨f, rfl⟩ := Nat.exists_eq_add_of_le' (show 1 ≤ fuel by omega)
    obtain ⟨c, cs, hcs, hspace, hbracket⟩ := ht.starts
    have hskip (rest : List Char) : skip (newLine (level + 1) ++ (t ++ rest)) = t ++ rest := by
      rw [hcs, List.cons_append]
      exact skip_newLine _ hspace _
    have hitems : readItems f depth (t ++ (newLine level ++ ']' :: after)) = .ok (x :: xs, after) := ht.read (by omega)
    simp only [List.append_assoc, List.cons_append, List.nil_append]
    rw [readValue, hskip]
    split
    · rename_i heq
      rw [hcs] at heq
      exact absurd (List.cons.inj heq).1 hbracket
    · rw [hitems]
      rfl

private theorem reads_obj_nil : Reads (depth + 1) level (.obj []) ['\x7b', '\x7d'] where
  eq _ := rfl
  starts := ⟨'\x7b', ['\x7d'], rfl, by decide, by decide, by decide⟩
  no_return := by decide
  read {fuel after} _ hfuel := by
    obtain ⟨f, rfl⟩ := Nat.exists_eq_add_of_le' (show 1 ≤ fuel from Nat.le_of_succ_le hfuel)
    rfl

private theorem reads_obj_cons {key : CodePoints} {x : Json} {fields : List (CodePoints × Json)} {t : List Char}
    (ht : ReadsFields depth (level + 1) key x fields t) (nodup : (((key, x) :: fields).map Prod.fst).Nodup) :
    Reads (depth + 1) level (.obj ((key, x) :: fields))
      ('\x7b' :: newLine (level + 1) ++ t ++ (newLine level ++ ['\x7d'])) where
  eq after := by
    rw [print, List.append_assoc, ht.eq]
    simp only [List.append_assoc, List.cons_append, List.nil_append]
  starts := ⟨'\x7b', _, rfl, by decide, by decide, by decide⟩
  no_return := enclosed_no_return level (by decide) (by decide) ht.no_return
  read {fuel after} _ hfuel := by
    simp only [List.length_append, List.length_cons] at hfuel
    obtain ⟨f, rfl⟩ := Nat.exists_eq_add_of_le' (show 1 ≤ fuel by omega)
    obtain ⟨cs, hcs⟩ := ht.starts
    have hskip (rest : List Char) : skip (newLine (level + 1) ++ (t ++ rest)) = t ++ rest := by
      rw [hcs, List.cons_append]
      exact skip_newLine _ rfl _
    have hfields : readFields f depth (t ++ (newLine level ++ '\x7d' :: after)) = .ok ((key, x) :: fields, after) :=
      ht.read (by omega)
    simp only [List.append_assoc, List.cons_append, List.nil_append]
    rw [readValue, hskip]
    split
    · rename_i heq
      rw [hcs] at heq
      cases (List.cons.inj heq).1
    · rw [hfields]
      simp only [Except.map, ofFields_of_nodup nodup]

/-- Every legible value is written as a text that is read as the value. -/
private theorem Legible.reads {j : Json} (h : Legible depth j) (level : Nat) : ∃ t, Reads depth level j t := by
  induction h generalizing level with
  | null => exact ⟨_, reads_word "null" (by simp [wordValues]) fun _ => rfl⟩
  | bool b =>
    cases b with
    | true => exact ⟨_, reads_word "true" (by simp [wordValues]) fun _ => rfl⟩
    | false => exact ⟨_, reads_word "false" (by simp [wordValues]) fun _ => rfl⟩
  | int short => exact reads_int short
  | float v => exact reads_float v
  | str joined => exact ⟨_, reads_str joined⟩
  | @arr depth items each ih =>
    cases items with
    | nil => exact ⟨_, reads_arr_nil⟩
    | cons x xs =>
      obtain ⟨t, ht⟩ := reads_items fun item hitem => ih item hitem (level + 1)
      exact ⟨_, reads_arr_cons ht⟩
  | @obj depth fields keys each nodup ih =>
    cases fields with
    | nil => exact ⟨_, reads_obj_nil⟩
    | cons field fields =>
      obtain ⟨key, x⟩ := field
      obtain ⟨t, ht⟩ := reads_fields keys fun field hfield => ih field hfield (level + 1)
      exact ⟨_, reads_obj_cons ht nodup⟩

end

/-- The text of a legible value is read as the value, and has no carriage return. -/
theorem Legible.read_print {j : Json} (h : Legible maxDepth j) : read (print 0 [] j) = .ok j ∧ '\r' ∉ print 0 [] j := by
  obtain ⟨t, ht⟩ := h.reads 0
  obtain ⟨c, cs, hcs, hspace, -⟩ := ht.starts
  have hvalue : readValue (2 * t.length + 2) maxDepth (t ++ []) = .ok (j, []) := ht.read nofun (by omega)
  have hskip : skip t = t := by
    rw [hcs]
    exact skip_of_not_space hspace cs
  rw [ht.eq, List.append_nil] at *
  refine ⟨?_, ht.no_return⟩
  rw [read, hskip, hvalue]
  rfl

end Json

end WireCut
