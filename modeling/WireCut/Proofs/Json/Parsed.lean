import WireCut.Proofs.Json.Grammar

/-! The reader reads exactly the texts of the grammar, within its limits. -/
namespace WireCut

namespace Json
open Literal

private theorem blank_skip (cs : List Char) : Blank cs (skip cs) := by
  induction cs with
  | nil => exact .none []
  | cons c cs ih =>
    cases hc : isSpace c with
    | true =>
      rw [skip, List.dropWhile_cons_of_pos hc]
      exact .more hc ih
    | false =>
      rw [skip_of_not_space hc]
      exact .none _

private theorem readWord_eq_some {cs rest : List Char} {v : Json} (h : readWord cs = some (v, rest)) :
    ∃ word, (word, v) ∈ wordValues ∧ cs = word.toList ++ rest := by
  obtain ⟨⟨word, value⟩, hmem, hvalue⟩ := List.exists_of_findSome?_eq_some h
  obtain ⟨after, hafter, heq⟩ := Option.map_eq_some_iff.mp hvalue
  cases heq
  rw [after?] at hafter
  split at hafter
  · rename_i hstart
    cases hafter
    obtain ⟨tail, rfl⟩ := List.isPrefixOf_iff_prefix.mp hstart
    exact ⟨word, hmem, by rw [← String.length_toList, List.drop_left]⟩
  · cases hafter

structure ReadersSound (fuel : Nat) : Prop where
  value : ∀ {depth cs v rest}, readValue fuel depth cs = .ok (v, rest) →
    Spells (· ≤ maxIntegerDigits) cs (.value v) rest
  items : ∀ {depth cs vs rest}, readItems fuel depth cs = .ok (vs, rest) →
    Spells (· ≤ maxIntegerDigits) cs (.items vs) rest
  fields : ∀ {depth cs fs rest}, readFields fuel depth cs = .ok (fs, rest) →
    Spells (· ≤ maxIntegerDigits) cs (.fields fs) rest

namespace ReadersSound
variable {fuel depth : Nat} {cs rest : List Char}

private theorem value_succ (h : ReadersSound fuel) {v : Json} (hv : readValue (fuel + 1) depth cs = .ok (v, rest)) :
    Spells (· ≤ maxIntegerDigits) cs (.value v) rest := by
  unfold readValue at hv
  split at hv
  · obtain ⟨⟨s, after⟩, hs, heq⟩ := map_eq_ok hv
    cases heq
    rename_i text
    cases hread : readString text with
    | none =>
      rw [hread] at hs
      cases hs
    | some read =>
      rw [hread] at hs
      cases hs
      obtain ⟨t, us, ht, rfl, rfl⟩ := readString_iff.mp hread
      exact .str ht rest
  · cases hv
  · rename_i inner
    have hblank := blank_skip inner
    split at hv
    · rename_i hskip
      rw [hskip] at hblank
      cases hv
      exact .noItems hblank
    · obtain ⟨⟨items, after⟩, hitems, heq⟩ := map_eq_ok hv
      cases heq
      exact .arr hblank (h.items hitems)
  · cases hv
  · rename_i inner
    have hblank := blank_skip inner
    split at hv
    · rename_i hskip
      rw [hskip] at hblank
      cases hv
      exact .noFields hblank
    · obtain ⟨⟨fields, after⟩, hfields, heq⟩ := map_eq_ok hv
      cases heq
      exact .obj hblank (h.fields hfields)
  · split at hv
    · rename_i hword
      cases hv
      obtain ⟨word, hmem, rfl⟩ := readWord_eq_some hword
      exact .word hmem rest
    · obtain ⟨t, ht, rfl⟩ := numberText_of_readNumber hv
      exact .number ht rest

private theorem items_succ (h : ReadersSound fuel) {vs : List Json} (hitems : readItems (fuel + 1) depth cs = .ok (vs, rest)) :
    Spells (· ≤ maxIntegerDigits) cs (.items vs) rest := by
  unfold readItems at hitems
  split at hitems
  · cases hitems
  · rename_i v afterValue hvalue
    have hblank := blank_skip afterValue
    split at hitems
    · rename_i hskip
      rw [hskip] at hblank
      cases hitems
      exact .lastItem (h.value hvalue) hblank
    · rename_i hskip
      rw [hskip] at hblank
      obtain ⟨⟨later, after⟩, hlater, heq⟩ := map_eq_ok hitems
      cases heq
      exact .item (h.value hvalue) hblank (blank_skip _) (h.items hlater)
    · cases hitems

private theorem fields_succ (h : ReadersSound fuel) {fs : List (CodePoints × Json)}
    (hfields : readFields (fuel + 1) depth cs = .ok (fs, rest)) : Spells (· ≤ maxIntegerDigits) cs (.fields fs) rest := by
  unfold readFields at hfields
  split at hfields
  · split at hfields
    · cases hfields
    · rename_i key afterKey hkey
      obtain ⟨t, us, ht, rfl, rfl⟩ := readString_iff.mp hkey
      have hcolon := blank_skip afterKey
      split at hfields
      · rename_i afterColon hskip
        rw [hskip] at hcolon
        split at hfields
        · cases hfields
        · rename_i v afterValue hvalue
          have hfirst := KeyText.key ht hcolon (blank_skip afterColon)
          have hblank := blank_skip afterValue
          split at hfields
          · rename_i hskip
            rw [hskip] at hblank
            cases hfields
            exact .lastField hfirst (h.value hvalue) hblank
          · rename_i hskip
            rw [hskip] at hblank
            obtain ⟨⟨later, after⟩, hlater, heq⟩ := map_eq_ok hfields
            cases heq
            exact .field hfirst (h.value hvalue) hblank (blank_skip _) (h.fields hlater)
          · cases hfields
      · cases hfields
  · cases hfields

/-- The calls of the readers are followed down their fuel. -/
private theorem all (fuel : Nat) : ReadersSound fuel := by
  induction fuel with
  | zero => exact ⟨nofun, nofun, nofun⟩
  | succ fuel ih => exact ⟨ih.value_succ, ih.items_succ, ih.fields_succ⟩

end ReadersSound

/-- A text that is read as a value is one of the value, and its integers are not long. -/
theorem text_of_read {cs : List Char} {v : Json} (h : read cs = .ok v) : Text (· ≤ maxIntegerDigits) cs v := by
  rw [read] at h
  split at h
  · rename_i rest hvalue
    split at h
    · rename_i hend
      cases h
      refine ⟨_, rest, blank_skip cs, (ReadersSound.all _).value hvalue, ?_⟩
      exact List.isEmpty_iff.mp hend ▸ blank_skip rest
    · cases h
  · cases h

variable {short : Nat → Prop} {cs rest : List Char}

private theorem Blank.length_le (h : Blank cs rest) : rest.length ≤ cs.length := by
  induction h with
  | none => exact Nat.le_refl _
  | more _ _ ih => exact Nat.le_succ_of_le ih

private theorem Blank.skip_eq (h : Blank cs rest) (hrest : ∀ c ∈ rest.head?, isSpace c = false) : skip cs = rest := by
  induction h with
  | none cs =>
    cases cs with
    | nil => rfl
    | cons c cs => exact skip_of_not_space (hrest c rfl) cs
  | more space _ ih =>
    rw [skip, List.dropWhile_cons_of_pos space]
    exact ih hrest

/-- What stands behind blanks if it is no space. -/
private theorem Blank.skip_cons {c : Char} (h : Blank cs (c :: rest)) (hc : isSpace c = false) : skip cs = c :: rest := by
  refine h.skip_eq ?_
  rintro _ ⟨⟩
  exact hc

private theorem Blank.skip_nil (h : Blank cs []) : skip cs = [] :=
  h.skip_eq nofun

private theorem NumberText.starts {v : Json} (h : NumberText short cs v) : ∃ c t, cs = c :: t ∧ Plain c := by
  have hwhole {ws : List Char} {ns : List Nat} (negative : Bool) (whole : WholeText ws ns) (later : List Char) :
      ∃ c t, minus negative ++ (ws ++ later) = c :: t ∧ Plain c := by
    obtain ⟨c, t, rfl⟩ := List.exists_cons_of_ne_nil whole.ne
    have hdigit := (digits_iff.mp whole.digits).1 c List.mem_cons_self
    cases negative with
    | false => exact ⟨c, t ++ later, rfl, plain_of_isDigit hdigit⟩
    | true => exact ⟨'-', c :: t ++ later, rfl, plain_minus⟩
  cases h with
  | int negative whole =>
    have h := hwhole negative whole []
    rwa [List.append_nil] at h
  | float negative whole => exact hwhole negative whole _

/-- A number does not begin with a word. -/
theorem NumberText.readWord {v : Json} (h : NumberText short cs v) (rest : List Char) :
    Json.readWord (cs ++ rest) = none := by
  have hwhole {ws : List Char} {ns : List Nat} (negative : Bool) (whole : WholeText ws ns) (later : List Char) :
      Json.readWord (minus negative ++ (ws ++ later)) = none := by
    obtain ⟨c, t, rfl⟩ := List.exists_cons_of_ne_nil whole.ne
    exact readWord_minus negative ((digits_iff.mp whole.digits).1 c List.mem_cons_self) (t ++ later)
  cases h with
  | int negative whole =>
    rw [List.append_assoc]
    exact hwhole negative whole rest
  | float negative whole =>
    rw [List.append_assoc, List.append_assoc]
    exact hwhole negative whole _

/-- A part begins with a character that is no space and closes nothing. -/
private theorem Spells.starts {part : Part} (h : Spells short cs part rest) :
    ∃ c t, cs = c :: t ∧ isSpace c = false ∧ c ≠ ']' ∧ c ≠ '\x7d' := by
  induction h with
  | word known =>
    obtain ⟨c, t, hword, hc, -⟩ := plain_word known
    exact ⟨c, t ++ _, by rw [hword]; rfl, hc.isSpace, hc.brackets.2, hc.braces.2⟩
  | number number =>
    obtain ⟨c, t, rfl, hc⟩ := number.starts
    exact ⟨c, t ++ _, rfl, hc.isSpace, hc.brackets.2, hc.braces.2⟩
  | str => exact ⟨_, _, rfl, by decide, by decide, by decide⟩
  | noItems => exact ⟨_, _, rfl, by decide, by decide, by decide⟩
  | arr => exact ⟨_, _, rfl, by decide, by decide, by decide⟩
  | noFields => exact ⟨_, _, rfl, by decide, by decide, by decide⟩
  | obj => exact ⟨_, _, rfl, by decide, by decide, by decide⟩
  | lastItem _ _ ih => exact ih
  | item _ _ _ _ ih => exact ih
  | lastField key =>
    cases key
    exact ⟨_, _, rfl, by decide, by decide, by decide⟩
  | field key =>
    cases key
    exact ⟨_, _, rfl, by decide, by decide, by decide⟩

private theorem KeyText.length_lt {key : CodePoints} (h : KeyText cs key rest) : rest.length < cs.length := by
  cases h with
  | key _ colon blank =>
    have hcolon := colon.length_le
    have hblank := blank.length_le
    simp only [List.length_cons, List.length_append] at hcolon ⊢
    omega

private theorem Spells.length_le {part : Part} (h : Spells short cs part rest) : rest.length ≤ cs.length := by
  induction h with
  | word | number | str =>
    simp only [List.length_append, List.length_cons]
    omega
  | noItems close | noFields close =>
    have := close.length_le
    simp only [List.length_cons] at this ⊢
    omega
  | arr blank _ ih | obj blank _ ih =>
    have := blank.length_le
    simp only [List.length_cons]
    omega
  | lastItem _ close ih =>
    have := close.length_le
    simp only [List.length_cons] at this
    omega
  | item _ comma blank _ ih ih' =>
    have := comma.length_le
    have := blank.length_le
    simp only [List.length_cons] at *
    omega
  | lastField key _ close ih =>
    have := key.length_lt
    have := close.length_le
    simp only [List.length_cons] at *
    omega
  | field key _ comma blank _ ih ih' =>
    have := key.length_lt
    have := comma.length_le
    have := blank.length_le
    simp only [List.length_cons] at *
    omega

/-- The reader of a part gives it, with fuel for the whole text. A value is followed by what is no part of a number. -/
def Part.IsRead (short : Nat → Prop) (cs rest : List Char) : Part → Prop
  | .value v => ∀ {fuel depth}, 2 * cs.length < fuel → Stops rest → Gives short (readValue fuel depth cs) (v, rest)
  | .items vs => ∀ {fuel depth}, 2 * cs.length + 1 < fuel → Gives short (readItems fuel depth cs) (vs, rest)
  | .fields fs => ∀ {fuel depth}, 2 * cs.length + 1 < fuel → Gives short (readFields fuel depth cs) (fs, rest)

namespace Part
variable {first after afterComma next : List Char} {v : Json} {vs : List Json} {k : CodePoints}
  {fs : List (CodePoints × Json)}

/-- A word or a number is read as by its own reader. -/
private theorem isRead_plain {c : Char} {t : List Char} (hc : Plain c)
    (h : Stops rest → readWord (c :: t) = some (v, rest) ∨
      readWord (c :: t) = none ∧ Gives short (readNumber (c :: t)) (v, rest)) :
    (value v).IsRead short (c :: t) rest := by
  intro fuel depth hfuel hrest
  obtain ⟨f, rfl⟩ := Nat.exists_eq_add_of_le' (show 1 ≤ fuel by omega)
  rw [readValue_plain hc.quote hc.brackets.1 hc.braces.1]
  obtain hword | ⟨hword, hnumber⟩ := h hrest
  · rw [hword]
    exact .ok rfl
  · rw [hword]
    exact hnumber

private theorem isRead_str {t : List Char} {us : CodePoints} (quoted : Quoted t us) (rest : List Char) :
    (value (.str (joinSurrogates us))).IsRead short ('"' :: (t ++ '"' :: rest)) rest := by
  intro fuel depth hfuel _
  obtain ⟨f, rfl⟩ := Nat.exists_eq_add_of_le' (show 1 ≤ fuel by omega)
  rw [readValue, readString_iff.mpr ⟨t, us, quoted, rfl, rfl⟩]
  exact .ok rfl

private theorem isRead_noItems (close : Blank cs (']' :: rest)) : (value (.arr [])).IsRead short ('[' :: cs) rest := by
  intro fuel depth hfuel _
  obtain ⟨f, rfl⟩ := Nat.exists_eq_add_of_le' (show 1 ≤ fuel by omega)
  cases depth with
  | zero => exact .beyond rfl (.tooDeep .array)
  | succ depth =>
    rw [readValue, close.skip_cons (by decide)]
    exact .ok rfl

private theorem isRead_noFields (close : Blank cs ('\x7d' :: rest)) : (value (ofFields [])).IsRead short ('\x7b' :: cs) rest := by
  intro fuel depth hfuel _
  obtain ⟨f, rfl⟩ := Nat.exists_eq_add_of_le' (show 1 ≤ fuel by omega)
  cases depth with
  | zero => exact .beyond rfl (.tooDeep .object)
  | succ depth =>
    rw [readValue, close.skip_cons (by decide)]
    exact .ok rfl

private theorem isRead_arr (blank : Blank cs first) (each : Spells short first (.items vs) rest)
    (ih : (items vs).IsRead short first rest) : (value (.arr vs)).IsRead short ('[' :: cs) rest := by
  intro fuel depth hfuel _
  obtain ⟨f, rfl⟩ := Nat.exists_eq_add_of_le' (show 1 ≤ fuel by omega)
  cases depth with
  | zero => exact .beyond rfl (.tooDeep .array)
  | succ depth =>
    have hlength := blank.length_le
    rw [List.length_cons] at hfuel
    obtain ⟨c, t, rfl, hc, hclose, -⟩ := each.starts
    have hitems : Gives short (readItems f depth (c :: t)) (vs, rest) := ih (by omega)
    rw [readValue, blank.skip_cons hc]
    split
    · rename_i heq
      exact absurd (List.cons.inj heq).1 hclose
    · exact hitems.map _

/-- The fields of an object are read behind its brace. -/
theorem readValue_obj (blank : Blank cs first) (each : Spells short first (.fields fs) rest) (fuel depth : Nat) :
    readValue (fuel + 1) (depth + 1) ('\x7b' :: cs) =
      (readFields fuel depth first).map fun (fs, rest) => (ofFields fs, rest) := by
  obtain ⟨c, t, rfl, hc, -, hclose⟩ := each.starts
  rw [readValue, blank.skip_cons hc]
  split
  · rename_i heq
    exact absurd (List.cons.inj heq).1 hclose
  · rfl

private theorem isRead_obj (blank : Blank cs first) (each : Spells short first (.fields fs) rest)
    (ih : (fields fs).IsRead short first rest) : (value (ofFields fs)).IsRead short ('\x7b' :: cs) rest := by
  intro fuel depth hfuel _
  obtain ⟨f, rfl⟩ := Nat.exists_eq_add_of_le' (show 1 ≤ fuel by omega)
  cases depth with
  | zero => exact .beyond rfl (.tooDeep .object)
  | succ depth =>
    have hlength := blank.length_le
    rw [List.length_cons] at hfuel
    have hfields : Gives short (readFields f depth first) (fs, rest) := ih (by omega)
    rw [readValue_obj blank each]
    exact hfields.map _

private theorem isRead_lastItem (close : Blank after (']' :: rest)) (ih : (value v).IsRead short cs after) :
    (items [v]).IsRead short cs rest := by
  intro fuel depth hfuel
  obtain ⟨f, rfl⟩ := Nat.exists_eq_add_of_le' (show 1 ≤ fuel by omega)
  have hvalue : Gives short (readValue f depth cs) (v, after) := ih (by omega) (.of_blank close (by decide))
  rw [readItems]
  cases hvalue with
  | ok eq =>
    rw [eq]
    dsimp only
    rw [close.skip_cons (by decide)]
    exact .ok rfl
  | beyond eq limit =>
    rw [eq]
    exact .beyond rfl limit

private theorem isRead_item (value : Spells short cs (.value v) after) (comma : Blank after (',' :: afterComma))
    (blank : Blank afterComma next) (later : Spells short next (.items vs) rest)
    (ih : (Part.value v).IsRead short cs after) (ih' : (items vs).IsRead short next rest) :
    (items (v :: vs)).IsRead short cs rest := by
  intro fuel depth hfuel
  obtain ⟨f, rfl⟩ := Nat.exists_eq_add_of_le' (show 1 ≤ fuel by omega)
  have hvalue : Gives short (readValue f depth cs) (v, after) := ih (by omega) (.of_blank comma (by decide))
  have hlater : Gives short (readItems f depth next) (vs, rest) := by
    have hafter := value.length_le
    have hcomma := comma.length_le
    have hblank := blank.length_le
    rw [List.length_cons] at hcomma
    exact ih' (by omega)
  obtain ⟨c, t, rfl, hc, -⟩ := later.starts
  rw [readItems]
  cases hvalue with
  | ok eq =>
    rw [eq]
    dsimp only
    rw [comma.skip_cons (by decide)]
    change Gives short ((readItems f depth (skip afterComma)).map fun read => (v :: read.1, read.2)) _
    rw [blank.skip_cons hc]
    exact hlater.map _
  | beyond eq limit =>
    rw [eq]
    exact .beyond rfl limit

/-- A key is read with its colon, and the reader goes on with the value. -/
theorem readFields_key (key : KeyText cs k first) (value : Spells short first (.value v) after) (fuel depth : Nat) :
    readFields (fuel + 1) depth cs =
      match readValue fuel depth first with
      | .error reason => .error reason
      | .ok (v, afterValue) =>
        match skip afterValue with
        | '\x7d' :: rest => .ok ([(k, v)], rest)
        | ',' :: next => (readFields fuel depth (skip next)).map fun (fs, rest) => ((k, v) :: fs, rest)
        | _ => .error .malformed := by
  cases key with
  | @key t afterQuote afterColon _ us quoted colon blank =>
    obtain ⟨c, t', rfl, hc, -⟩ := value.starts
    rw [readFields, readString_iff.mpr ⟨t, us, quoted, rfl, rfl⟩]
    dsimp only
    rw [colon.skip_cons (by decide)]
    split
    · rename_i heq
      obtain rfl := (List.cons.inj heq).2
      rewrite [blank.skip_cons hc]
      rfl
    · rename_i hcolon
      exact absurd rfl (hcolon _)

private theorem isRead_lastField (key : KeyText cs k first) (value : Spells short first (.value v) after)
    (close : Blank after ('\x7d' :: rest)) (ih : (Part.value v).IsRead short first after) :
    (fields [(k, v)]).IsRead short cs rest := by
  intro fuel depth hfuel
  have hkey := key.length_lt
  obtain ⟨f, rfl⟩ := Nat.exists_eq_add_of_le' (show 1 ≤ fuel by omega)
  have hvalue : Gives short (readValue f depth first) (v, after) := ih (by omega) (.of_blank close (by decide))
  rw [readFields_key key value]
  cases hvalue with
  | ok eq =>
    rw [eq]
    dsimp only
    rw [close.skip_cons (by decide)]
    exact .ok rfl
  | beyond eq limit =>
    rw [eq]
    exact .beyond rfl limit

private theorem isRead_field (key : KeyText cs k first) (value : Spells short first (.value v) after)
    (comma : Blank after (',' :: afterComma)) (blank : Blank afterComma next)
    (later : Spells short next (.fields fs) rest) (ih : (Part.value v).IsRead short first after)
    (ih' : (fields fs).IsRead short next rest) : (fields ((k, v) :: fs)).IsRead short cs rest := by
  intro fuel depth hfuel
  have hkey := key.length_lt
  obtain ⟨f, rfl⟩ := Nat.exists_eq_add_of_le' (show 1 ≤ fuel by omega)
  have hvalue : Gives short (readValue f depth first) (v, after) := ih (by omega) (.of_blank comma (by decide))
  have hlater : Gives short (readFields f depth next) (fs, rest) := by
    have hafter := value.length_le
    have hcomma := comma.length_le
    have hblank := blank.length_le
    rw [List.length_cons] at hcomma
    exact ih' (by omega)
  obtain ⟨c, t, rfl, hc, -⟩ := later.starts
  rw [readFields_key key value]
  cases hvalue with
  | ok eq =>
    rw [eq]
    dsimp only
    rw [comma.skip_cons (by decide)]
    change Gives short ((readFields f depth (skip afterComma)).map fun read => ((k, v) :: read.1, read.2)) _
    rw [blank.skip_cons hc]
    exact hlater.map _
  | beyond eq limit =>
    rw [eq]
    exact .beyond rfl limit

end Part

/-- Every part is read. The fuel is enough because every second call takes a character. -/
private theorem Spells.isRead {part : Part} (h : Spells short cs part rest) : part.IsRead short cs rest := by
  induction h with
  | word known rest =>
    obtain ⟨c, t, hword, hc, -⟩ := plain_word known
    have hread := readWord_append known rest
    rw [hword, List.cons_append] at hread ⊢
    intro fuel depth
    exact Part.isRead_plain hc fun _ => .inl hread
  | number number rest =>
    have hgives := fun hrest : Stops rest => number.readNumber_append hrest
    have hword := number.readWord rest
    obtain ⟨c, t, rfl, hc⟩ := number.starts
    rw [List.cons_append] at hword hgives ⊢
    intro fuel depth
    exact Part.isRead_plain hc fun hrest => .inr ⟨hword, hgives hrest⟩
  | str quoted rest => exact Part.isRead_str quoted rest
  | noItems close => exact Part.isRead_noItems close
  | arr blank each ih => exact Part.isRead_arr blank each ih
  | noFields close => exact Part.isRead_noFields close
  | obj blank each ih => exact Part.isRead_obj blank each ih
  | lastItem _ close ih => exact Part.isRead_lastItem close ih
  | item value comma blank later ih ih' => exact Part.isRead_item value comma blank later ih ih'
  | lastField key value close ih => exact Part.isRead_lastField key value close ih
  | field key value comma blank later ih ih' => exact Part.isRead_field key value comma blank later ih ih'

/-- The text of a value is read as the value, unless it is beyond the limits of the reader. -/
private theorem Text.gives {v : Json} (h : Text short cs v) : Gives short (read cs) v := by
  obtain ⟨first, rest, start, value, stop⟩ := h
  have hlength := start.length_le
  have hread : Gives short (readValue (2 * cs.length + 2) maxDepth first) (v, rest) :=
    value.isRead (by omega) (.of_blank_nil stop)
  obtain ⟨c, t, rfl, hc, -⟩ := value.starts
  rw [read, start.skip_cons hc]
  cases hread with
  | ok eq =>
    rw [eq]
    dsimp only
    rw [stop.skip_nil]
    exact .ok rfl
  | beyond eq limit =>
    rw [eq]
    exact .beyond rfl limit

/-- A text of a value is read as this value if it is read. -/
theorem Text.eq_of_read {v w : Json} (h : Text short cs v) (hread : read cs = .ok w) : w = v := by
  cases h.gives with
  | ok eq => exact Except.ok.inj (hread.symm.trans eq)
  | beyond eq => cases hread.symm.trans eq

/-- A text of a value is not read only for the limits of the reader. -/
theorem Text.beyond_of_read {v : Json} (h : Text short cs v) {reason : ReadError} (hread : read cs = .error reason) :
    Beyond short reason := by
  cases h.gives with
  | ok eq => cases hread.symm.trans eq
  | beyond eq limit =>
    cases hread.symm.trans eq
    exact limit

end Json
end WireCut
