import WireCut.Proofs.Json.Parsed
import WireCut.Proofs.Settings.Checks
import WireCut.Proofs.Settings.Saved

/-! What loading comes to: which files are refused, and which profile the others give. The texts are those of the grammar,
and the faults are stated by the places of numbers, so the reader and the comparison are not mentioned. -/
namespace WireCut

namespace Json

def last? (fields : List (CodePoints × Json)) (key : CodePoints) : Option Json :=
  fields.reverse.lookup key

private theorem lookup_cons (fields : List (CodePoints × Json)) (k : CodePoints) (v : Json) (key : CodePoints) :
    ((k, v) :: fields).lookup key = if key = k then some v else fields.lookup key := by
  rw [List.lookup_cons]
  by_cases h : key = k
  · rw [beq_iff_eq.mpr h, if_pos h]
  · rw [beq_eq_false_iff_ne.mpr h, if_neg h]

private theorem last?_append (fields : List (CodePoints × Json)) (k : CodePoints) (v : Json) (key : CodePoints) :
    last? (fields ++ [(k, v)]) key = if key = k then some v else last? fields key := by
  rw [last?, List.reverse_append, List.reverse_singleton, List.singleton_append, lookup_cons, last?]

private theorem lookup_putField (fields : List (CodePoints × Json)) (k : CodePoints) (v : Json) (key : CodePoints) :
    (putField fields k v).lookup key = if key = k then some v else fields.lookup key := by
  induction fields with
  | nil => exact lookup_cons [] k v key
  | cons field fields ih =>
    obtain ⟨k', v'⟩ := field
    rw [putField]
    split
    · rename_i hk
      rw [lookup_cons, lookup_cons, hk]
      split_ifs <;> rfl
    · rename_i hk
      rw [lookup_cons, ih, lookup_cons]
      split_ifs with h h' <;> first | rfl | exact absurd (h.symm.trans h') hk

/-- An object has the last value of every key. -/
private theorem lookup_ofFields {fields kept : List (CodePoints × Json)} (h : ofFields fields = .obj kept) (key : CodePoints) :
    kept.lookup key = last? fields key := by
  cases h
  induction fields using List.reverseRecOn with
  | nil => rfl
  | append_singleton fields field ih =>
    rw [List.foldl_append, List.foldl_cons, List.foldl_nil, lookup_putField, last?_append, ih]

/-- Where no key stands twice, the first occurrence is the last one. -/
private theorem last?_of_nodup {fields : List (CodePoints × Json)} (h : (fields.map Prod.fst).Nodup) (key : CodePoints) :
    last? fields key = fields.lookup key := by
  induction fields with
  | nil => rfl
  | cons field fields ih =>
    obtain ⟨k, v⟩ := field
    rw [List.map_cons, List.nodup_cons] at h
    have hlast : last? ((k, v) :: fields) key = (last? fields key).or (if key = k then some v else none) := by
      rw [last?, List.reverse_cons, List.lookup_append, lookup_cons]
      rfl
    rw [hlast, ih h.2, lookup_cons]
    split_ifs with hkey
    · have hnone : fields.lookup key = none := by
        refine List.lookup_eq_none_iff.mpr fun later hlater => bne_iff_ne.mpr fun heq => ?_
        exact h.1 (hkey ▸ List.mem_map.mpr ⟨later, hlater, heq.symm⟩)
      rw [hnone, Option.none_or]
    · rw [Option.or_none]

end Json

namespace Setting

private theorem ofKey?_eq_some_iff {key : CodePoints} {s : Setting} : ofKey? key = some s ↔ key = CodePoints.ofString s.key := by
  constructor
  · intro h
    have hfound := List.find?_some h
    exact (of_decide_eq_true hfound).symm
  · rintro rfl
    exact ofKey?_key s

end Setting

namespace Profile
open Json Literal

def overridden (fields : List (CodePoints × Json)) : Profile :=
  fun s => (last? fields (CodePoints.ofString s.key)).getD (default s)

private theorem ofFields_eq_overridden (fields : List (CodePoints × Json)) : Profile.ofFields fields = overridden fields := by
  induction fields using List.reverseRecOn with
  | nil => rfl
  | append_singleton fields field ih =>
    obtain ⟨k, v⟩ := field
    funext s
    rw [Profile.ofFields, List.foldl_append, List.foldl_cons, List.foldl_nil, ← Profile.ofFields, ih]
    rw [overridden, last?_append]
    cases ht : Setting.ofKey? k with
    | none =>
      have hne : CodePoints.ofString s.key ≠ k := fun heq => by
        rw [Setting.ofKey?_eq_some_iff.mpr heq.symm] at ht
        cases ht
      rw [if_neg hne]
      rfl
    | some t =>
      have hiff : CodePoints.ofString s.key = k ↔ s = t := by
        rw [eq_comm, ← Setting.ofKey?_eq_some_iff, ht, Option.some_inj, eq_comm]
      simp only [set, hiff]
      split_ifs <;> rfl

/-- The profile of an object is that of the text from which it is read. -/
private theorem ofFields_kept {fields kept : List (CodePoints × Json)} (h : Json.ofFields fields = .obj kept) :
    Profile.ofFields kept = overridden fields := by
  have hnodup : (kept.map Prod.fst).Nodup := by
    cases h
    exact List.foldlRecOn (motive := fun (fs : List (CodePoints × Json)) => (fs.map Prod.fst).Nodup) fields _ .nil
      fun _ h field _ => nodup_putField h field.1 field.2
  rw [ofFields_eq_overridden]
  funext s
  rw [overridden, overridden, last?_of_nodup hnodup, lookup_ofFields h]

def Holds (short : Nat → Prop) (file : FileContent) (fields : List (CodePoints × Json)) : Prop :=
  ∃ cs, file.text = .ok cs ∧ ObjectText short cs fields

/-- Why a file is refused, with a reason that is given for it. A text that is no JSON may be left at a long integer
before it turns out to be none. -/
inductive Refusal (file : FileContent) : ProfileError → Prop where
  | unreadable {reason : FileError} (text : file.text = .error reason) : Refusal file (.unreadable reason)
  | notJson {cs : List Char} {reason : ProfileError} (text : file.text = .ok cs) (none : ∀ v, ¬Text (fun _ => True) cs v)
      (kind : reason = .malformed ∨ ∃ digits, reason = .longInteger digits) : Refusal file reason
  | longInteger {cs : List Char} {v : Json} {digits : Nat} (text : file.text = .ok cs) (json : Text (fun _ => True) cs v)
      (none : ∀ v, ¬Text (· ≤ maxIntegerDigits) cs v) (long : maxIntegerDigits < digits) :
      Refusal file (.longInteger digits)
  | notAnObject {cs : List Char} {v : Json} (text : file.text = .ok cs) (json : Text (fun _ => True) cs v)
      (other : ∀ fields, v ≠ .obj fields) : Refusal file .notAnObject
  | fault {fields : List (CodePoints × Json)} {reason : ProfileError} (holds : Holds (fun _ => True) file fields)
      (first : First (overridden fields).faults reason) : Refusal file reason

variable {file : FileContent}

private theorem Refusal.not_ok {reason : ProfileError} (h : Refusal file reason) (p : Profile) : load file ≠ .ok p := by
  intro hload
  obtain ⟨cs, kept, htext, hread, rfl, hvalid⟩ := load_eq_ok hload
  have hshort := text_of_read hread
  have hany : Text (fun _ => True) cs (.obj kept) := hshort.mono fun _ _ => trivial
  cases h with
  | unreadable text => cases htext.symm.trans text
  | notJson text none =>
    cases htext.symm.trans text
    exact none _ hany
  | longInteger text json none =>
    cases htext.symm.trans text
    exact none _ hshort
  | notAnObject text json other =>
    cases htext.symm.trans text
    exact other kept (json.eq_of_read hread).symm
  | fault holds first =>
    obtain ⟨cs', text, object⟩ := holds
    cases htext.symm.trans text
    rw [ofFields_kept (object.text.eq_of_read hread).symm, validate_eq_error.mpr first] at hvalid
    cases hvalid

private theorem map_eq_error {x : Except ProfileError Unit} {p : Profile} {reason : ProfileError} :
    (x.map fun _ => p) = .error reason ↔ x = .error reason := by
  cases x <;> simp [Except.map]

/-- What follows for a file whose text is read as an object. -/
private theorem load_object {cs : List Char} {fields kept : List (CodePoints × Json)} (text : file.text = .ok cs)
    (hread : Json.read cs = .ok (.obj kept)) (hkept : Json.ofFields fields = .obj kept) :
    load file = (overridden fields).validate.map fun _ => overridden fields := by
  rw [load, text]
  simp only [ofText, hread, ofFields_kept hkept]

/-- A text at whose long integer the reader stops is none with short integers only. -/
private theorem long_of_read {cs : List Char} {v : Json} {digits : Nat} (text : Text (fun _ => True) cs v)
    (hread : Json.read cs = .error (.longInteger digits)) :
    (∀ w, ¬Text (· ≤ maxIntegerDigits) cs w) ∧ maxIntegerDigits < digits := by
  cases text.beyond_of_read hread with
  | longInteger _ long =>
    refine ⟨fun w hw => ?_, long⟩
    cases hw.beyond_of_read hread with
    | longInteger isShort => exact absurd long (Nat.not_lt.mpr isShort)

/-- A file that gives no profile is refused for the reason that it gives. -/
private theorem refusal_of_load {reason : ProfileError} (shallow : ∀ depth, load file ≠ .error (.tooDeep depth))
    (h : load file = .error reason) : Refusal file reason := by
  have hload := h
  cases htext : file.text with
  | error e =>
    rw [load, htext] at h
    cases h
    exact .unreadable htext
  | ok cs =>
    rw [load, htext] at h
    cases hread : Json.read cs with
    | error e =>
      simp only [ofText, hread] at h
      cases e with
      | malformed =>
        cases h
        refine .notJson htext (fun v hv => ?_) (.inl rfl)
        cases hv.beyond_of_read hread
      | longInteger digits =>
        cases h
        by_cases hjson : ∃ v, Text (fun _ => True) cs v
        · obtain ⟨v, hv⟩ := hjson
          obtain ⟨hnone, hlong⟩ := long_of_read hv hread
          exact .longInteger htext hv hnone hlong
        · exact .notJson htext (not_exists.mp hjson) (.inr ⟨digits, rfl⟩)
      | tooDeep container =>
        cases h
        exact absurd hload (shallow _)
    | ok v =>
      have hv : Text (fun _ => True) cs v := (text_of_read hread).mono fun _ _ => trivial
      cases v with
      | obj kept =>
        obtain ⟨fields, hobject, hkept⟩ := hv.objectText
        rw [load_object htext hread hkept, map_eq_error, validate_eq_error] at hload
        exact .fault ⟨cs, htext, hobject⟩ hload
      | null | bool | int | float | str | arr =>
        simp only [ofText, hread] at h
        cases h
        refine .notAnObject htext hv fun fields heq => ?_
        cases heq

/-- What a file with an object comes to, if it is not nested too deeply and its integers are not long. -/
private theorem load_of_holds {fields : List (CodePoints × Json)} (shallow : ∀ depth, load file ≠ .error (.tooDeep depth))
    (h : Holds (· ≤ maxIntegerDigits) file fields) :
    load file = (overridden fields).validate.map fun _ => overridden fields := by
  obtain ⟨cs, htext, hobject⟩ := h
  cases hread : Json.read cs with
  | ok v =>
    obtain rfl := hobject.text.eq_of_read hread
    exact load_object htext hread rfl
  | error e =>
    cases hobject.text.beyond_of_read hread with
    | longInteger isShort long => exact absurd long (Nat.not_lt.mpr isShort)
    | tooDeep container =>
      refine absurd ?_ (shallow (.reading container))
      rw [load, htext]
      simp only [ofText, hread]

structure Loading (file : FileContent) : Prop where
  refused : (∃ reason, load file = .error reason) ↔ ∃ reason, Refusal file reason
  reason : ∀ reason, load file = .error reason → Refusal file reason
  /-- The profile is that of the object, however long its integers might be. -/
  accepted : ∀ p, load file = .ok p → (∃ fields, Holds (fun _ => True) file fields) ∧
    ∀ fields, Holds (fun _ => True) file fields → p = overridden fields
  /-- The first fault of an object that is read is the reason. -/
  fault : ∀ fields, Holds (· ≤ maxIntegerDigits) file fields →
    ∀ reason, load file = .error reason ↔ First (overridden fields).faults reason
  /-- Without strictness, every refusal gives the standard settings. -/
  orDefault : loadOrDefault file = .ok (match load file with | .ok p => p | .error _ => default)
  /-- Nothing but the last occurrences of the known keys counts. -/
  known : ∀ fields other fields', Holds (· ≤ maxIntegerDigits) file fields →
    Holds (· ≤ maxIntegerDigits) other fields' → (∀ depth, load other ≠ .error (.tooDeep depth)) →
    (∀ s : Setting, last? fields (CodePoints.ofString s.key) = last? fields' (CodePoints.ofString s.key)) →
    load other = load file

end Profile

/-- A file that is not nested too deeply is refused exactly if it is unreadable, or is no JSON, or has a long integer, or is
no object, or if its settings have a fault, of which the first one is the reason. Otherwise it gives the standard settings,
overridden by the last occurrence of each known key. -/
theorem Profile.loading_of_shallow {file : FileContent} (shallow : ∀ depth, load file ≠ .error (.tooDeep depth)) :
    Loading file where
  refused := by
    refine ⟨fun ⟨reason, h⟩ => ⟨reason, refusal_of_load shallow h⟩, fun ⟨reason, h⟩ => ?_⟩
    cases hload : load file with
    | error e => exact ⟨e, rfl⟩
    | ok p => exact absurd hload (h.not_ok p)
  reason _ := refusal_of_load shallow
  accepted p h := by
    obtain ⟨cs, kept, htext, hread, rfl, -⟩ := load_eq_ok h
    obtain ⟨fields, hobject, -⟩ := (Json.text_of_read hread).objectText
    refine ⟨⟨fields, cs, htext, hobject.mono fun _ _ => trivial⟩, fun fields' h' => ?_⟩
    obtain ⟨cs', htext', hobject'⟩ := h'
    cases htext.symm.trans htext'
    exact ofFields_kept (hobject'.text.eq_of_read hread).symm
  fault fields h reason := by
    rw [load_of_holds shallow h, map_eq_error, validate_eq_error]
  orDefault := by
    rw [loadOrDefault]
    cases h : load file with
    | ok p => rfl
    | error e =>
      cases e with
      | tooDeep depth => exact absurd h (shallow depth)
      | _ => rfl
  known fields other fields' h h' shallow' hlast := by
    have hsame : overridden fields' = overridden fields := funext fun s => by rw [overridden, overridden, hlast s]
    rw [load_of_holds shallow h, load_of_holds shallow' h', hsame]

/-- A file with a key twice, where the first occurrence alone would be refused, and with an unknown key. -/
theorem Profile.loading_repeated_key :
    let file := FileContent.bytes "\x7b\"scale\": -1, \"wire\": [null], \"scale\": 2.5\x7d".toUTF8
    (∀ depth, load file ≠ .error (.tooDeep depth)) ∧ Loading file := by
  intro file
  have hread : (load file).toOption.isSome = true := by decide +kernel
  have shallow : ∀ depth, load file ≠ .error (.tooDeep depth) := by
    intro depth h
    rw [h] at hread
    cases hread
  exact ⟨shallow, loading_of_shallow shallow⟩

namespace Profile
open Json Literal

/-- An object with an unknown key, where an integer stands that is written with so many sevens. -/
def sevens (digits : Nat) : List Char :=
  '\x7b' :: '"' :: 'x' :: '"' :: ':' :: ' ' :: (List.replicate digits '7' ++ ['\x7d'])

def sevensFields (digits : Nat) : List (CodePoints × Json) :=
  [(CodePoints.ofString "x", .int (ofDigits (List.replicate digits 7)))]

variable {digits : Nat}

private theorem whole_sevens (pos : 0 < digits) : WholeText (List.replicate digits '7') (List.replicate digits 7) where
  digits := by
    refine digits_iff.mpr ⟨fun c hc => ?_, List.map_replicate⟩
    rw [List.eq_of_mem_replicate hc]
    rfl
  ne := by simpa using pos.ne'
  zero h := by
    obtain ⟨n, rfl⟩ := Nat.exists_eq_add_of_le' pos
    cases h

private theorem key_sevens (rest : List Char) :
    KeyText ('"' :: 'x' :: '"' :: ':' :: ' ' :: rest) (CodePoints.ofString "x") rest :=
  .key (.plain (by decide) (by decide) (by decide) .nil) (.none _) (.more rfl (.none _))

private theorem number_sevens (pos : 0 < digits) :
    NumberText (· = digits) (List.replicate digits '7') (.int (ofDigits (List.replicate digits 7))) :=
  .int false (whole_sevens pos) List.length_replicate

private theorem value_sevens (pos : 0 < digits) :
    Spells (· = digits) (List.replicate digits '7' ++ ['\x7d']) (.value (.int (ofDigits (List.replicate digits 7)))) ['\x7d'] :=
  .number (number_sevens pos) ['\x7d']

private theorem object_sevens (pos : 0 < digits) : ObjectText (· = digits) (sevens digits) (sevensFields digits) :=
  .some (.none _) (.none _) (.lastField (key_sevens _) (value_sevens pos) (.none _)) (.none _)

/-- The object is read if the integer is not long. -/
private theorem read_sevens (pos : 0 < digits) :
    Json.read (sevens digits) =
      if maxIntegerDigits < digits then .error (.longInteger digits) else .ok (.obj (sevensFields digits)) := by
  have hstops : Stops ['\x7d'] := by
    rintro _ ⟨⟩
    decide
  have hnumber := readNumber_whole false (whole_sevens pos) hstops
  have hvalue (fuel depth : Nat) : readValue (fuel + 1) depth (List.replicate digits '7' ++ ['\x7d']) =
      if maxIntegerDigits < digits then .error (.longInteger digits)
      else .ok (.int (ofDigits (List.replicate digits 7)), ['\x7d']) := by
    have hword := (number_sevens pos).readWord ['\x7d']
    rw [List.length_replicate] at hnumber
    obtain ⟨n, rfl⟩ := Nat.exists_eq_add_of_le' pos
    rw [List.replicate_succ, List.cons_append] at hword ⊢
    have hplain := plain_of_isDigit (c := '7') rfl
    rw [readValue_plain hplain.quote hplain.brackets.1 hplain.braces.1, hword]
    exact hnumber
  obtain ⟨fuel, hfuel⟩ : ∃ fuel, 2 * (sevens digits).length + 2 = fuel + 3 := ⟨_, rfl⟩
  have hdepth : maxDepth = 989 + 1 := rfl
  have hfield := Spells.lastField (key_sevens _) (value_sevens pos) (.none _)
  have hskip : skip (sevens digits) = sevens digits := skip_of_not_space rfl _
  rw [Json.read, hskip, hfuel, hdepth, sevens, Part.readValue_obj (.none _) hfield,
    Part.readFields_key (key_sevens _) (value_sevens pos), hvalue]
  by_cases hlong : maxIntegerDigits < digits
  · rw [if_pos hlong, if_pos hlong]
    rfl
  · rw [if_neg hlong, if_neg hlong]
    rfl

def sevensFile (digits : Nat) : FileContent :=
  .bytes (String.ofList (sevens digits)).toUTF8

private theorem text_sevensFile (digits : Nat) : (sevensFile digits).text = .ok (sevens digits) := by
  have hreturn : '\r' ∉ sevens digits := by
    simp [sevens, List.mem_replicate]
  rw [sevensFile, FileContent.text_toUTF8 (by rwa [String.toList_ofList]), String.toList_ofList]

private theorem last?_sevensFields (digits : Nat) (s : Setting) :
    last? (sevensFields digits) (CodePoints.ofString s.key) = none := by
  have hne : CodePoints.ofString s.key ≠ CodePoints.ofString "x" := by
    cases s <;> decide
  rw [last?, sevensFields, List.reverse_singleton, Json.lookup_cons, if_neg hne]
  rfl

private theorem overridden_sevensFields (digits : Nat) : overridden (sevensFields digits) = default := by
  funext s
  rw [overridden, last?_sevensFields]
  rfl

private theorem validate_default : default.validate = .ok () := by
  have hvalid : default.validate.toOption.isSome = true := by decide +kernel
  cases h : default.validate with
  | ok u => rfl
  | error reason =>
    rw [h] at hvalid
    cases hvalid

/-- A long integer under an unknown key makes a file refused. -/
private theorem load_sevensFile (pos : 0 < digits) :
    load (sevensFile digits) = if maxIntegerDigits < digits then .error (.longInteger digits) else .ok default := by
  have hread := read_sevens pos
  by_cases hlong : maxIntegerDigits < digits
  · rw [if_pos hlong] at hread ⊢
    rw [load, text_sevensFile]
    simp only [ofText, hread]
  · have hkept : Json.ofFields (sevensFields digits) = .obj (sevensFields digits) := rfl
    rw [if_neg hlong] at hread ⊢
    rw [load_object (text_sevensFile digits) hread hkept, overridden_sevensFields, validate_default]
    rfl

end Profile

/-- An object without a known key, and so without a fault, is refused for an integer of 4301 digits under another key, where
the standard settings are given if the integer has a digit less. -/
theorem Profile.load_long_integer :
    (Holds (fun _ => True) (sevensFile 4301) (sevensFields 4301) ∧
      (∀ s : Setting, Json.last? (sevensFields 4301) (CodePoints.ofString s.key) = none) ∧
      (∀ reason, ¬First (overridden (sevensFields 4301)).faults reason) ∧
      load (sevensFile 4301) = .error (.longInteger 4301)) ∧
    (Holds (fun _ => True) (sevensFile 4300) (sevensFields 4300) ∧
      (∀ s : Setting, Json.last? (sevensFields 4300) (CodePoints.ofString s.key) = none) ∧
      load (sevensFile 4300) = .ok default) := by
  have hholds (digits : Nat) (pos : 0 < digits) : Holds (fun _ => True) (sevensFile digits) (sevensFields digits) :=
    ⟨sevens digits, text_sevensFile digits, (object_sevens pos).mono fun _ _ => trivial⟩
  refine ⟨⟨hholds _ (by decide), last?_sevensFields _, fun reason hfirst => ?_, ?_⟩,
    hholds _ (by decide), last?_sevensFields _, ?_⟩
  · rw [overridden_sevensFields] at hfirst
    cases validate_default.symm.trans (validate_eq_error.mpr hfirst)
  · exact (load_sevensFile (by decide)).trans (if_pos (by decide))
  · exact (load_sevensFile (by decide)).trans (if_neg (by decide))

end WireCut
