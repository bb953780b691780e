import WireCut.Proofs.Json.Printed
import WireCut.Proofs.Number.Spelling

/-! The grammar of JSON, with the values that texts stand for. It is stated without the reader, and what it says about
strings and numbers is what is read. -/
namespace WireCut

namespace Json
open Literal

inductive Quoted : List Char → CodePoints → Prop where
  | nil : Quoted [] []
  | unit {a b c d : Char} {n : Nat} {cs : List Char} {us : CodePoints} (code : unit? a b c d = some n)
      (later : Quoted cs us) : Quoted ('\\' :: 'u' :: a :: b :: c :: d :: cs) (n :: us)
  | short {e : Char} {n : Nat} {cs : List Char} {us : CodePoints} (escape : shortEscape? e = some n)
      (later : Quoted cs us) : Quoted ('\\' :: e :: cs) (n :: us)
  | plain {c : Char} {cs : List Char} {us : CodePoints} (quote : c ≠ '"') (slash : c ≠ '\\') (printable : 0x20 ≤ c.toNat)
      (later : Quoted cs us) : Quoted (c :: cs) (c.toNat :: us)

structure WholeText (cs : List Char) (ns : List Nat) : Prop where
  digits : Digits digit? cs ns
  ne : cs ≠ []
  zero : cs.head? = some '0' → cs = ['0']

inductive FractionText : List Char → List Nat → Prop where
  | none : FractionText [] []
  | point {cs : List Char} {ns : List Nat} (digits : Digits digit? cs ns) (ne : cs ≠ []) : FractionText ('.' :: cs) ns

/-- A number: an integer, whose count of digits may be restricted, or a float. -/
inductive NumberText (short : Nat → Prop) : List Char → Json → Prop where
  | int (negative : Bool) {cs : List Char} {ns : List Nat} (whole : WholeText cs ns) (isShort : short ns.length) :
      NumberText short (minus negative ++ cs) (.int (Exact.signed negative (ofDigits ns)))
  | float (negative : Bool) {cs fs xs : List Char} {ns ms : List Nat} {e : Int} (whole : WholeText cs ns)
      (fraction : FractionText fs ms) (exponent : ExponentText digit? xs e) (ne : fs ≠ [] ∨ xs ≠ []) :
      NumberText short (minus negative ++ (cs ++ (fs ++ xs))) (.float (toFloat ⟨negative, ns, ms, e⟩))

inductive Blank : List Char → List Char → Prop where
  | none (cs : List Char) : Blank cs cs
  | more {c : Char} {cs rest : List Char} (space : isSpace c = true) (later : Blank cs rest) : Blank (c :: cs) rest

inductive KeyText : List Char → CodePoints → List Char → Prop where
  | key {cs afterQuote afterColon rest : List Char} {us : CodePoints} (quoted : Quoted cs us)
      (colon : Blank afterQuote (':' :: afterColon)) (blank : Blank afterColon rest) :
      KeyText ('"' :: (cs ++ '"' :: afterQuote)) (joinSurrogates us) rest

inductive Part where
  | value (v : Json)
  | items (vs : List Json)
  | fields (fs : List (CodePoints × Json))

/-- A text begins with a part, and what is left of it after the part. The counts of digits of the integers may be
restricted. Items and fields are followed by the bracket that closes them, which belongs to them, and a field stands for
itself even if a later one has its key. -/
inductive Spells (short : Nat → Prop) : List Char → Part → List Char → Prop where
  | word {word : String} {v : Json} (known : (word, v) ∈ wordValues) (rest : List Char) :
      Spells short (word.toList ++ rest) (.value v) rest
  | number {cs : List Char} {v : Json} (number : NumberText short cs v) (rest : List Char) :
      Spells short (cs ++ rest) (.value v) rest
  | str {cs : List Char} {us : CodePoints} (quoted : Quoted cs us) (rest : List Char) :
      Spells short ('"' :: (cs ++ '"' :: rest)) (.value (.str (joinSurrogates us))) rest
  | noItems {cs rest : List Char} (close : Blank cs (']' :: rest)) : Spells short ('[' :: cs) (.value (.arr [])) rest
  | arr {cs first rest : List Char} {vs : List Json} (blank : Blank cs first) (each : Spells short first (.items vs) rest) :
      Spells short ('[' :: cs) (.value (.arr vs)) rest
  | noFields {cs rest : List Char} (close : Blank cs ('\x7d' :: rest)) :
      Spells short ('\x7b' :: cs) (.value (ofFields [])) rest
  | obj {cs first rest : List Char} {fs : List (CodePoints × Json)} (blank : Blank cs first)
      (each : Spells short first (.fields fs) rest) : Spells short ('\x7b' :: cs) (.value (ofFields fs)) rest
  | lastItem {cs after rest : List Char} {v : Json} (value : Spells short cs (.value v) after)
      (close : Blank after (']' :: rest)) : Spells short cs (.items [v]) rest
  | item {cs after afterComma next rest : List Char} {v : Json} {vs : List Json} (value : Spells short cs (.value v) after)
      (comma : Blank after (',' :: afterComma)) (blank : Blank afterComma next)
      (later : Spells short next (.items vs) rest) : Spells short cs (.items (v :: vs)) rest
  | lastField {cs first after rest : List Char} {k : CodePoints} {v : Json} (key : KeyText cs k first)
      (value : Spells short first (.value v) after) (close : Blank after ('\x7d' :: rest)) :
      Spells short cs (.fields [(k, v)]) rest
  | field {cs first after afterComma next rest : List Char} {k : CodePoints} {v : Json} {fs : List (CodePoints × Json)}
      (key : KeyText cs k first) (value : Spells short first (.value v) after) (comma : Blank after (',' :: afterComma))
      (blank : Blank afterComma next) (later : Spells short next (.fields fs) rest) :
      Spells short cs (.fields ((k, v) :: fs)) rest

def Text (short : Nat → Prop) (cs : List Char) (v : Json) : Prop :=
  ∃ first rest, Blank cs first ∧ Spells short first (.value v) rest ∧ Blank rest []

/-- The text of an object with these fields, in their order and with every occurrence of a key. -/
inductive ObjectText (short : Nat → Prop) : List Char → List (CodePoints × Json) → Prop where
  | none {cs inner rest : List Char} (start : Blank cs ('\x7b' :: inner)) (close : Blank inner ('\x7d' :: rest))
      (stop : Blank rest []) : ObjectText short cs []
  | some {cs inner first rest : List Char} {fs : List (CodePoints × Json)} (start : Blank cs ('\x7b' :: inner))
      (blank : Blank inner first) (each : Spells short first (.fields fs) rest) (stop : Blank rest []) :
      ObjectText short cs fs

section
variable {short long : Nat → Prop} {cs rest : List Char}

private theorem NumberText.mono (hmono : ∀ n, short n → long n) {v : Json} (h : NumberText short cs v) : NumberText long cs v := by
  cases h with
  | int negative whole isShort => exact .int negative whole (hmono _ isShort)
  | float negative whole fraction exponent ne => exact .float negative whole fraction exponent ne

private theorem Spells.mono (hmono : ∀ n, short n → long n) {part : Part} (h : Spells short cs part rest) :
    Spells long cs part rest := by
  induction h with
  | word known rest => exact .word known rest
  | number number rest => exact .number (number.mono hmono) rest
  | str quoted rest => exact .str quoted rest
  | noItems close => exact .noItems close
  | arr blank _ ih => exact .arr blank ih
  | noFields close => exact .noFields close
  | obj blank _ ih => exact .obj blank ih
  | lastItem _ close ih => exact .lastItem ih close
  | item _ comma blank _ ih ih' => exact .item ih comma blank ih'
  | lastField key _ close ih => exact .lastField key ih close
  | field key _ comma blank _ ih ih' => exact .field key ih comma blank ih'

theorem Text.mono (hmono : ∀ n, short n → long n) {v : Json} (h : Text short cs v) : Text long cs v := by
  obtain ⟨first, rest, start, value, stop⟩ := h
  exact ⟨first, rest, start, value.mono hmono, stop⟩

theorem ObjectText.mono (hmono : ∀ n, short n → long n) {fs : List (CodePoints × Json)} (h : ObjectText short cs fs) :
    ObjectText long cs fs := by
  cases h with
  | none start close stop => exact .none start close stop
  | some start blank each stop => exact .some start blank (each.mono hmono) stop

/-- The text of an object is one of a value. -/
theorem ObjectText.text {fs : List (CodePoints × Json)} (h : ObjectText short cs fs) : Text short cs (ofFields fs) := by
  cases h with
  | none start close stop => exact ⟨_, _, start, .noFields close, stop⟩
  | some start blank each stop => exact ⟨_, _, start, .obj blank each, stop⟩

/-- A text of a value that is an object is the text of an object. -/
theorem Text.objectText {kept : List (CodePoints × Json)} (h : Text short cs (.obj kept)) :
    ∃ fs, ObjectText short cs fs ∧ ofFields fs = .obj kept := by
  obtain ⟨first, rest, start, value, stop⟩ := h
  generalize hv : Json.obj kept = v at value
  cases value with
  | word known =>
    simp only [wordValues, List.mem_cons, Prod.mk.injEq, List.not_mem_nil, or_false] at known
    obtain ⟨-, rfl⟩ | ⟨-, rfl⟩ | ⟨-, rfl⟩ | ⟨-, rfl⟩ | ⟨-, rfl⟩ | ⟨-, rfl⟩ := known <;> cases hv
  | number number => cases number <;> cases hv
  | str => cases hv
  | noItems => cases hv
  | arr => cases hv
  | noFields close => exact ⟨[], .none start close stop, rfl⟩
  | obj blank each => exact ⟨_, .some start blank each stop, rfl⟩

end

/-- What is read up to a closing quote is written by the characters before it. -/
private theorem quoted_of_units {cs rest : List Char} {us : CodePoints} (h : units cs = some (us, rest)) :
    ∃ t, Quoted t us ∧ cs = t ++ '"' :: rest := by
  fun_induction units cs generalizing us with
  | case2 =>
    cases h
    exact ⟨[], .nil, rfl⟩
  | case3 a b c d rest' n us' after hrest hn ih =>
    cases h
    obtain ⟨t, ht, rfl⟩ := ih hrest
    exact ⟨_, .unit hn ht, rfl⟩
  | case5 e rest' _ n us' after hrest hn ih =>
    cases h
    obtain ⟨t, ht, rfl⟩ := ih hrest
    exact ⟨_, .short hn ht, rfl⟩
  | case8 c rest' hquote hunit hslash hlow us' after hrest ih =>
    cases h
    obtain ⟨t, ht, rfl⟩ := ih hrest
    refine ⟨_, .plain hquote (fun hc => ?_) (Nat.not_lt.mp hlow) ht, rfl⟩
    obtain ⟨e, after, hsplit⟩ := List.exists_cons_of_ne_nil (List.append_ne_nil_of_right_ne_nil t (List.cons_ne_nil '"' rest))
    exact hslash e after hc hsplit
  | _ => cases h

private theorem Quoted.units_append {cs : List Char} {us : CodePoints} (h : Quoted cs us) (rest : List Char) :
    units (cs ++ '"' :: rest) = some (us, rest) := by
  induction h with
  | nil => rfl
  | unit code _ ih =>
    simp only [List.cons_append, units, code, ih]
  | @short e n cs us escape _ ih =>
    have hu : e ≠ 'u' := by
      rintro rfl
      cases escape
    rw [List.cons_append, List.cons_append, units_shortEscape escape hu, ih]
    rfl
  | plain quote slash printable _ ih =>
    rw [List.cons_append, units_plain quote slash printable, ih]
    rfl

theorem readString_iff {cs rest : List Char} {s : CodePoints} :
    readString cs = some (s, rest) ↔ ∃ t us, Quoted t us ∧ s = joinSurrogates us ∧ cs = t ++ '"' :: rest := by
  constructor
  · intro h
    obtain ⟨⟨us, after⟩, hunits, heq⟩ := Option.map_eq_some_iff.mp h
    cases heq
    obtain ⟨t, ht, hsplit⟩ := quoted_of_units hunits
    exact ⟨t, us, ht, rfl, hsplit⟩
  · rintro ⟨t, us, ht, rfl, rfl⟩
    rw [readString, ht.units_append]
    rfl

def stops : List Char := [' ', '\t', '\n', '\r', ',', ']', '\x7d']

/-- A text that does not go on with the number before it. -/
def Stops (rest : List Char) : Prop :=
  ∀ c ∈ rest.head?, c ∈ stops

private theorem digit?_eq_some_iff {c : Char} {n : Nat} : digit? c = some n ↔ c.isDigit = true ∧ digitValue c = n := by
  by_cases hc : c.isDigit = true
  · simp [digit?_of_isDigit hc, hc]
  · simp [digit?, hc]

private theorem apart_digit? : Apart digit? := by
  refine ⟨by decide, by decide, by decide, ?_⟩
  rintro c (rfl | rfl) <;> decide

theorem digits_iff {cs : List Char} {ns : List Nat} :
    Digits digit? cs ns ↔ (∀ c ∈ cs, c.isDigit = true) ∧ cs.map digitValue = ns := by
  constructor
  · intro h
    induction h with
    | nil => exact ⟨List.forall_mem_nil _, rfl⟩
    | cons hc _ ih =>
      obtain ⟨hdigit, rfl⟩ := digit?_eq_some_iff.mp hc
      exact ⟨List.forall_mem_cons.mpr ⟨hdigit, ih.1⟩, by rw [List.map_cons, ih.2]⟩
  · rintro ⟨hdigits, rfl⟩
    exact List.forall₂_map_right_iff.mpr (List.forall₂_same.mpr fun c hc => digit?_of_isDigit (hdigits c hc))

private theorem mem_stops_of_isSpace {c : Char} (h : isSpace c = true) : c ∈ stops := by
  simp only [isSpace, Bool.or_eq_true, decide_eq_true_eq] at h
  obtain ((rfl | rfl) | rfl) | rfl := h <;> decide

namespace Stops
variable {rest : List Char}

theorem of_blank {c : Char} {after : List Char} (h : Blank rest (c :: after)) (hc : c ∈ stops) : Stops rest := by
  cases h with
  | none =>
    rintro _ ⟨⟩
    exact hc
  | more space =>
    rintro _ ⟨⟩
    exact mem_stops_of_isSpace space

theorem of_blank_nil (h : Blank rest []) : Stops rest := by
  cases h with
  | none => exact nofun
  | more space =>
    rintro _ ⟨⟩
    exact mem_stops_of_isSpace space

private theorem digit? (h : Stops rest) : ∀ c ∈ rest.head?, Json.digit? c = none := by
  have hall : ∀ c ∈ stops, Json.digit? c = none := by simp [stops, Json.digit?]
  exact fun c hc => hall c (h c hc)

private theorem fractionPart? (h : Stops rest) : Json.fractionPart? rest = none := by
  unfold Json.fractionPart?
  split
  · exact absurd (h '.' rfl) (by decide)
  · rfl

private theorem exponentPart? (h : Stops rest) : Literal.exponentPart? Json.digit? rest = none := by
  cases rest with
  | nil => rfl
  | cons c rest =>
    have hall : ∀ c ∈ stops, (c = 'e' || c = 'E') = false := by simp [stops]
    rw [Literal.exponentPart?, hall c (h c rfl), if_neg Bool.false_ne_true]

end Stops

private theorem wholeText_of_wholePart {cs rest : List Char} {ns : List Nat} (h : wholePart? cs = some (ns, rest)) :
    ∃ t, WholeText t ns ∧ cs = t ++ rest := by
  unfold wholePart? at h
  split at h
  · cases h
    exact ⟨['0'], ⟨.cons rfl .nil, List.cons_ne_nil _ _, fun _ => rfl⟩, rfl⟩
  · rename_i hzero
    obtain ⟨t, hsplit, hdigits⟩ := digitRun_parts Json.digit? cs
    split at h
    · cases h
    · rename_i hne hrun
      cases h
      rw [hrun] at hsplit hdigits
      refine ⟨t, ⟨hdigits, mt hdigits.eq_nil_iff.mp hne, fun hhead => ?_⟩, hsplit⟩
      obtain ⟨t', rfl⟩ := List.head?_eq_some_iff.mp hhead
      exact absurd hsplit (hzero _)

private theorem WholeText.wholePart?_append {cs rest : List Char} {ns : List Nat} (h : WholeText cs ns)
    (hrest : ∀ c ∈ rest.head?, digit? c = none) : wholePart? (cs ++ rest) = some (ns, rest) := by
  obtain ⟨hdigits, rfl⟩ := digits_iff.mp h.digits
  refine Json.wholePart?_append hdigits h.ne h.zero fun c hc => Bool.eq_false_iff.mpr fun hdigit => ?_
  cases (digit?_of_isDigit hdigit).symm.trans (hrest c hc)

private theorem fractionText_of_fractionPart {cs rest : List Char} {ns : List Nat} (h : fractionPart? cs = some (ns, rest)) :
    ∃ t, FractionText t ns ∧ t ≠ [] ∧ cs = t ++ rest := by
  unfold fractionPart? at h
  split at h
  · rename_i cs
    obtain ⟨t, hsplit, hdigits⟩ := digitRun_parts Json.digit? cs
    split at h
    · cases h
    · rename_i hne hrun
      cases h
      rw [hrun] at hsplit hdigits
      exact ⟨'.' :: t, .point hdigits (mt hdigits.eq_nil_iff.mp hne), List.cons_ne_nil _ _, by rw [hsplit]; rfl⟩
  · cases h

private theorem split_minus {cs signless : List Char} {negative : Bool}
    (h : (match cs with
      | '-' :: rest => (true, rest)
      | _ => (false, cs) : Bool × List Char) = (negative, signless)) : cs = minus negative ++ signless := by
  split at h <;> cases h <;> rfl

/-- What is read as a number is spelled by the characters that are read, and an integer is not long. -/
theorem numberText_of_readNumber {cs rest : List Char} {v : Json} (h : readNumber cs = .ok (v, rest)) :
    ∃ t, NumberText (· ≤ maxIntegerDigits) t v ∧ cs = t ++ rest := by
  unfold readNumber at h
  split at h
  rename_i negative signless hsign
  obtain rfl := split_minus hsign
  split at h
  · cases h
  · rename_i ns afterWhole hwhole
    obtain ⟨t, ht, rfl⟩ := wholeText_of_wholePart hwhole
    split at h
    · rename_i ms afterFraction hfraction
      obtain ⟨f, hf, hne, rfl⟩ := fractionText_of_fractionPart hfraction
      obtain ⟨x, hx, hsplit⟩ := exponentPart?_parts digit? afterFraction
      cases h
      refine ⟨_, .float negative ht hf hx (.inl hne), ?_⟩
      rw [List.append_assoc, List.append_assoc, List.append_assoc]
      exact congrArg (fun after => minus negative ++ (t ++ (f ++ after))) hsplit
    · split at h
      · rename_i e afterExponent hexponent
        obtain ⟨x, hx, hne, rfl⟩ := exponentText_of_exponentPart hexponent
        cases h
        refine ⟨_, .float negative ht .none hx (.inr hne), ?_⟩
        rw [List.append_assoc, List.append_assoc, List.nil_append]
      · split at h
        · cases h
        · rename_i hshort
          cases h
          exact ⟨_, .int negative ht (Nat.not_lt.mp hshort), (List.append_assoc _ _ _).symm⟩

/-- Why a text of the grammar may not be read: its containers are nested too deeply, or it has a long integer. -/
inductive Beyond (short : Nat → Prop) : ReadError → Prop where
  | tooDeep (container : Container) : Beyond short (.tooDeep container)
  | longInteger {n : Nat} (isShort : short n) (long : maxIntegerDigits < n) : Beyond short (.longInteger n)

/-- A result is this one, unless it is beyond the limits of the reader. -/
inductive Gives {α : Type} (short : Nat → Prop) (x : Except ReadError α) (a : α) : Prop where
  | ok (eq : x = .ok a)
  | beyond {reason : ReadError} (eq : x = .error reason) (limit : Beyond short reason)

variable {short : Nat → Prop}

theorem Gives.map {α β : Type} {x : Except ReadError α} {a : α} (h : Gives short x a) (f : α → β) :
    Gives short (x.map f) (f a) := by
  cases h with
  | ok eq => exact .ok (by rw [eq]; rfl)
  | beyond eq limit => exact .beyond (by rw [eq]; rfl) limit

private theorem exponentText_stop {x rest : List Char} {e : Int} (h : ExponentText digit? x e) (hrest : Stops rest) :
    (exponentPart? digit? (x ++ rest)).getD (0, x ++ rest) = (e, rest) ∧
      (x ≠ [] → exponentPart? digit? (x ++ rest) = some (e, rest)) := by
  cases h with
  | none =>
    rw [List.nil_append, hrest.exponentPart?]
    exact ⟨rfl, absurd rfl⟩
  | marked isMark signed digits ne =>
    rw [exponentPart?_marked apart_digit? isMark signed digits ne, digitRun_stop hrest.digit?, List.append_nil]
    exact ⟨rfl, fun _ => rfl⟩

private theorem isDigit_exponentText {x rest : List Char} {e : Int} (h : ExponentText digit? x e) (hrest : Stops rest) :
    ∀ c ∈ (x ++ rest).head?, digit? c = none := by
  cases h with
  | none => exact hrest.digit?
  | marked isMark =>
    rintro _ ⟨⟩
    exact apart_digit?.mark _ isMark

/-- An integer is read up to its end if it is not long. -/
theorem readNumber_whole (negative : Bool) {cs rest : List Char} {ns : List Nat} (whole : WholeText cs ns)
    (hrest : Stops rest) :
    readNumber (minus negative ++ cs ++ rest) =
      if maxIntegerDigits < ns.length then .error (.longInteger ns.length)
      else .ok (.int (Exact.signed negative (ofDigits ns)), rest) := by
  have hwhole := whole.wholePart?_append hrest.digit?
  rw [List.append_assoc]
  unfold readNumber
  split
  rename_i heq
  obtain ⟨rfl, rfl⟩ := Prod.mk.inj ((sign_minus _ hwhole).symm.trans heq)
  simp only [hwhole, hrest.fractionPart?, hrest.exponentPart?]

/-- A number is read up to its end, unless it is a long integer. -/
theorem NumberText.readNumber_append {cs rest : List Char} {v : Json} (h : NumberText short cs v) (hrest : Stops rest) :
    Gives short (readNumber (cs ++ rest)) (v, rest) := by
  cases h with
  | int negative whole isShort =>
    rw [readNumber_whole negative whole hrest]
    split
    · rename_i hlong
      exact .beyond rfl (.longInteger isShort hlong)
    · exact .ok rfl
  | @float negative cs fs xs ns ms e whole fraction exponent ne =>
    obtain ⟨hgetD, hsome⟩ := exponentText_stop exponent hrest
    have hdigit := isDigit_exponentText exponent hrest
    rw [List.append_assoc, List.append_assoc, List.append_assoc]
    refine .ok ?_
    cases fraction with
    | none =>
      have hwhole := whole.wholePart?_append hdigit
      have hfraction : fractionPart? (xs ++ rest) = none := by
        cases exponent with
        | none => exact absurd rfl (ne.resolve_left (absurd rfl))
        | marked isMark => obtain rfl | rfl := isMark <;> rfl
      rw [List.nil_append]
      unfold readNumber
      split
      rename_i heq
      obtain ⟨rfl, rfl⟩ := Prod.mk.inj ((sign_minus _ hwhole).symm.trans heq)
      simp only [hwhole, hfraction, hsome (ne.resolve_left (absurd rfl))]
    | @point fs ms digits hne =>
      have hwhole : wholePart? (cs ++ '.' :: (fs ++ (xs ++ rest))) = some (ns, '.' :: (fs ++ (xs ++ rest))) := by
        refine whole.wholePart?_append ?_
        rintro _ ⟨⟩
        exact apart_digit?.point
      have hfraction : fractionPart? ('.' :: (fs ++ (xs ++ rest))) = some (ms, xs ++ rest) := by
        obtain ⟨m, ms, rfl⟩ := List.exists_cons_of_ne_nil (mt digits.eq_nil_iff.mpr hne)
        rw [fractionPart?, digitRun_digits digits, digitRun_stop hdigit, List.append_nil]
      rw [List.cons_append]
      unfold readNumber
      split
      rename_i heq
      obtain ⟨rfl, rfl⟩ := Prod.mk.inj ((sign_minus _ hwhole).symm.trans heq)
      simp only [hwhole, hfraction, hgetD]

end Json
end WireCut
