import WireCut.Proofs.Json.Printed
import WireCut.Proofs.Settings.Usable

/-! Saved profiles. What is saved for a profile from a file is the text of a file that gives the same profile. -/
namespace WireCut

/-- A text without carriage returns is read from its bytes as it is. -/
theorem FileContent.text_toUTF8 {text : String} (h : '\r' ∉ text.toList) :
    (FileContent.bytes text.toUTF8).text = .ok text.toList := by
  have hends (cs : List Char) (h : '\r' ∉ cs) : Text.unifyLineEnds cs = cs := by
    induction cs with
    | nil => rfl
    | cons c cs ih =>
      rw [List.mem_cons, not_or] at h
      rw [Text.unifyLineEnds.eq_3 _ _ (fun _ hc _ => h.1 hc.symm) fun hc => h.1 hc.symm, ih h.2]
  have hbytes : String.fromUTF8? text.toUTF8 = some text := by
    rw [String.fromUTF8?, String.toUTF8_eq_toByteArray, dif_pos text.isValidUTF8]
    rfl
  rw [FileContent.text, hbytes]
  dsimp only
  rw [hends _ h]

namespace CodePoints

/-- A text without surrogates is joined. -/
private theorem joined_of_lt {s : CodePoints} (h : ∀ n ∈ s, n < 0xd800) : s.Joined := by
  refine ⟨fun n hn => Nat.lt_trans (h n hn) (by decide), ?_⟩
  induction s with
  | nil => exact .nil
  | cons n s ih =>
    refine List.isChain_cons.mpr ⟨fun _ _ hpair => ?_, ih fun m hm => h m (List.mem_cons_of_mem n hm)⟩
    exact absurd hpair.1.1 (Nat.not_le.mpr (h n List.mem_cons_self))

end CodePoints

namespace Setting

theorem ofKey?_key (s : Setting) : ofKey? (CodePoints.ofString s.key) = some s := by
  cases s <;> decide

private theorem joined_key (s : Setting) : (CodePoints.ofString s.key).Joined := by
  refine CodePoints.joined_of_lt ?_
  cases s <;> decide

private theorem nodup_keys : (all.map fun s => CodePoints.ofString s.key).Nodup := by decide

end Setting

namespace Profile
open Json
variable {p : Profile}

private theorem legible_default (depth : Nat) (s : Setting) : Legible depth (default s) := by
  have hshort {n : Int} (h : n.natAbs < 10 ^ 3) : n.natAbs < 10 ^ Literal.maxIntegerDigits :=
    Nat.lt_of_lt_of_le h (Nat.pow_le_pow_right (by decide) (by decide))
  cases s <;> first
    | exact .float _
    | exact .int (hshort (by decide))
    | exact .str (CodePoints.joined_of_lt (by decide))

/-- The value of a setting is the standard one or that of a field. -/
private theorem ofFields_eq_or (fields : List (CodePoints × Json)) (s : Setting) :
    ofFields fields s = default s ∨ ∃ field ∈ fields, ofFields fields s = field.2 := by
  refine List.foldlRecOn (motive := fun p : Profile => p s = default s ∨ ∃ field ∈ fields, p s = field.2) fields _
    (.inl rfl) fun p hp field hfield => ?_
  cases Setting.ofKey? field.1 with
  | none => exact hp
  | some t =>
    by_cases hs : s = t
    · exact .inr ⟨field, hfield, if_pos hs⟩
    · have hkept : p.set t field.2 s = p s := if_neg hs
      simpa only [hkept] using hp

/-- The fields that are saved give each setting its value. -/
private theorem ofFields_keys (p : Profile) : ofFields (Setting.all.map fun s => (CodePoints.ofString s.key, p s)) = p := by
  have hfold (put : Profile → CodePoints × Json → Profile)
      (hput : ∀ q s, put q (CodePoints.ofString s.key, p s) = q.set s (p s)) (settings : List Setting) (q : Profile)
      (s : Setting) : (settings.map fun s => (CodePoints.ofString s.key, p s)).foldl put q s =
        if s ∈ settings then p s else q s := by
    induction settings generalizing q with
    | nil => rfl
    | cons t settings ih =>
      rw [List.map_cons, List.foldl_cons, ih, hput]
      simp only [set, List.mem_cons]
      by_cases hmem : s ∈ settings
      · rw [if_pos hmem, if_pos (.inr hmem)]
      · rw [if_neg hmem]
        by_cases hs : s = t
        · rw [if_pos hs, if_pos (.inl hs), hs]
        · rw [if_neg hs, if_neg (not_or.mpr ⟨hs, hmem⟩)]
  funext s
  refine (hfold _ (fun q s => ?_) Setting.all default s).trans (if_pos (Setting.mem_all s))
  rw [Setting.ofKey?_key]

private theorem load_legible {file : FileContent} (h : load file = .ok p) : Legible maxDepth p.toJson := by
  obtain ⟨cs, fields, -, hread, rfl, -⟩ := load_eq_ok h
  have hobject := legible_of_read hread
  generalize hdepth : maxDepth = depth at hobject ⊢
  cases hobject with
  | @obj depth _ keys each nodup =>
    refine .obj (List.forall_mem_map.mpr fun s _ => s.joined_key) (List.forall_mem_map.mpr fun s _ => ?_) ?_
    · obtain heq | ⟨field, hfield, heq⟩ := ofFields_eq_or fields s
      · exact heq ▸ legible_default depth s
      · exact heq ▸ each field hfield
    · rw [List.map_map]
      exact Setting.nodup_keys

/-- A profile whose values are legible and that is usable is read from its own text. -/
private theorem load_text (hlegible : Legible maxDepth p.toJson) (hvalid : p.validate = .ok ()) :
    load (.bytes p.text.toUTF8) = .ok p := by
  obtain ⟨hread, hreturn⟩ := hlegible.read_print
  have htext : p.text.toList = print 0 [] p.toJson := String.toList_ofList
  rw [load, FileContent.text_toUTF8 (htext ▸ hreturn), htext]
  rw [toJson] at hread
  simp only [ofText, toJson, hread, ofFields_keys, hvalid]
  rfl

end Profile

/-- What is saved for a profile that a file gives is accepted, and it gives a profile of which every setting has the same
value and that is saved as the same text. Every such profile can be saved unless its values are nested too deeply. -/
theorem Profile.load_save {file : FileContent} {p : Profile} (h : load file = .ok p) :
    ((∀ s, (p s).room ≤ maxRoom) → ∃ text, p.save = .ok text) ∧
      ∀ text, p.save = .ok text → ∃ q, load (.bytes text.toUTF8) = .ok q ∧ loadOrDefault (.bytes text.toUTF8) = .ok q ∧
        (∀ s, q s = p s) ∧ q.save = .ok text := by
  have hload := load_text (load_legible h) (load_validate h)
  refine ⟨fun hroom => ⟨p.text, ?_⟩, fun text hsave => ?_⟩
  · rw [save, if_pos (by simpa using fun s _ => hroom s)]
  · have htext : text = p.text := by
      rw [save] at hsave
      split at hsave
      · exact (Except.ok.inj hsave).symm
      · cases hsave
    subst htext
    exact ⟨p, hload, by rw [loadOrDefault, hload], fun _ => rfl, hsave⟩

/-- A file with values of every kind where no number is looked for: containers in one another, a character beyond `2^16`,
half of a surrogate pair, a long whole number, a negative zero, and floats without digits. -/
theorem Profile.load_save_nested :
    let file := FileContent.bytes ("\x7b\"name\": [\"\\ud83d\\ude00\\ud83d\", \x7b\"\": -0.0, \"x\": [NaN, 1e400, \x7b\x7d]\x7d], "
      ++ "\"speed\": 123456789012345678901234567890\x7d").toUTF8
    ∃ p, load file = .ok p ∧ ((∀ s, (p s).room ≤ maxRoom) → ∃ text, p.save = .ok text) ∧
      ∀ text, p.save = .ok text → ∃ q, load (.bytes text.toUTF8) = .ok q ∧ loadOrDefault (.bytes text.toUTF8) = .ok q ∧
        (∀ s, q s = p s) ∧ q.save = .ok text := by
  intro file
  have hread : (load file).toOption.isSome = true := by decide +kernel
  cases h : load file with
  | error reason =>
    rw [h] at hread
    cases hread
  | ok p => exact ⟨p, rfl, load_save h⟩

end WireCut
