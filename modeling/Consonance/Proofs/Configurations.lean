import Consonance.Config
import Consonance.Proofs.Stream

/-!
# Configurations that can be used

The bound of a configuration is an ordered part of the MIDI range, and that of its preset if it has
one (`Config.Usable`).  So it always has a pitch space, with just this bound
(`Config.Usable.pitchSpace`).

The usable configurations are the ones that fields give (`Config.exists_fields_iff`).  A preset, a
document, a file and the environment give no others, since what they give can be given by fields
(`Config.exists_fields`).
-/

namespace Consonance

/-! ## Presets -/

theorem Preset.ofValue?_eq_some_iff {v : Value} {p : Preset} :
    Preset.ofValue? v = some p ↔ v = .text p.name := by
  constructor
  · intro h
    cases v with
    | text s =>
        have hfound : Preset.all.find? (fun r => r.name == s) = some p := h
        have hname : (p.name == s) = true := by simpa only using List.find?_some hfound
        rw [eq_of_beq hname]
    | _ => cases h
  · rintro rfl
    cases p <;> rfl

namespace Config

variable {config : Config} {fields : List (Value × Value)} {v : Value}

/-- The bound of the configuration is an ordered part of the MIDI range, and the range of its
preset if it has one. -/
structure Usable (config : Config) : Prop where
  lowest_nonneg : 0 ≤ config.lowest
  ordered : config.lowest ≤ config.highest
  highest_le : config.highest ≤ 127
  preset : ∀ p, config.preset = some p →
    config.lowest = p.space.lowest ∧ config.highest = p.space.highest

theorem usable_ofPreset (p : Preset) : (ofPreset p).Usable where
  lowest_nonneg := by cases p <;> decide
  ordered := p.space.ordered
  highest_le := by cases p <;> decide
  preset := by
    rintro _ ⟨⟩
    exact ⟨rfl, rfl⟩

/-- A usable configuration has a pitch space, with its bound. -/
theorem Usable.pitchSpace (h : config.Usable) :
    ∃ space, config.pitchSpace = .ok space ∧
      space.lowest = config.lowest ∧ space.highest = config.highest :=
  ⟨⟨config.lowest, config.highest, h.ordered⟩, dif_pos h.ordered, rfl, rfl⟩

/-! ## Fields -/

theorem exists_of_readEnd {items : List Value} {index : Nat} {n : Int}
    (h : readEnd items index = .ok n) : ∃ w, items[index]? = some w ∧ w.toWhole = .ok n := by
  unfold readEnd at h
  split at h
  next w hw => exact ⟨w, hw, h⟩
  next => cases h

/-- A bound is a list of two values that stand for an ordered part of the MIDI range. -/
theorem readBound_eq_ok_iff {lowest highest : Int} :
    readBound v = .ok (lowest, highest) ↔
      ∃ low high, v = .list [low, high] ∧ low.toWhole = .ok lowest ∧ high.toWhole = .ok highest ∧
        0 ≤ lowest ∧ lowest ≤ highest ∧ highest ≤ 127 := by
  constructor
  · intro h
    unfold readBound at h
    split at h
    next items =>
      split at h
      next => cases h
      next hlength =>
        split at h
        next hlow hhigh =>
          split at h
          next hbound =>
            cases h
            obtain ⟨low, hfirst, hlow⟩ := exists_of_readEnd hlow
            obtain ⟨high, hsecond, hhigh⟩ := exists_of_readEnd hhigh
            have hitems : items = [low, high] := by
              rcases items with _ | ⟨first, _ | ⟨second, _ | ⟨third, rest⟩⟩⟩
              · cases hfirst
              · cases hsecond
              · cases hfirst
                cases hsecond
                rfl
              · simp at hlength
            exact ⟨low, high, congrArg _ hitems, hlow, hhigh, hbound⟩
          next => cases h
        next => cases h
    next => cases h
  · rintro ⟨low, high, rfl, hlow, hhigh, hbound⟩
    simp [readBound, readEnd, hlow, hhigh, hbound]

/-- A preset gives its range, whatever bound comes with it. -/
theorem ofFields_preset {p : Preset} (h : Value.field? "preset" fields = some (.text p.name)) :
    ofFields fields = .ok (ofPreset p) := by
  have hpreset : Preset.ofValue? (.text p.name) = some p := Preset.ofValue?_eq_some_iff.mpr rfl
  simp only [ofFields, h, Option.getD_some, hpreset]

/-- Fields give usable configurations. -/
theorem usable_of_ofFields (h : ofFields fields = .ok config) : config.Usable := by
  unfold ofFields at h
  split at h
  · split at h
    next bound _ =>
      obtain ⟨⟨lowest, highest⟩, hread, h⟩ := bind_eq_ok.mp h
      cases h
      obtain ⟨-, -, -, -, -, hlow, hordered, hhigh⟩ := readBound_eq_ok_iff.mp hread
      exact ⟨hlow, hordered, hhigh, nofun⟩
    next =>
      cases h
      exact ⟨by decide, by decide, by decide, nofun⟩
  · split at h
    next p _ =>
      cases h
      exact usable_ofPreset p
    next => cases h

/-- The usable configurations are those that fields give. -/
theorem exists_fields_iff : (∃ fields, ofFields fields = .ok config) ↔ config.Usable := by
  refine ⟨fun ⟨fields, h⟩ => usable_of_ofFields h, fun h => ?_⟩
  cases hpreset : config.preset with
  | none =>
      refine ⟨[(.text "bound", .list [.int config.lowest, .int config.highest])], ?_⟩
      have hread := readBound_eq_ok_iff.mpr ⟨_, _, rfl, Value.toWhole_int config.lowest,
        Value.toWhole_int config.highest, h.lowest_nonneg, h.ordered, h.highest_le⟩
      show ofBound _ = _
      rw [ofBound, hread, ← hpreset]
      rfl
  | some p =>
      refine ⟨[(.text "preset", .text p.name)], (ofFields_preset rfl).trans ?_⟩
      obtain ⟨hlow, hhigh⟩ := h.preset p hpreset
      rw [ofPreset, ← hlow, ← hhigh, ← hpreset]

/-! ## Other sources -/

theorem forPreset_eq_ok_iff :
    forPreset v = .ok config ↔ ∃ p, v = .text p.name ∧ config = ofPreset p := by
  constructor
  · intro h
    unfold forPreset at h
    split at h
    next p hp =>
      cases h
      exact ⟨p, Preset.ofValue?_eq_some_iff.mp hp, rfl⟩
    next => cases h
  · rintro ⟨p, rfl, rfl⟩
    rw [forPreset, Preset.ofValue?_eq_some_iff.mpr rfl]

theorem exists_fields_of_forPreset (h : forPreset v = .ok config) :
    ∃ fields, ofFields fields = .ok config := by
  obtain ⟨p, -, rfl⟩ := forPreset_eq_ok_iff.mp h
  exact ⟨[(.text "preset", .text p.name)], ofFields_preset rfl⟩

theorem exists_fields_of_ofDocument (h : ofDocument v = .ok config) :
    ∃ fields, ofFields fields = .ok config := by
  unfold ofDocument at h
  split at h
  · cases h
    exact ⟨[], rfl⟩
  · split at h
    next fields =>
      obtain ⟨listed, -, h⟩ := bind_eq_ok.mp h
      split at h
      next => exact ⟨listed, h⟩
      next => cases h
    next => cases h

theorem exists_fields_of_ofFile {files : Store String} {path : String}
    (h : ofFile files path = .ok config) : ∃ fields, ofFields fields = .ok config := by
  obtain ⟨text, -, h⟩ := bind_eq_ok.mp h
  obtain ⟨document, -, h⟩ := bind_eq_ok.mp h
  exact exists_fields_of_ofDocument h

/-- A configuration can be made from fields, wherever it comes from. -/
theorem exists_fields {files : Store String} {source : Source}
    (h : ofSource files source = .ok config) : ∃ fields, ofFields fields = .ok config := by
  cases source with
  | preset name => exact exists_fields_of_forPreset h
  | file path => exact exists_fields_of_ofFile h
  | standard =>
      cases h
      exact ⟨[], rfl⟩

/-! ## The environment -/

section Environment

variable {preset : Value} {env : Environment} {files : Store String}

theorem isGiven_text (s : String) : (Value.text s).isGiven = (s != "") := rfl

theorem load_of_given (h : preset.isGiven = true) : load preset env files = forPreset preset := by
  simp [load, source, h, ofSource]

theorem load_of_variable (h : preset.isGiven = false) {name : String}
    (hname : env.preset = some name) (hempty : name ≠ "") :
    load preset env files = forPreset (.text name) := by
  simp [load, source, h, hname, isGiven_text, hempty, ofSource]

theorem load_of_file (h : preset.isGiven = false) (hvariable : env.preset.getD "" = "")
    {path : String} (hpath : env.configPath = some path) (hempty : path ≠ "") :
    load preset env files = ofFile files path := by
  simp [load, source, h, hvariable, hpath, isGiven_text, hempty, ofSource]

theorem load_of_nothing (h : preset.isGiven = false) (hvariable : env.preset.getD "" = "")
    (hpath : env.configPath.getD "" = "") : load preset env files = .ok standard := by
  simp [load, source, h, hvariable, hpath, isGiven_text, ofSource]

end Environment

end Config

end Consonance
