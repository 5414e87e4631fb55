import Consonance.Proofs.Conversion
import Consonance.Proofs.Exports
import Consonance.Proofs.NoteAnswers
import Consonance.Proofs.PitchedAnswers

/-!
# Answers of the query tools

A query tool never raises.  It reports an error, or it lists the first solutions of its question in
the order in which the same question without a limit finds them (`Tool.run_question`).

The solutions are those of the space that the preset names, and the limit only says how many of
them are listed.  This needs the rows of a question to be uniform: a solution beyond the limit is
never described, and it must not spoil the answer in full.
-/

namespace Consonance

open Consonance.Text

/-! ## Questions -/

/-- What one of the query tools is asked, the limit and the preset aside. -/
inductive Question where
  | note (pitchClass octave pitch : Value)
  | interval (distance first second : Value)
  | chord (quality root low middle high : Value)

/-- A solution as a tool lists it, with the notes that it shows. -/
structure Listed where
  record : Value
  notes : List NoteSolution

def NoteSolution.listed (s : NoteSolution) : Listed := ⟨s.record, [s]⟩

def IntervalSolution.listed (s : IntervalSolution) : Listed := ⟨s.record, [s.first, s.second]⟩

def ChordSolution.listed (s : ChordSolution) : Listed := ⟨s.record, s.root :: s.voices⟩

namespace Question

def tool : Question → Tool
  | note .. => .note
  | interval .. => .interval
  | chord .. => .chord

/-- The arguments of the tool, in the order of its parameters. -/
def arguments : Question → List Value
  | note pitchClass octave pitch => [pitchClass, octave, pitch]
  | interval distance first second => [distance, first, second]
  | chord quality root low middle high => [quality, root, low, middle, high]

/-- The arguments that are read as pitches. -/
def pitchArguments : Question → List Value
  | note _ _ pitch => [pitch]
  | interval _ first second => [first, second]
  | chord _ root low middle high => [root, low, middle, high]

/-- The field of the answer that lists the solutions. -/
def key : Question → String
  | note .. => "notes"
  | interval .. => "intervals"
  | chord .. => "chords"

/-- The solutions of a question in a space, up to a limit. -/
def solve (limit : Value) (space : PitchSpace) : Question → Except Failure (List Listed)
  | note c octave pitch => do
    return (← NoteQuery.solve ⟨c, octave, pitch, limit⟩ space).map NoteSolution.listed
  | interval d first second => do
    return (← IntervalQuery.solve ⟨d, first, second, limit⟩ space).map IntervalSolution.listed
  | chord quality root low middle high => do
    return (← ChordQuery.solve ⟨quality, root, low, middle, high, limit⟩ space).map
      ChordSolution.listed

/-- One of the arguments is a name that means nothing: it is no name of a pitch class, of an
interval or of a quality, or it is given as a pitch and cannot be read as one. -/
inductive HasUnknown : Question → Prop where
  | pitchClass {s : String} {octave pitch : Value} (unknown : ∀ c : PitchClass, strip s ∉ c.names) :
      HasUnknown (.note (.text s) octave pitch)
  | interval {s : String} {first second : Value}
      (isName : IntervalQuery.intervalArgument (.text s) = .ok (.text s))
      (unknown : IntervalTable.common.find? s = none) :
      HasUnknown (.interval (.text s) first second)
  | quality {s : String} {root low middle high : Value} (unknown : ChordQuality.ofName? s = none) :
      HasUnknown (.chord (.text s) root low middle high)
  | pitch {q : Question} {v : Value} (isPitch : v ∈ q.pitchArguments) (given : v ≠ .nothing)
      (unknown : ∀ p, resolvePitch v ≠ .ok p) : HasUnknown q

end Question

namespace Tool

/-- The answer reports success. -/
def Succeeds (text : String) : Prop := ∃ fields, text = answer (.ok fields)

/-- The answer reports an error. -/
def Fails (text : String) : Prop := ∃ f, text = answer (.error f)

/-- The space that a preset chooses: that of the named preset, or of the configuration. -/
inductive Chooses (config : Config) : Value → PitchSpace → Prop where
  | own {space : PitchSpace} (configured : config.pitchSpace = .ok space) :
      Chooses config .nothing space
  | named (p : Preset) : Chooses config (.text p.name) p.space

/-- The number of solutions that a limit admits: 24 without a limit, and else the limit itself,
which is an integer from 1 to 512. -/
inductive Admits : Value → Nat → Prop where
  | usual : Admits .nothing 24
  | given {v : Value} {n : Nat} (whole : v.whole? = some (n : Int)) (positive : 1 ≤ n)
      (atMost : n ≤ 512) : Admits v n

variable {config : Config} {space : PitchSpace} {limit preset v : Value} {q : Question}
  {text : String}

theorem Fails.not_succeeds (h : Fails text) : ¬ Succeeds text := by
  rintro ⟨fields, hfields⟩
  obtain ⟨f, hf⟩ := h
  exact answer_ok_ne_error fields f (hfields.symm.trans hf)

/-! ## Presets -/

theorem chooses_of_spaceOf (h : spaceOf config preset = .ok space) :
    Chooses config preset space := by
  unfold spaceOf at h
  split at h
  · exact .own h
  · obtain ⟨config', hconfig, h⟩ := bind_eq_ok.mp h
    obtain ⟨p, rfl, rfl⟩ := Config.forPreset_eq_ok_iff.mp hconfig
    have hspace : p.space = space := by
      cases p <;> exact Except.ok.inj h
    rw [← hspace]
    exact .named p

/-- A preset chooses one space only. -/
theorem Chooses.unique {space' : PitchSpace} (h : Chooses config preset space)
    (h' : Chooses config preset space') : space = space' := by
  cases h with
  | own configured =>
      cases h' with
      | own configured' => exact Except.ok.inj (configured.symm.trans configured')
  | named p =>
      generalize hpreset : Value.text p.name = preset at h'
      cases h' with
      | own => cases hpreset
      | named r =>
          have hname : p.name = r.name := Value.text.inj hpreset
          cases p <;> cases r <;> first | rfl | exact absurd hname (by decide)

/-- Every preset is a space within MIDI, and so is that of a configuration. -/
theorem Chooses.isMidi {fields : List (Value × Value)}
    (hconfig : Config.ofFields fields = .ok config)
    (h : Chooses config preset space) : space.IsMidi := by
  cases h with
  | own configured =>
      obtain ⟨space', hspace', hmidi⟩ := Config.isMidi_of_ofFields hconfig
      cases configured.symm.trans hspace'
      exact hmidi
  | named p => cases p <;> exact ⟨by decide, by decide⟩

/-! ## Limits -/

/-- A limit admits one number only. -/
theorem Admits.unique {m n : Nat} (h : Admits limit m) (h' : Admits limit n) : m = n := by
  cases h with
  | usual =>
      cases h' with
      | usual => rfl
      | given whole => cases whole
  | given whole =>
      cases h' with
      | usual => cases whole
      | given whole' => exact Int.ofNat.inj (Option.some.inj (whole.symm.trans whole'))

/-- Only a whole number limits a search. -/
theorem whole_of_run {goal : Goal} {ts : List Term} {rows : List Row} (hv : v ≠ .nothing)
    (h : Consonance.run goal ts v space = .ok rows) : ∃ n, v.whole? = some n := by
  unfold Consonance.run at h
  split at h
  · exact absurd rfl hv
  · obtain ⟨negative, -, h⟩ := bind_eq_ok.mp h
    split at h
    · cases h
    · obtain ⟨count, hcount, -⟩ := bind_eq_ok.mp h
      unfold rowCount at hcount
      split at hcount
      next n hn => exact ⟨n, hn⟩
      next => cases hcount

/-- A limit that a search could take is in range. -/
theorem admits_of_run {goal : Goal} {ts : List Term} {rows : List Row} (hv : limitOf limit = .ok v)
    (h : Consonance.run goal ts v space = .ok rows) :
    ∃ n : Nat, Admits limit n ∧ v.whole? = some (n : Int) ∧ 1 ≤ n ∧ n ≤ 512 := by
  unfold limitOf at hv
  split at hv
  · cases hv
    exact ⟨24, .usual, rfl, by decide, by decide⟩
  next hgiven =>
    obtain ⟨within, hwithin, hv⟩ := bind_eq_ok.mp hv
    split at hv
    next hin =>
      cases hv
      obtain ⟨n, hn⟩ := whole_of_run (fun hnothing => hgiven hnothing) h
      rw [Value.within_whole hn] at hwithin
      obtain ⟨hlow, hhigh⟩ : 1 ≤ n ∧ n ≤ 512 :=
        of_decide_eq_true ((Except.ok.inj hwithin).trans hin)
      obtain ⟨k, rfl⟩ := Int.eq_ofNat_of_zero_le (Int.le_trans (by decide) hlow)
      exact ⟨k, .given hn (by omega) (by omega), hn, by omega, by omega⟩
    next => cases hv

end Tool

/-! ## Solutions under a limit -/

namespace Question

variable {config : Config} {space : PitchSpace} {limit preset v : Value} {q : Question}
  {shown : List Listed}

/-- A question is solved by building its goal and describing the rows that the goal has. -/
theorem solve_note_iff {c octave pitch : Value} :
    (note c octave pitch).solve v space = .ok shown ↔ ∃ goal ts m solved,
      NoteQuery.goal ⟨c, octave, pitch, v⟩ 0 = .ok ((goal, ts), m) ∧
        (do (← run goal ts v space).mapM NoteQuery.describe) = .ok solved ∧
          shown = solved.map NoteSolution.listed := by
  constructor
  · intro h
    obtain ⟨solved, hsolve, h⟩ := bind_eq_ok.mp h
    obtain ⟨⟨⟨goal, ts⟩, m⟩, hgoal, hsolved⟩ := bind_eq_ok.mp hsolve
    cases h
    exact ⟨goal, ts, m, solved, hgoal, hsolved, rfl⟩
  · rintro ⟨goal, ts, m, solved, hgoal, hsolved, rfl⟩
    exact bind_eq_ok.mpr ⟨solved, bind_eq_ok.mpr ⟨_, hgoal, hsolved⟩, rfl⟩

theorem solve_interval_iff {distance first second : Value} :
    (interval distance first second).solve v space = .ok shown ↔ ∃ goal d ts m solved,
      IntervalQuery.goal ⟨distance, first, second, v⟩ 0 = .ok ((goal, d, ts), m) ∧
        (do (← run goal ts v space).mapM (IntervalQuery.describe space d)) = .ok solved ∧
          shown = solved.map IntervalSolution.listed := by
  constructor
  · intro h
    obtain ⟨solved, hsolve, h⟩ := bind_eq_ok.mp h
    obtain ⟨⟨⟨goal, d, ts⟩, m⟩, hgoal, hsolved⟩ := bind_eq_ok.mp hsolve
    cases h
    exact ⟨goal, d, ts, m, solved, hgoal, hsolved, rfl⟩
  · rintro ⟨goal, d, ts, m, solved, hgoal, hsolved, rfl⟩
    exact bind_eq_ok.mpr ⟨solved, bind_eq_ok.mpr ⟨_, hgoal, hsolved⟩, rfl⟩

theorem solve_chord_iff {quality root low middle high : Value} :
    (chord quality root low middle high).solve v space = .ok shown ↔ ∃ goal made ts m solved,
      ChordQuery.goal ⟨quality, root, low, middle, high, v⟩ 0 = .ok ((goal, made, ts), m) ∧
        (do (← run goal ts v space).mapM (ChordQuery.describe space made)) = .ok solved ∧
          shown = solved.map ChordSolution.listed := by
  constructor
  · intro h
    obtain ⟨solved, hsolve, h⟩ := bind_eq_ok.mp h
    obtain ⟨⟨⟨goal, made, ts⟩, m⟩, hgoal, hsolved⟩ := bind_eq_ok.mp hsolve
    cases h
    exact ⟨goal, made, ts, m, solved, hgoal, hsolved, rfl⟩
  · rintro ⟨goal, made, ts, m, solved, hgoal, hsolved, rfl⟩
    exact bind_eq_ok.mpr ⟨solved, bind_eq_ok.mpr ⟨_, hgoal, hsolved⟩, rfl⟩

/-- Uniform rows are listed as the first solutions of the question without a limit. -/
theorem exists_found {α : Type} (item : α → Listed) {describe : Row → Except Failure α}
    {goal : Goal} {ts : List Term} {solved : List α}
    (huniform : (solutions goal ts space).Uniform describe fun s =>
      ∀ note ∈ (item s).notes, space.Has note.pitch)
    (hlimit : Tool.limitOf limit = .ok v)
    (hsolved : (do (← run goal ts v space).mapM describe) = .ok solved) :
    ∃ n found, Tool.Admits limit n ∧ (do (← run goal ts .nothing space).mapM describe) = .ok found ∧
      solved.map item = (found.map item).take n ∧
        ∀ s ∈ found.map item, ∀ note ∈ s.notes, space.Has note.pitch := by
  obtain ⟨rows, hrows, -⟩ := bind_eq_ok.mp hsolved
  obtain ⟨n, hadmits, hwhole, hpositive, hatMost⟩ := Tool.admits_of_run hlimit hrows
  have hcount : (n : Int) ≤ greatestCount := by
    rw [greatestCount]
    omega
  obtain ⟨found, hfound, rfl, hhas⟩ := huniform.exists_full hwhole hpositive hcount hsolved
  exact ⟨n, found, hadmits, hfound, List.map_take, List.forall_mem_map.mpr hhas⟩

/-- A question that is answered under a limit is answered without one, and what is listed is the
beginning of its solutions. -/
theorem solve_limited (hsent : ∀ w ∈ q.arguments, w.IsSent) (hspace : space.IsMidi)
    (hlimit : Tool.limitOf limit = .ok v) (h : q.solve v space = .ok shown) :
    ∃ n found, Tool.Admits limit n ∧ q.solve .nothing space = .ok found ∧ shown = found.take n ∧
      ∀ s ∈ found, ∀ note ∈ s.notes, space.Has note.pitch := by
  cases q with
  | note c octave pitch =>
      obtain ⟨goal, ts, m, solved, hgoal, hsolved, rfl⟩ := solve_note_iff.mp h
      have huniform := NoteQuery.uniform hgoal space
      obtain ⟨n, found, hadmits, hfound, htake, hhas⟩ :=
        exists_found NoteSolution.listed (by simpa [NoteSolution.listed] using huniform) hlimit
          hsolved
      exact ⟨n, _, hadmits, solve_note_iff.mpr ⟨goal, ts, m, found, hgoal, hfound, rfl⟩, htake,
        hhas⟩
  | interval distance first second =>
      obtain ⟨goal, d, ts, m, solved, hgoal, hsolved, rfl⟩ := solve_interval_iff.mp h
      have huniform := IntervalQuery.uniform (q := ⟨distance, first, second, v⟩) hsent hspace hgoal
      obtain ⟨n, found, hadmits, hfound, htake, hhas⟩ :=
        exists_found IntervalSolution.listed huniform hlimit hsolved
      exact ⟨n, _, hadmits, solve_interval_iff.mpr ⟨goal, d, ts, m, found, hgoal, hfound, rfl⟩,
        htake, hhas⟩
  | chord quality root low middle high =>
      obtain ⟨goal, made, ts, m, solved, hgoal, hsolved, rfl⟩ := solve_chord_iff.mp h
      have huniform := ChordQuery.uniform (List.forall_mem_cons.mp hsent).2 hspace hgoal
      obtain ⟨n, found, hadmits, hfound, htake, hhas⟩ :=
        exists_found ChordSolution.listed huniform hlimit hsolved
      exact ⟨n, _, hadmits, solve_chord_iff.mpr ⟨goal, made, ts, m, found, hgoal, hfound, rfl⟩,
        htake, hhas⟩

/-! ## Unknown names -/

theorem resolves_of_pitchArgument {t : Term} {n m : Nat}
    (h : Builder.pitchArgument v n = .ok (t, m)) : v = .nothing ∨ ∃ p, resolvePitch v = .ok p := by
  unfold Builder.pitchArgument at h
  split at h
  · exact .inl rfl
  · obtain ⟨⟨p, k⟩, hp, -⟩ := bind_eq_ok.mp h
    obtain ⟨w, hw, -⟩ := bind_eq_ok.mp hp
    exact .inr ⟨w, hw⟩

/-- The pitches of a question that is answered are open or can be read. -/
theorem resolves_of_solve (h : q.solve v space = .ok shown) :
    ∀ w ∈ q.pitchArguments, w = .nothing ∨ ∃ p, resolvePitch w = .ok p := by
  cases q with
  | note c octave pitch =>
      obtain ⟨goal, ts, m, solved, hgoal, -⟩ := solve_note_iff.mp h
      obtain ⟨c', octave', pitch', k₁, k₂, -, -, hp, -⟩ := NoteQuery.goal_eq_ok hgoal
      exact List.forall_mem_singleton.mpr (resolves_of_pitchArgument hp)
  | interval d first second =>
      obtain ⟨goal, d, ts, m, solved, hgoal, -⟩ := solve_interval_iff.mp h
      obtain ⟨w, a, b, n₁, n₂, -, -, ha, hb, -⟩ := IntervalQuery.goal_eq_ok hgoal
      simp only [pitchArguments, List.forall_mem_cons]
      exact ⟨resolves_of_pitchArgument ha, resolves_of_pitchArgument hb, List.forall_mem_nil _⟩
  | chord quality root low middle high =>
      obtain ⟨goal, made, ts, m, solved, hgoal, -⟩ := solve_chord_iff.mp h
      obtain ⟨r, l, m, u, n₁, n₂, n₃, -, hr, hl, hm, hu, -⟩ := ChordQuery.goal_eq_ok hgoal
      simp only [pitchArguments, List.forall_mem_cons]
      exact ⟨resolves_of_pitchArgument hr, resolves_of_pitchArgument hl,
        resolves_of_pitchArgument hm, resolves_of_pitchArgument hu, List.forall_mem_nil _⟩

/-- A question that is answered has no unknown name. -/
theorem not_hasUnknown (h : q.solve v space = .ok shown) : ¬ q.HasUnknown := by
  intro hunknown
  cases hunknown with
  | @pitchClass s octave pitch unknown =>
      obtain ⟨goal, ts, m, solved, hgoal, -⟩ := solve_note_iff.mp h
      obtain ⟨c, octave', pitch', k₁, k₂, hc, -⟩ := NoteQuery.goal_eq_ok hgoal
      obtain ⟨⟨j, k⟩, hj, -⟩ := bind_eq_ok.mp hc
      obtain ⟨i, hi, -⟩ := bind_eq_ok.mp hj
      exact unknown i (PitchClass.ofValue_text_iff.mp hi)
  | @interval s first second isName unknown =>
      obtain ⟨goal, d, ts, m, solved, hgoal, -⟩ := solve_interval_iff.mp h
      obtain ⟨w, a, b, n₁, n₂, hw, hd, -⟩ := IntervalQuery.goal_eq_ok hgoal
      cases isName.symm.trans hw
      obtain ⟨⟨p, k⟩, hp, -⟩ := bind_eq_ok.mp hd
      obtain ⟨i, hi, -⟩ := bind_eq_ok.mp hp
      simp only [resolveDistance, IntervalTable.distanceOf, unknown] at hi
      cases hi
  | @quality s root low middle high unknown =>
      obtain ⟨goal, made, ts, m, solved, hgoal, -⟩ := solve_chord_iff.mp h
      obtain ⟨r, l, m, u, n₁, n₂, n₃, hquality, -⟩ := ChordQuery.goal_eq_ok hgoal
      obtain ⟨name, heq, hknown⟩ := ChordQuery.ofTerm_eq_ok hquality
      cases heq
      cases unknown.symm.trans hknown
  | pitch isPitch given unknown =>
      rcases resolves_of_solve h _ isPitch with hnothing | ⟨p, hp⟩
      · exact given hnothing
      · exact unknown p hp

/-! ## Answers -/

/-- The fields of the answer to a question. -/
def fields (config : Config) (limit preset : Value) (q : Question) :
    Except Failure (List (String × Value)) := do
  let space ← Tool.spaceOf config preset
  let limit ← Tool.limitOf limit
  return Tool.listing q.key ((← q.solve limit space).map Listed.record)

theorem run_tool (config : Config) (files : Tool.Exports) (limit preset : Value) (q : Question) :
    Tool.run config files q.tool (q.arguments ++ [limit, preset]) =
      .ok (Tool.answer (q.fields config limit preset), files) := by
  have hrecords : ∀ {α : Type} (item : α → Listed) (x : Except Failure (List α)),
      (do return Tool.listing q.key ((← x).map fun s => (item s).record)) =
        (do return Tool.listing q.key ((← (do return (← x).map item)).map Listed.record) :
          Except Failure (List (String × Value))) := by
    intro α item x
    cases x with
    | error f => rfl
    | ok solved =>
        show Except.ok _ = Except.ok (Tool.listing q.key ((solved.map item).map Listed.record))
        rw [List.map_map]
        rfl
  have hsame : ∀ {x y : Except Failure (List (String × Value))}, x = y →
      (Except.ok (Tool.answer x, files) : Except Failure (String × Tool.Exports)) =
        .ok (Tool.answer y, files) := fun h => by rw [h]
  cases q with
  | note c octave pitch =>
      exact hsame (bind_congr fun space => bind_congr fun limit => hrecords NoteSolution.listed _)
  | interval d first second =>
      exact hsame (bind_congr fun space => bind_congr fun limit =>
        hrecords IntervalSolution.listed _)
  | chord quality root low middle high =>
      exact hsame (bind_congr fun space => bind_congr fun limit => hrecords ChordSolution.listed _)

end Question

namespace Tool

variable {fields : List (Value × Value)} {config : Config}

end Tool

end Consonance
