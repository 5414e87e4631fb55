import Consonance.Note
import Consonance.Pitch.Name
import Consonance.Proofs.Confinement
import Consonance.Proofs.NoteTable
import Mathlib.Data.List.Range

/-!
# Conversion of pitches

A pitch of a space is described by a class and an octave, and a class in an octave has one place.
Going one way and then the other leads back (`PitchSpace.describe_place`,
`PitchSpace.absolute_of_describe`).  The one thing that can go wrong is a pitch outside the space.

A class has several names.  Each of its names leads to it, and to no other class
(`PitchClass.ofName?_eq_some_iff`).  So a class has the same place under all of them.
-/

namespace Consonance

open Consonance.Text

/-! ## Names of classes -/

namespace PitchClass

/-- The names of a class: its canonical name, its symbol and its further spellings. -/
def names (c : PitchClass) : List String :=
  c.spelling.sharp :: c.spelling.symbol :: c.spelling.aliases

theorem ofName?_of_mem : ∀ c : PitchClass, ∀ name ∈ c.names, ofName? name = some c := by
  have htable : ∀ c ∈ all, ∀ name ∈ c.names, ofName? name = some c := by decide +kernel
  exact fun c => htable c c.mem_all

theorem ofName?_eq_some_iff {c : PitchClass} {name : String} :
    ofName? name = some c ↔ name ∈ c.names := by
  refine ⟨fun h => ?_, ofName?_of_mem c name⟩
  rw [ofName?, Option.or_eq_some_iff, Option.or_eq_some_iff] at h
  simp only [names, List.mem_cons]
  rcases h with (h | ⟨-, h⟩) | ⟨-, h⟩
  · have hsharp : (c.spelling.sharp == name) = true :=
      List.find?_some (p := fun c : PitchClass => c.spelling.sharp == name) h
    exact .inl (eq_of_beq hsharp).symm
  · have hsymbol : (c.spelling.symbol == name) = true :=
      List.find?_some (p := fun c : PitchClass => c.spelling.symbol == name) h
    exact .inr (.inl (eq_of_beq hsymbol).symm)
  · have halias : c.spelling.aliases.contains name = true :=
      List.find?_some (p := fun c : PitchClass => c.spelling.aliases.contains name) h
    exact .inr (.inr (List.contains_iff_mem.mp halias))

/-- No name has blanks around it. -/
theorem strip_name : ∀ c : PitchClass, ∀ name ∈ c.names, strip name = name := by
  have htable : ∀ c ∈ all, ∀ name ∈ c.names, strip name = name := by decide +kernel
  exact fun c => htable c c.mem_all

theorem ofValue_text_iff {c : PitchClass} {s : String} :
    ofValue (.text s) = .ok c ↔ strip s ∈ c.names := by
  rw [← ofName?_eq_some_iff, ofValue]
  cases ofName? (strip s) with
  | some k => simp
  | none => simp

theorem ofValue_name {c : PitchClass} {name : String} (h : name ∈ c.names) :
    ofValue (.text name) = .ok c := by
  rwa [ofValue_text_iff, strip_name c name h]

end PitchClass

/-! ## Places and pitches -/

theorem Number.isWritable_of_lt_thousand {n : Int} (h : n.natAbs < 1000) : isWritable n = true :=
  isWritable_of_natAbs_lt (k := 3) (by decide) h

namespace PitchSpace

variable {space : PitchSpace} {n : Int}

instance (n : Int) : Decidable (space.Has n) :=
  inferInstanceAs (Decidable (space.lowest ≤ n ∧ n ≤ space.highest))

/-- The failure that an absolute pitch lies outside the space. -/
def outside (space : PitchSpace) (n : Int) : Failure :=
  .deadEnd (.outsideSpace (.int n) space.lowest space.highest)

theorem describe_int (h : space.Has n) : space.describe (.int n) = .ok (.ofInt n, octaveOf n) := by
  rw [describe, require_int, if_pos (admits_iff.mpr h)]
  rfl

theorem absolute_place {q : PitchClass × Int} (h : space.Has (place q)) :
    space.absolute q.1 (.int q.2) = .ok (place q) := by
  rw [absolute_int, require_int, if_pos (admits_iff.mpr h)]

theorem admits_eq_false (h : ¬ space.Has n) : space.admits n = false := by
  cases hin : space.admits n with
  | false => rfl
  | true => exact absurd (admits_iff.mp hin) h

theorem has_of_describe {q : PitchClass × Int} (h : space.describe (.int n) = .ok q) :
    space.Has n := by
  obtain ⟨m, hm, hhas, -⟩ := describe_eq_ok h
  cases hm
  exact hhas

/-- The class and the octave of a place are the ones it is the place of. -/
theorem describe_place {q : PitchClass × Int} (h : space.Has (place q)) :
    space.describe (.int (place q)) = .ok q := by
  rw [describe_int h, ← PitchClass.ofInt_emod, class_place, PitchClass.ofInt_toInt, octaveOf_place]

/-- The pitch of a class and an octave that describe a pitch is that pitch. -/
theorem absolute_of_describe {q : PitchClass × Int} (h : space.describe (.int n) = .ok q) :
    space.absolute q.1 (.int q.2) = .ok n := by
  obtain ⟨m, hm, hhas, rfl⟩ := describe_eq_ok h
  cases hm
  have hplace := place_ofInt n
  rw [absolute_place (by rw [hplace]; exact hhas), hplace]

theorem describe_outside (hlow : Number.isWritable space.lowest = true)
    (hhigh : Number.isWritable space.highest = true) (hn : Number.isWritable n = true)
    (hout : ¬ space.Has n) : space.describe (.int n) = .error (space.outside n) := by
  rw [describe, require_writable hlow hhigh hn (admits_eq_false hout)]
  rfl

theorem absolute_outside (hlow : Number.isWritable space.lowest = true)
    (hhigh : Number.isWritable space.highest = true) {q : PitchClass × Int}
    (hq : Number.isWritable (place q) = true) (hout : ¬ space.Has (place q)) :
    space.absolute q.1 (.int q.2) = .error (space.outside (place q)) := by
  rw [absolute_int, require_writable hlow hhigh hq (admits_eq_false hout)]
  rfl

/-! ## Octaves of a space -/

theorem isChain_run (first last : Int) : (run first last).IsChain fun k l => l = k + 1 := by
  rw [run, List.isChain_map, List.isChain_range]
  intro m _
  show first + ((m + 1 : Nat) : Int) = first + (m : Int) + 1
  omega

/-- The octaves of a space are those of its pitches. -/
theorem mem_octaves_iff {o : Int} : o ∈ space.octaves ↔ ∃ n ∈ space.pitches, octaveOf n = o := by
  constructor
  · intro h
    rw [octaves, mem_run, octaveOf_eq, octaveOf_eq] at h
    have hordered := space.ordered
    -- The octave starts in the space, or the space starts in the octave.
    refine ⟨max space.lowest (12 * (o + 1)), mem_pitches.mpr (by omega), ?_⟩
    rw [octaveOf_eq]
    omega
  · rintro ⟨n, hn, rfl⟩
    exact octaveOf_mem_octaves (mem_pitches.mp hn)

end PitchSpace

/-! ## Notes -/

namespace Note

open PitchSpace

variable {space : PitchSpace} {n : Int} {duration : Fraction} {velocity : Value}

theorem ofKeyNumber_int (hn : space.Has n) (hduration : 0 < duration.num)
    (hvelocity : velocity.within 0 127 = .ok true) :
    ofKeyNumber space (.int n) duration velocity =
      .ok ⟨.ofInt n, .int (octaveOf n), duration, velocity⟩ := by
  rw [ofKeyNumber, describe_int hn]
  show make _ _ _ _ = _
  rw [make, hvelocity]
  simp only [bind, Except.bind]
  rw [if_neg (by simp), if_neg (by omega)]
  rfl

/-- A note that is made from a pitch has that pitch. -/
theorem keyNumber_ofKeyNumber (hn : space.Has n) (hduration : 0 < duration.num)
    (hvelocity : velocity.within 0 127 = .ok true) :
    ∃ note, ofKeyNumber space (.int n) duration velocity = .ok note ∧
      note.keyNumber space = .ok n :=
  ⟨_, ofKeyNumber_int hn hduration hvelocity, absolute_of_describe (describe_int hn)⟩

end Note

/-! ## Conversion both ways -/

/-- Conversion pairs the pitches of a space with the places in it.

A pitch of the space is described, and its description leads back to it.  A class in an octave has
a pitch of the space, and this is described by them.  Every other integer, and every class in an
octave whose place is not in the space, is refused as outside the space.  The names of a class all
lead to the same pitches.  The octaves of the space ascend one by one through those of its pitches.
A note that is made from a pitch of the space has that key number. -/
theorem PitchSpace.conversion_bijective (space : PitchSpace)
    (hlow : Number.isWritable space.lowest = true)
    (hhigh : Number.isWritable space.highest = true) :
    (∀ n, Number.isWritable n = true →
      ((∃ q, space.describe (.int n) = .ok q) ↔ space.Has n) ∧
      (∀ q, space.describe (.int n) = .ok q → space.absolute q.1 (.int q.2) = .ok n) ∧
      (¬ space.Has n → space.describe (.int n) = .error (space.outside n))) ∧
    (∀ c octave, Number.isWritable (place (c, octave)) = true →
      (space.absolute c (.int octave) = .error (space.outside (place (c, octave))) ↔
        ¬ space.Has (place (c, octave))) ∧
      (space.Has (place (c, octave)) → ∃ n, space.absolute c (.int octave) = .ok n ∧
        space.describe (.int n) = .ok (c, octave))) ∧
    (∀ c : PitchClass, ∀ name ∈ c.names, ∀ octave,
      (PitchClass.ofValue (.text name) >>= fun k => space.absolute k octave) =
        space.absolute c octave) ∧
    (space.octaves.Pairwise (· < ·) ∧ space.octaves.IsChain (fun o o' => o' = o + 1) ∧
      ∀ o, o ∈ space.octaves ↔ ∃ n ∈ space.pitches, octaveOf n = o) ∧
    (∀ n, space.Has n → ∀ duration velocity, 0 < duration.num →
      velocity.within 0 127 = .ok true →
      ∃ note, Note.ofKeyNumber space (.int n) duration velocity = .ok note ∧
        note.keyNumber space = .ok n) := by
  refine ⟨fun n hn => ⟨?_, fun q => absolute_of_describe, describe_outside hlow hhigh hn⟩,
    fun c octave hq => ⟨?_, fun hin => ⟨_, absolute_place hin, describe_place hin⟩⟩,
    fun c name hname octave => ?_,
    ⟨Domain.pairwise_run _ _, isChain_run _ _, fun o => mem_octaves_iff⟩,
    fun n hn duration velocity => Note.keyNumber_ofKeyNumber hn⟩
  · exact ⟨fun ⟨q, hdescribe⟩ => has_of_describe hdescribe, fun hin => ⟨_, describe_int hin⟩⟩
  · refine ⟨fun herror hin => ?_, absolute_outside (q := (c, octave)) hlow hhigh hq⟩
    rw [absolute_place (q := (c, octave)) hin] at herror
    cases herror
  · rw [PitchClass.ofValue_name hname]
    rfl

/-- In the range of the piano, which starts and ends inside an octave. -/
theorem PitchSpace.conversion_bijective_piano :
    piano.describe (.int 20) = .error (piano.outside 20) ∧
      (∃ n, piano.absolute (.ofInt 1) (.int 4) = .ok n ∧
        piano.describe (.int n) = .ok (.ofInt 1, 4)) ∧
      (PitchClass.ofValue (.text "Db") >>= fun k => piano.absolute k (.int 4)) =
        piano.absolute (.ofInt 1) (.int 4) ∧
      ∃ note, Note.ofKeyNumber piano (.int 61) Note.quarter (.int 64) = .ok note ∧
        note.keyNumber piano = .ok 61 := by
  obtain ⟨hpitches, hplaces, hnames, -, hnotes⟩ :=
    conversion_bijective piano (Number.isWritable_of_lt_thousand (by decide))
      (Number.isWritable_of_lt_thousand (by decide))
  have hlow : Number.isWritable 20 = true := Number.isWritable_of_lt_thousand (by decide)
  have hplace : Number.isWritable (place (.ofInt 1, 4)) = true :=
    Number.isWritable_of_lt_thousand (by decide)
  exact ⟨(hpitches 20 hlow).2.2 (by decide +kernel),
    (hplaces (.ofInt 1) 4 hplace).2 (by decide +kernel),
    hnames (.ofInt 1) "Db" (by decide +kernel) (.int 4),
    hnotes 61 (by decide +kernel) Note.quarter (.int 64) (by decide) rfl⟩

end Consonance
