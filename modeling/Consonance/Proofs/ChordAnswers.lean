import Consonance.Proofs.Barren
import Consonance.Proofs.Configurations
import Consonance.Proofs.Limits
import Consonance.Proofs.PitchArguments
import Consonance.Proofs.Placement
import Consonance.Query.Chord

/-!
# Answers to chord queries

A query for a chord of a known quality always succeeds, whatever pitches of it are given.  Its
solutions are the closed voicings that agree with these, each described by its root, its voices
and the number of its inversion (`ChordQuery.solve_namesVoicing`).

A pitch far outside the space cannot make the search fail, since no state is left before a sum or
a difference is formed with it.  So the rows are always those of `ChordQuality.closedRows`
(`ChordQuality.Tones.solutions_chord`).

The number of the inversion is looked up from the voice that the root is.  The tones of a known
quality differ, so the voices of a row do as well, and the number is that of the voicing
(`ChordQuality.Tones.inversion`).
-/

namespace Consonance

/-! ## Rows -/

namespace ChordQuality

variable {q : ChordQuality} {third fifth : Int} {space : PitchSpace} {k : Nat}
  {root low middle high : Term}

/-- Rows in three blocks, one for each inversion, are the rows of the closed voicings. -/
theorem Tones.flatten_eq (hq : q.Tones third fifth)
    (hterms : ∀ t ∈ [root, low, middle, high], t.Over fun _ => True)
    (hdistinct : Term.Distinct [root, low, middle, high]) {ks : List Nat} (hks : ∀ k ∈ ks, k < 3)
    {blocks : List (List (List Int))}
    (hblocks : List.Forall₂ (fun k (block : List (List Int)) => block.Pairwise (· < ·) ∧
      ∀ row, row ∈ block ↔ ∃ ρ : Assignment,
        Voices third fifth space k (root.eval ρ) (low.eval ρ) (middle.eval ρ) (high.eval ρ) ∧
          [root, low, middle, high].map (Term.eval ρ) = row) ks blocks) :
    blocks.flatten = ks.flatMap (inversionRows third fifth space [root, low, middle, high]) := by
  induction hblocks with
  | nil => rfl
  | cons hblock _ ih =>
      obtain ⟨hk, hks⟩ := List.forall_mem_cons.mp hks
      rw [List.flatten_cons, List.flatMap_cons, ih hks,
        hq.block_eq hk hterms hdistinct hblock.1 hblock.2]

/-- No row agrees with a pitch outside the space. -/
theorem closedRows_eq_nil {ts : List Term} {n : Int} (hn : .int n ∈ ts) (hout : ¬ space.Has n) :
    closedRows third fifth space ts = [] := by
  refine List.eq_nil_iff_forall_not_mem.mpr fun row hrow => ?_
  obtain ⟨k, -, hrow⟩ := List.mem_flatMap.mp hrow
  obtain ⟨-, hkept⟩ := List.mem_filter.mp hrow
  obtain ⟨hadmits, hagree⟩ := Bool.and_eq_true_iff.mp hkept
  exact hout ((all_admits_iff space row).mp hadmits n (Term.mem_of_allAgree hagree hn))

end ChordQuality

/-! ## Spaces within MIDI -/

namespace PitchSpace

variable {space : PitchSpace} {n : Int}

theorem midi_has : midi.Has n ↔ 0 ≤ n ∧ n ≤ 127 := Iff.rfl

/-- The pitches of the space are MIDI pitches. -/
def IsMidi (space : PitchSpace) : Prop := 0 ≤ space.lowest ∧ space.highest ≤ 127

theorem IsMidi.has (h : space.IsMidi) (hn : space.Has n) : midi.Has n :=
  ⟨Int.le_trans h.1 hn.1, Int.le_trans hn.2 h.2⟩

theorem IsMidi.provides (h : space.IsMidi) : space.Provides midi.Has where
  pitch _ := h.has
  distance n hlow hhigh := by
    obtain ⟨hlowest, hhighest⟩ := h
    rw [span] at hhigh
    rw [midi_has]
    omega

/-- Sums and differences of MIDI pitches can be written. -/
theorem writable_derived (h : Derived midi.Has n) : Number.isWritable n = true := by
  refine Number.isWritable_of_natAbs_lt (k := 3) (by decide) ?_
  show n.natAbs < 1000
  cases h with
  | same hm =>
      rw [midi_has] at hm
      omega
  | sub hm hk =>
      rw [midi_has] at hm hk
      omega
  | add hm hk =>
      rw [midi_has] at hm hk
      omega

end PitchSpace

namespace ChordQuality

open PitchSpace

variable {q : ChordQuality} {third fifth : Int} {space : PitchSpace} {k : Nat}
  {root low middle high : Term}

theorem has_of_octave (n : Int) (hlow : 0 ≤ n) (hhigh : n ≤ 12) : midi.Has n :=
  midi_has.mpr ⟨hlow, by omega⟩

/-- A search for a chord of MIDI pitches finds the closed voicings. -/
theorem Tones.solutions_over (hq : q.Tones third fifth) (hspace : space.IsMidi)
    (hterms : ∀ t ∈ [root, low, middle, high], t.Over midi.Has)
    (hdistinct : Term.Distinct [root, low, middle, high]) :
    ∃ goal, Relation.chord q root low middle high = .ok goal ∧
      (solutions goal [root, low, middle, high] space).ending = none ∧
      (solutions goal [root, low, middle, high] space).items =
        (closedRows third fifth space [root, low, middle, high]).map
          fun row => row.map Term.int := by
  obtain ⟨hroot, hlow, hmiddle, hhigh, -⟩ : _ ∧ _ ∧ _ ∧ _ ∧ _ := by
    simpa only [List.forall_mem_cons] using hterms
  obtain ⟨goal, hgoal, hintroduces⟩ := hq.chord_introduces (V := fun _ => False) hspace.provides
    has_of_octave hroot hlow hmiddle hhigh
  have hmet : ∀ x, root.joins (Setting.withVoices low middle high fun _ => False) x ↔
      .var x ∈ [root, low, middle, high] := by
    intro x
    simp only [Setting.withVoices, Term.joins, List.mem_cons, List.not_mem_nil, or_false]
    grind
  have hamong : ∀ t ∈ [root, low, middle, high], t.Among midi.Has
      (root.joins (Setting.withVoices low middle high fun _ => False)) := by
    intro t ht
    cases t with
    | var x => exact (hmet x).mpr ht
    | val v => exact hterms _ ht
  refine ⟨goal, hgoal, Answers.all_eq_ok_iff.mp ?_⟩
  rcases hintroduces.run hamong fun x => (hmet x).mp with
    ⟨blocks, hblocks, hrun⟩ | ⟨-, n, hn, hlong⟩
  · rw [hq.flatten_eq (fun t ht => (hterms t ht).mono fun _ _ => trivial) hdistinct (by decide)
      (List.forall₂_map_left_iff.mp hblocks)] at hrun
    exact hrun
  · exact absurd (hlong.symm.trans (writable_derived hn)) Bool.false_ne_true

/-- A search for a chord finds the closed voicings and does not fail, whatever integers that can
be written are given. -/
theorem Tones.solutions_chord (hq : q.Tones third fifth) (hspace : space.IsMidi)
    (hterms : ∀ t ∈ [root, low, middle, high], t.Over fun n => Number.isWritable n = true)
    (hdistinct : Term.Distinct [root, low, middle, high]) :
    ∃ goal, Relation.chord q root low middle high = .ok goal ∧
      (solutions goal [root, low, middle, high] space).ending = none ∧
      (solutions goal [root, low, middle, high] space).items =
        (closedRows third fifth space [root, low, middle, high]).map
          fun row => row.map Term.int := by
  have hnear : ∀ t ∈ [root, low, middle, high], t.Over midi.Has ∨ t.Strays midi.Has := fun t ht =>
    (hterms t ht).over_or_strays _
  by_cases hstrays : ∃ t ∈ [root, low, middle, high], t.Strays midi.Has
  · obtain ⟨goal, hgoal, hbarren⟩ := hq.chord_barren (V := fun _ => False) hspace.provides
      has_of_octave (fun _ => writable_derived) hnear hstrays
    obtain ⟨t, ht, n, rfl, hout, -⟩ := hstrays
    have hdone : solutions goal [root, low, middle, high] space = .done := by
      rw [solutions, Goal.conjoin_cons, hbarren _ (State.enclosed_empty _ space)]
      rfl
    refine ⟨goal, hgoal, by rw [hdone]; rfl, ?_⟩
    rw [hdone, closedRows_eq_nil ht fun hn => hout (hspace.has hn)]
    rfl
  · exact hq.solutions_over hspace (fun t ht => (hnear t ht).resolve_right fun h =>
      hstrays ⟨t, ht, h⟩) hdistinct

end ChordQuality

/-! ## Descriptions -/

namespace Config

variable {config : Config} {space : PitchSpace}

theorem bounds_of_pitchSpace (h : config.pitchSpace = .ok space) :
    space.lowest = config.lowest ∧ space.highest = config.highest := by
  unfold pitchSpace PitchSpace.make at h
  split at h
  · cases h
    exact ⟨rfl, rfl⟩
  · cases h

end Config

namespace NoteSolution

open PitchSpace

/-- The note of an integer. -/
def ofInt (n : Int) : NoteSolution := ⟨.ofInt n, octaveOf n, n⟩

theorem pitch_ofInt (n : Int) :
    (ofInt n).pitch = (ofInt n).pitchClass.toInt + 12 * ((ofInt n).octave + 1) :=
  (place_ofInt n).symm

/-- A note is that of its pitch if its class and octave make up the pitch. -/
theorem eq_ofInt {n : NoteSolution} (h : n.pitch = n.pitchClass.toInt + 12 * (n.octave + 1)) :
    n = ofInt n.pitch := by
  obtain ⟨c, octave, pitch⟩ := n
  have hplace : pitch = place (c, octave) := h
  subst hplace
  rw [ofInt, octaveOf_place, ← PitchClass.ofInt_emod, class_place, PitchClass.ofInt_toInt]

theorem ofPitch_int {space : PitchSpace} {n : Int} (h : space.Has n) :
    ofPitch space (.int n) = .ok (ofInt n) := by
  rw [ofPitch, require_int, if_pos (admits_iff.mpr h)]
  rfl

end NoteSolution

namespace ChordSolution

/-- The solution of a row, which is a root and its voices. -/
def ofRow (name : String) (row : List Int) : ChordSolution :=
  ⟨name, .ofInt (row.headD 0), row.tail.map .ofInt, (3 - row.tail.idxOf (row.headD 0)) % 3⟩

/-- The solution describes a voicing of a quality.  Its voices lie at the distances of that voicing
above a bass, and its root is the voice that carries the root there.  Each note is named by the
class and the octave of its pitch, and lies in the configured bound. -/
structure NamesVoicing (s : ChordSolution) (q : ChordQuality) (config : Config) : Prop where
  quality : s.quality = q.name
  voicing : ∃ vs v, q.voicings = .ok vs ∧ vs[s.inversion]? = some v ∧
    ∃ bass o₁ o₂ : Int, v.middle = .int o₁ ∧ v.high = .int o₂ ∧
      s.pitches = [bass, bass + o₁, bass + o₂] ∧ s.pitches[v.rootVoice]? = some s.root.pitch
  notes : ∀ n ∈ s.root :: s.voices, n.pitch = n.pitchClass.toInt + 12 * (n.octave + 1) ∧
    config.lowest ≤ n.pitch ∧ n.pitch ≤ config.highest

end ChordSolution

namespace ChordQuality

open ChordSolution

variable {q : ChordQuality} {third fifth : Int} {space : PitchSpace} {k : Nat} {r l m h : Int}

/-- Where the tones of a triad differ, so do its voices. -/
theorem Tones.stretch_lt (hq : q.Tones third fifth) (hthird : 0 < third) (hlt : third < fifth)
    (hk : k < 3) : 0 < (stretch third fifth k).1 ∧
      (stretch third fifth k).1 < (stretch third fifth k).2 := by
  have hfifth := hq.fifth_lt
  match k, hk with
  | 0, _ => simp only [stretch]; omega
  | 1, _ => simp only [stretch]; omega
  | 2, _ => simp only [stretch]; omega

theorem Tones.voicing_eq_some_iff (hq : q.Tones third fifth) {vs : List Voicing}
    (hvs : q.voicings = .ok vs) {i : Nat} {v : Voicing} :
    vs[i]? = some v ↔ i < 3 ∧
      v = ⟨i, .int (stretch third fifth i).1, .int (stretch third fifth i).2, (3 - i) % 3⟩ := by
  rw [hq.voicings] at hvs
  cases hvs
  match i with
  | 0 => simp [eq_comm]
  | 1 => simp [eq_comm]
  | 2 => simp [eq_comm]
  | i + 3 => simp

/-- The root of distinct voices tells which inversion they are. -/
theorem Voices.inversion (hk : k < 3) (hvoices : Voices third fifth space k r l m h)
    (hlm : l < m) (hmh : m < h) (name : String) :
    ChordQuery.inversionOf (.int r) (.int l) (.int m) (.int h) = .ok k ∧
      (ofRow name [r, l, m, h]).inversion = k := by
  obtain ⟨-, -, rfl⟩ := hvoices
  have hml : m ≠ l := (Int.ne_of_lt hlm).symm
  have hhl : h ≠ l := (Int.ne_of_lt (Int.lt_trans hlm hmh)).symm
  have hhm : h ≠ m := (Int.ne_of_lt hmh).symm
  match k, hk with
  | 0, _ => simp [ChordQuery.inversionOf, Value.same_int, ofRow, hml.symm, hhl.symm]
  | 1, _ => simp [ChordQuery.inversionOf, Value.same_int, ofRow, hhm, hhl.symm, hhm.symm]
  | 2, _ => simp [ChordQuery.inversionOf, Value.same_int, ofRow, hml.symm]

/-- The root and the voices of an inversion are pitches of the space. -/
theorem Voices.has (hvoices : Voices third fifth space k r l m h) :
    ∀ n ∈ [r, l, m, h], space.Has n := by
  obtain ⟨⟨hl, hm, -, -⟩, ⟨-, hh, -, -⟩, rfl⟩ := hvoices
  have hall : ∀ n ∈ [l, m, h], space.Has n := by
    simp only [List.forall_mem_cons]
    exact ⟨hl, hm, hh, List.forall_mem_nil _⟩
  exact List.forall_mem_cons.mpr ⟨hall _ (getD_mem_voices (Nat.mod_lt _ (by decide)) l m h), hall⟩

variable (hq : q.Tones third fifth) (hthird : 0 < third) (hlt : third < fifth)

include hq hthird hlt

theorem Tones.inversion (hk : k < 3) (hvoices : Voices third fifth space k r l m h)
    (name : String) : ChordQuery.inversionOf (.int r) (.int l) (.int m) (.int h) = .ok k ∧
      (ofRow name [r, l, m, h]).inversion = k := by
  obtain ⟨hfirst, hsecond⟩ := hq.stretch_lt hthird hlt hk
  have hmiddle := hvoices.1.2.2.2
  have hhigh := hvoices.2.1.2.2.2
  exact hvoices.inversion hk (by omega) (by omega) name

/-- Every row of a closed voicing is described. -/
theorem Tones.describe (ts : List Term) :
    ∀ row ∈ closedRows third fifth space ts,
      ChordQuery.describe space q (row.map Term.int) = .ok (ofRow q.name row) := by
  intro row hrow
  obtain ⟨k, hk, hrow⟩ := List.mem_flatMap.mp hrow
  have hk' := mem_inversions.mp hk
  obtain ⟨r, l, m, h, rfl⟩ := exists_of_mem_inversionRows hk' hrow
  have hvoices := ((hq.mem_inversionRows hk').mp hrow).1
  obtain ⟨hinversion, hnumber⟩ := hq.inversion hthird hlt hk' hvoices q.name
  have hhas := hvoices.has
  simp only [List.forall_mem_cons] at hhas
  obtain ⟨hr, hl, hm, hh, -⟩ := hhas
  refine bind_eq_ok.mpr ⟨k, hinversion, bind_eq_ok.mpr ⟨_, NoteSolution.ofPitch_int hr,
    bind_eq_ok.mpr ⟨_, NoteSolution.ofPitch_int hl, bind_eq_ok.mpr ⟨_, NoteSolution.ofPitch_int hm,
      bind_eq_ok.mpr ⟨_, NoteSolution.ofPitch_int hh, ?_⟩⟩⟩⟩⟩
  rw [← hnumber]
  rfl

/-- What is said of the row of an inversion is so. -/
theorem Tones.namesVoicing {config : Config} (hconfig : config.pitchSpace = .ok space)
    (hk : k < 3) (hvoices : Voices third fifth space k r l m h) :
    (ofRow q.name [r, l, m, h]).NamesVoicing q config := by
  obtain ⟨-, hnumber⟩ := hq.inversion hthird hlt hk hvoices q.name
  obtain ⟨hlowest, hhighest⟩ := Config.bounds_of_pitchSpace hconfig
  refine ⟨rfl, ⟨_, ⟨k, .int (stretch third fifth k).1, .int (stretch third fifth k).2,
    (3 - k) % 3⟩, hq.voicings, ?_, l, _, _, rfl, rfl, ?_, ?_⟩, ?_⟩
  · rw [hnumber]
    exact (hq.voicing_eq_some_iff hq.voicings).mpr ⟨hk, rfl⟩
  · have hmiddle := hvoices.1.2.2.2
    have hhigh := hvoices.2.1.2.2.2
    show [l, m, h] = _
    rw [← hmiddle, ← hhigh, add_sub_cancel, add_sub_cancel]
  · show [l, m, h][(3 - k) % 3]? = some r
    rw [hvoices.2.2]
    match k, hk with
    | 0, _ => rfl
    | 1, _ => rfl
    | 2, _ => rfl
  · have hnotes : (ofRow q.name [r, l, m, h]).root :: (ofRow q.name [r, l, m, h]).voices =
        [r, l, m, h].map NoteSolution.ofInt := rfl
    rw [hnotes, List.forall_mem_map, ← hlowest, ← hhighest]
    exact fun n hn => ⟨NoteSolution.pitch_ofInt n, hvoices.has n hn⟩

/-- A solution that describes a voicing is that of a row. -/
theorem Tones.exists_voices {config : Config} (hconfig : config.pitchSpace = .ok space)
    {s : ChordSolution} (hs : s.NamesVoicing q config) :
    ∃ k < 3, ∃ l m h, s.pitches = [l, m, h] ∧
      Voices third fifth space k s.root.pitch l m h ∧
      s = ofRow q.name (s.root.pitch :: s.pitches) := by
  obtain ⟨hquality, ⟨vs, v, hvs, hv, l, o₁, o₂, hmiddle, hhigh, hpitches, hroot⟩, hnotes⟩ := hs
  obtain ⟨hlowest, hhighest⟩ := Config.bounds_of_pitchSpace hconfig
  obtain ⟨hk, rfl⟩ := (hq.voicing_eq_some_iff hvs).mp hv
  obtain ⟨hfirst, hsecond⟩ := hq.stretch_lt hthird hlt hk
  cases hmiddle
  cases hhigh
  obtain ⟨hown, hvoices⟩ := List.forall_mem_cons.mp hnotes
  have hhas : ∀ n ∈ s.pitches, space.Has n := by
    rw [pitches, List.forall_mem_map]
    intro n hn
    rw [PitchSpace.Has, hlowest, hhighest]
    exact (hvoices n hn).2
  have hrow : Voices third fifth space s.inversion s.root.pitch l
      (l + (stretch third fifth s.inversion).1) (l + (stretch third fifth s.inversion).2) := by
    simp only [hpitches, List.forall_mem_cons] at hhas
    obtain ⟨hl, hm, hh, -⟩ := hhas
    refine ⟨⟨hl, hm, by omega, by omega⟩, ⟨hl, hh, by omega, by omega⟩, ?_⟩
    rw [hpitches] at hroot
    rw [List.getD_eq_getElem?_getD, hroot]
    rfl
  refine ⟨s.inversion, hk, _, _, _, hpitches, hrow, ?_⟩
  have hnumber := (hq.inversion hthird hlt hk hrow q.name).2
  rw [← hpitches] at hnumber
  have hnotes : s.voices = s.pitches.map NoteSolution.ofInt :=
    calc s.voices = s.voices.map id := (List.map_id _).symm
      _ = s.voices.map (NoteSolution.ofInt ∘ NoteSolution.pitch) :=
        List.map_congr_left fun n hn => NoteSolution.eq_ofInt (hvoices n hn).1
      _ = s.pitches.map NoteSolution.ofInt := List.map_map.symm
  obtain ⟨name, note, voices, i⟩ := s
  exact congr (congr (congr (congrArg ChordSolution.mk hquality) (NoteSolution.eq_ofInt hown.1))
    hnotes) hnumber.symm

/-- The solutions of the rows are those that describe a voicing and agree with what is given. -/
theorem Tones.mem_solutions {config : Config} (hconfig : config.pitchSpace = .ok space)
    (ts : List Term) (s : ChordSolution) :
    s ∈ (closedRows third fifth space ts).map (ofRow q.name) ↔
      s.NamesVoicing q config ∧ Term.allAgree ts (s.root.pitch :: s.pitches) = true := by
  rw [List.mem_map]
  constructor
  · rintro ⟨row, hrow, rfl⟩
    obtain ⟨k, hk, hrow⟩ := List.mem_flatMap.mp hrow
    have hk' := mem_inversions.mp hk
    obtain ⟨r, l, m, h, rfl⟩ := exists_of_mem_inversionRows hk' hrow
    obtain ⟨hvoices, hagree⟩ := (hq.mem_inversionRows hk').mp hrow
    exact ⟨hq.namesVoicing hthird hlt hconfig hk' hvoices, hagree⟩
  · rintro ⟨hs, hagree⟩
    obtain ⟨k, hk, l, m, h, hpitches, hvoices, heq⟩ := hq.exists_voices hthird hlt hconfig hs
    refine ⟨s.root.pitch :: s.pitches, List.mem_flatMap.mpr ⟨k, mem_inversions.mpr hk, ?_⟩,
      heq.symm⟩
    rw [hpitches] at hagree ⊢
    exact (hq.mem_inversionRows hk).mpr ⟨hvoices, hagree⟩

end ChordQuality

/-! ## Queries -/

/-- Every configuration has a space within MIDI. -/
theorem Config.isMidi_of_ofFields {fields : List (Value × Value)} {config : Config}
    (h : ofFields fields = .ok config) :
    ∃ space, config.pitchSpace = .ok space ∧ space.IsMidi := by
  obtain ⟨hlowest, hordered, hhighest, -⟩ := usable_of_ofFields h
  exact ⟨⟨config.lowest, config.highest, hordered⟩, dif_pos hordered, hlowest, hhighest⟩

namespace ChordQuery

theorem allAgree_iff {args : List Value} {ts : List Term} {row : List Int}
    (h : List.Forall₂ (fun (v : Value) t => ∀ p, Term.agrees t p = true ↔ v.AllowsPitch p)
      args ts) :
    Term.allAgree ts row = true ↔ List.Forall₂ Value.AllowsPitch args row := by
  induction h generalizing row with
  | nil =>
      cases row with
      | nil => exact iff_of_true rfl .nil
      | cons p ps => exact iff_of_false nofun nofun
  | cons hfirst _ ih =>
      cases row with
      | nil => exact iff_of_false nofun nofun
      | cons p ps => rw [Term.allAgree, Bool.and_eq_true, hfirst p, ih, List.forall₂_cons]

/-- The search of a query.  Its goal is made whatever the limit, its terms allow the pitches that
the arguments allow, and it finds the closed voicings. -/
theorem exists_search {name : String} {quality : ChordQuality} {third fifth : Int}
    {space : PitchSpace} {root low middle high : Value}
    (hquality : ChordQuality.ofName? name = some quality) (htones : quality.Tones third fifth)
    (hspace : space.IsMidi) (hargs : ∀ v ∈ [root, low, middle, high], PitchArgument v) :
    ∃ (goal : Goal) (ts : List Term),
      (∀ limit, ∃ n, ChordQuery.goal ⟨.text name, root, low, middle, high, limit⟩ 0 =
        .ok ((goal, quality, ts), n)) ∧
      (∀ row, Term.allAgree ts row = true ↔
        List.Forall₂ Value.AllowsPitch [root, low, middle, high] row) ∧
      (solutions goal ts space).ending = none ∧
      (solutions goal ts space).items =
        (ChordQuality.closedRows third fifth space ts).map fun row => row.map Term.int := by
  simp only [List.forall_mem_cons] at hargs
  obtain ⟨hroot, hlow, hmiddle, hhigh, -⟩ := hargs
  obtain ⟨root', n₁, hread₁, h₁⟩ := Builder.exists_poses hroot 0
  obtain ⟨low', n₂, hread₂, h₂⟩ := Builder.exists_poses hlow n₁
  obtain ⟨middle', n₃, hread₃, h₃⟩ := Builder.exists_poses hmiddle n₂
  obtain ⟨high', n₄, hread₄, h₄⟩ := Builder.exists_poses hhigh n₃
  have hterms : ∀ t ∈ [root', low', middle', high'],
      t.Over fun n => Number.isWritable n = true := by
    simp only [List.forall_mem_cons]
    exact ⟨h₁.isOver, h₂.isOver, h₃.isOver, h₄.isOver, List.forall_mem_nil _⟩
  have hdistinct : Term.Distinct [root', low', middle', high'] :=
    (Builder.InTurn.cons h₁.numbers (.cons h₂.numbers (.cons h₃.numbers (.cons h₄.numbers
      (.nil _))))).distinct
  obtain ⟨goal, hgoal, hending, hitems⟩ := htones.solutions_chord hspace hterms hdistinct
  refine ⟨goal, _, fun limit => ⟨n₄, ?_⟩, fun row => allAgree_iff ?_, hending, hitems⟩
  · have hknown : ChordQuality.ofTerm (.val (.text name)) = .ok quality := by
      simp only [ChordQuality.ofTerm, hquality]
    unfold ChordQuery.goal
    simp only [hknown]
    refine Builder.bind_eq rfl (Builder.bind_eq hread₁ (Builder.bind_eq hread₂
      (Builder.bind_eq hread₃ (Builder.bind_eq hread₄ ?_))))
    simp only [hgoal]
    rfl
  · exact .cons h₁.agrees (.cons h₂.agrees (.cons h₃.agrees (.cons h₄.agrees .nil)))

/-- Chord queries are answered with the voicings that they ask for.  In every configuration, for
every known quality and all pitch arguments, a query succeeds.  Its solutions are those that
describe a voicing of the quality and agree with the arguments, and with a limit the first of
these. -/
theorem solve_namesVoicing {fields : List (Value × Value)} {config : Config}
    (hconfig : Config.ofFields fields = .ok config) {name : String} {quality : ChordQuality}
    (hquality : ChordQuality.ofName? name = some quality) {root low middle high : Value}
    (hargs : ∀ v ∈ [root, low, middle, high], PitchArgument v) :
    ∃ (space : PitchSpace) (found : List ChordSolution), config.pitchSpace = .ok space ∧
      (∀ s, s ∈ found ↔ s.NamesVoicing quality config ∧
        List.Forall₂ Value.AllowsPitch [root, low, middle, high] (s.root.pitch :: s.pitches)) ∧
      solve ⟨.text name, root, low, middle, high, .nothing⟩ space = .ok found ∧
      ∀ n : Int, 0 ≤ n → n ≤ greatestCount →
        solve ⟨.text name, root, low, middle, high, .int n⟩ space = .ok (found.take n.toNat) := by
  obtain ⟨third, fifth, htones, hthird, hlt⟩ := ChordQuality.tones_of_ofName? hquality
  obtain ⟨space, hspace, hmidi⟩ := Config.isMidi_of_ofFields hconfig
  obtain ⟨goal, ts, hgoal, hagree, hending, hitems⟩ := exists_search hquality htones hmidi hargs
  let rows := ChordQuality.closedRows third fifth space ts
  have hdescribe : ∀ rows' : List (List Int), rows' ⊆ rows →
      (rows'.map fun row => row.map Term.int).mapM (describe space quality) =
        .ok (rows'.map (ChordSolution.ofRow quality.name)) := by
    intro rows' hsub
    rw [List.mapM_map]
    exact mapM_eq_ok fun row hrow => htones.describe hthird hlt ts row (hsub hrow)
  refine ⟨space, rows.map (ChordSolution.ofRow quality.name), hspace, fun s => ?_, ?_,
    fun n hn hle => ?_⟩
  · rw [htones.mem_solutions hthird hlt hspace ts s, hagree]
  · obtain ⟨m, hm⟩ := hgoal .nothing
    refine bind_eq_ok.mpr ⟨_, hm, bind_eq_ok.mpr ⟨_, ?_, hdescribe rows (List.Subset.refl _)⟩⟩
    exact Answers.all_eq_ok_iff.mpr ⟨hending, hitems⟩
  · obtain ⟨m, hm⟩ := hgoal (.int n)
    have hrun := run_eq_take hending hn hle
    rw [hitems, ← List.map_take] at hrun
    rw [← List.map_take]
    exact bind_eq_ok.mpr ⟨_, hm, bind_eq_ok.mpr ⟨_, hrun,
      hdescribe (rows.take n.toNat) (List.take_subset _ _)⟩⟩

/-- An augmented chord on the piano whose root, given by its name, is the highest voice. -/
theorem solve_namesVoicing_augmented :
    let fields : List (Value × Value) := [(.text "preset", .text "piano")]
    let s : ChordSolution :=
      ⟨"augmented", .ofInt 60, [.ofInt 52, .ofInt 56, .ofInt 60], 1⟩
    ∃ (config : Config) (space : PitchSpace) (found : List ChordSolution),
      Config.ofFields fields = .ok config ∧
      ChordQuality.ofName? " Aug" = some .augmented ∧
      (∀ v ∈ [.text "C4", .nothing, .nothing, .int 60], PitchArgument v) ∧
      config.pitchSpace = .ok space ∧ s ∈ found ∧
      solve ⟨.text " Aug", .text "C4", .nothing, .nothing, .int 60, .int 2⟩ space =
        .ok (found.take 2) := by
  intro fields s
  have hconfig : Config.ofFields fields = .ok (.ofPreset .piano) := rfl
  have hquality : ChordQuality.ofName? " Aug" = some .augmented := by decide +kernel
  have hargs : ∀ v ∈ [.text "C4", .nothing, .nothing, .int 60], PitchArgument v := by
    simp only [List.forall_mem_cons]
    refine ⟨@PitchArgument.note "C4" ⟨'C', [], false, ['4']⟩ (.ofInt 0) ?_ ?_ ?_, .nothing,
      .nothing, .whole ?_, List.forall_mem_nil _⟩
    · decide +kernel
    · rfl
    · decide
    · exact Number.isWritable_of_natAbs_lt (k := 2) (by decide) (by decide)
  have hroot : resolvePitch (.text "C4") = .ok (.int 60) := rfl
  obtain ⟨space, found, hspace, hfound, -, hlimited⟩ :=
    solve_namesVoicing hconfig hquality hargs
  refine ⟨_, space, found, hconfig, hquality, hargs, hspace, (hfound s).mpr ⟨⟨rfl, ?_, ?_⟩, ?_⟩,
    hlimited 2 (by decide) (by decide)⟩
  · exact ⟨_, _, ChordQuality.voicings_triad 4 8 "augmented", rfl, 52, 4, 8, rfl, rfl, rfl, rfl⟩
  · decide +kernel
  · exact .cons (.inr hroot) (.cons (.inl rfl) (.cons (.inl rfl) (.cons (.inr rfl) .nil)))

end ChordQuery

end Consonance
