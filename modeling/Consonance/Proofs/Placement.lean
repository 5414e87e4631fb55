import Consonance.Proofs.Trials
import Mathlib.Data.List.Nodup

/-!
# Notes

A class, an octave and a pitch are a note of a space when the pitch lies in the space and has
the class and the octave (`PitchSpace.Names`).  The class and the octave give the pitch, and the
pitch gives both.

The note relation finds each note once, whatever is known when it is reached
(`Setting.note_weighs`).  If the pitch is known there is one note at most.  If it is open, a list
of classes and octaves is tried, and how the list is made depends on what is known of the two
(`Setting.exists_places`).  All that matters is that no place comes twice in it, and that no note
of the state is left out (`Setting.Places`).
-/

namespace Consonance

/-! ## Classes and octaves of pitches -/

theorem octaveOf_eq (pitch : Int) : octaveOf pitch = pitch / 12 - 1 := by
  rw [octaveOf, Int.fdiv_eq_ediv_of_nonneg _ (by decide)]

theorem PitchClass.ofInt_emod (n : Int) : ofInt (n % 12) = ofInt n := by
  rw [← toInt_ofInt, ofInt_toInt]

theorem PitchClass.mem_all (c : PitchClass) : c ∈ all :=
  List.mem_map.mpr ⟨c.position, List.mem_finRange _, rfl⟩

theorem PitchClass.nodup_all : all.Nodup := by decide

namespace PitchSpace

variable {space : PitchSpace} {n : Int}

/-- The pitch lies in the space, and has the class and the octave. -/
def Names (space : PitchSpace) (c octave pitch : Int) : Prop :=
  (space.lowest ≤ pitch ∧ pitch ≤ space.highest) ∧ c = pitch % 12 ∧ octave = octaveOf pitch

/-- The pitch of a class in an octave, in the space or not. -/
def place (q : PitchClass × Int) : Int := q.1.toInt + 12 * (q.2 + 1)

/-- The place of a pitch is that pitch. -/
theorem place_ofInt (pitch : Int) : place (.ofInt pitch, octaveOf pitch) = pitch := by
  rw [place, PitchClass.toInt_ofInt, octaveOf_eq]
  omega

theorem class_place (q : PitchClass × Int) : place q % 12 = q.1.toInt := by
  have hlow := q.1.toInt_nonneg
  have hhigh := q.1.toInt_lt
  rw [place]
  omega

theorem octaveOf_place (q : PitchClass × Int) : octaveOf (place q) = q.2 := by
  have hlow := q.1.toInt_nonneg
  have hhigh := q.1.toInt_lt
  rw [octaveOf_eq, place]
  omega

theorem admits_iff : space.admits n = true ↔ space.lowest ≤ n ∧ n ≤ space.highest := by
  simp [admits]

theorem octaveOf_mem_octaves (h : space.lowest ≤ n ∧ n ≤ space.highest) :
    octaveOf n ∈ space.octaves := by
  rw [octaves, mem_run, octaveOf_eq, octaveOf_eq, octaveOf_eq]
  omega

/-- The notes of a space are those of the places in it. -/
theorem names_iff {c octave pitch : Int} :
    space.Names c octave pitch ↔ ∃ q : PitchClass × Int,
      space.admits (place q) = true ∧ c = q.1.toInt ∧ octave = q.2 ∧ pitch = place q := by
  constructor
  · rintro ⟨hin, rfl, rfl⟩
    refine ⟨(.ofInt pitch, octaveOf pitch), ?_, (PitchClass.toInt_ofInt pitch).symm, rfl,
      (place_ofInt pitch).symm⟩
    rwa [place_ofInt, admits_iff]
  · rintro ⟨q, hin, rfl, rfl, rfl⟩
    exact ⟨admits_iff.mp hin, (class_place q).symm, (octaveOf_place q).symm⟩

theorem require_int (space : PitchSpace) (n : Int) :
    space.require (.int n) = if space.admits n then .ok n
      else Failure.raise (.deadEnd (.outsideSpace (.int n) space.lowest space.highest)) := rfl

theorem absolute_int (space : PitchSpace) (c : PitchClass) (octave : Int) :
    space.absolute c (.int octave) = space.require (.int (place (c, octave))) := rfl

end PitchSpace

namespace Setting

open PitchSpace

variable {σ : Setting} {V H : Var → Prop} {k : Nat} {s t : State} {r : Role} {n : Int}
  {a c octave pitch : Term}

/-- A pitch outside the space is a dead end, worded or not. -/
theorem require_outside (hn : σ.integers n) (hout : σ.space.admits n = false) :
    ∃ f, σ.space.require (.int n) = .error f ∧ f.Blocked (Derived σ.integers) := by
  have hends : ∀ m, σ.space.lowest ≤ m ∧ m ≤ σ.space.highest → Derived σ.integers m :=
    fun m hm => .same (integers_of_ranges (r := .pitch) hm)
  refine ⟨(Failure.deadEnd (.outsideSpace (.int n) σ.space.lowest σ.space.highest)).worded, ?_,
    Failure.blocked_deadEnd ?_⟩
  · rw [require_int, if_neg (by simp [hout])]
    rfl
  · simp only [DeadEnd.shown, List.forall_mem_cons]
    refine ⟨⟨n, rfl, .same hn⟩, ⟨_, rfl, ?_⟩, ⟨_, rfl, ?_⟩, List.forall_mem_nil _⟩
    · exact hends _ ⟨Int.le_refl _, σ.space.ordered⟩
    · exact hends _ ⟨σ.space.ordered, Int.le_refl _⟩

/-! ## Places that are tried -/

/-- A class in an octave, as values. -/
def asValues (q : PitchClass × Int) : Value × Value := (.pitchClass q.1, .int q.2)

theorem placements_cons (space : PitchSpace) (c octave pitch : Term) (q : PitchClass × Int)
    (rest : List (Value × Value)) :
    Relation.placements space c octave pitch (asValues q :: rest) =
      match space.absolute q.1 (.int q.2) with
      | .ok n => Relation.placements space c octave pitch rest >>= fun gs =>
          .ok (Relation.placedAt c octave pitch (.pitchClass q.1) (.int q.2) n :: gs)
      | .error (.deadEnd _) => Relation.placements space c octave pitch rest
      | .error f => .error f := rfl

theorem placements_inside {space : PitchSpace} {q : PitchClass × Int}
    (hq : space.admits (place q) = true) (rest : List (Value × Value)) :
    Relation.placements space c octave pitch (asValues q :: rest) =
      Relation.placements space c octave pitch rest >>= fun gs =>
        .ok (Relation.placedAt c octave pitch (.pitchClass q.1) (.int q.2) (place q) :: gs) := by
  have habsolute : space.absolute q.1 (.int q.2) = .ok (place q) := by
    rw [absolute_int, require_int, if_pos hq]
  rw [placements_cons, habsolute]

/-- A place outside the space is passed over. -/
theorem placements_outside {q : PitchClass × Int} (hq : σ.space.admits (place q) = false)
    (hinteger : σ.integers (place q)) (rest : List (Value × Value)) :
    Relation.placements σ.space c octave pitch (asValues q :: rest) =
        Relation.placements σ.space c octave pitch rest ∨
      ∃ f, Relation.placements σ.space c octave pitch (asValues q :: rest) = .error f ∧
        f.Unwritable (Derived σ.integers) := by
  obtain ⟨f, hrequire, hblocked⟩ := require_outside hinteger hq
  rw [placements_cons, absolute_int, hrequire]
  cases hblocked with
  | deadEnd cause => exact .inl rfl
  | unwritable shows mem long => exact .inr ⟨_, rfl, rfl, _, mem, long⟩

variable (σ) in
/-- The assignment gives the terms a place in the space. -/
def AtPlace (c octave pitch : Term) (q : PitchClass × Int) (ρ : Assignment) : Prop :=
  σ.space.admits (place q) = true ∧ c.eval ρ = q.1.toInt ∧ octave.eval ρ = q.2 ∧
    pitch.eval ρ = place q

/-- The terms of the note have been met, beside the variables of `H`. -/
def withNote (c octave pitch : Term) (H : Var → Prop) : Var → Prop :=
  pitch.joins (octave.joins (c.joins H))

theorem placedAt_weighs (hs : σ.Poised V k s) (hc : σ.Plays .pitchClass c)
    (ho : σ.Plays .octave octave) (hp : σ.Plays .pitch pitch) {q : PitchClass × Int}
    (hq : σ.space.admits (place q) = true) :
    σ.Weighs (σ.Later s H k)
      (Relation.placedAt (s.walk c) (s.walk octave) (s.walk pitch) (.pitchClass q.1) (.int q.2)
        (place q))
      (σ.Later s (withNote c octave pitch H) k) (once (σ.AtPlace c octave pitch q)) := by
  have hin := admits_iff.mp hq
  have hoctave : Role.octave.Ranges σ.space q.2 := octaveOf_place q ▸ octaveOf_mem_octaves hin
  have hclass := give_weighs (H := H) (k := k) hs hc (n := q.1.toInt)
    ⟨q.1.toInt_nonneg, q.1.toInt_lt⟩
  rw [Role.value, PitchClass.ofInt_toInt] at hclass
  refine (Goal.conjoin_cons_weighs hclass (Goal.conjoin_cons_weighs (give_weighs hs ho hoctave)
    (Goal.conjoin_single_weighs (give_weighs hs hp hin)))).congr fun t _ ρ _ => ?_
  rw [once_mul_once, once_mul_once]
  exact once_congr ⟨fun h => ⟨hq, h⟩, And.right⟩

/-- Places that are tried are alternatives. -/
theorem placements_makes (hs : σ.Poised V k s) (hH : ∀ x, H x → V x)
    (hc : σ.Plays .pitchClass c) (ho : σ.Plays .octave octave) (hp : σ.Plays .pitch pitch)
    {ps : List (PitchClass × Int)} (hps : ∀ q ∈ ps, σ.values .octave q.2) :
    Goal.Makes (Derived σ.integers) σ.Has s (σ.Later s (withNote c octave pitch H) k)
      (fun ρ => (ps.map fun q => once (σ.AtPlace c octave pitch q) ρ).sum)
      (Relation.placements σ.space (s.walk c) (s.walk octave) (s.walk pitch) (ps.map asValues) >>=
        fun gs => .ok (Goal.disjoin gs)) := by
  induction ps with
  | nil => exact Goal.fail_weighs
  | cons q rest ih =>
      obtain ⟨hq, hrest⟩ := List.forall_mem_cons.mp hps
      have ih := ih hrest
      rw [List.map_cons]
      cases hin : σ.space.admits (place q) with
      | true =>
          rw [placements_inside hin]
          have hfirst : σ.Weighs (· = s) _ _ _ := (placedAt_weighs (H := H) hs hc ho hp hin).mono
            (fun t (ht : t = s) => ht.symm ▸ Meets.later ⟨V, hH, hs⟩) fun t ht => ht
          generalize Relation.placements σ.space (s.walk c) (s.walk octave) (s.walk pitch)
            (rest.map asValues) = r at ih
          cases r with
          | ok gs => exact Goal.disjoin_cons_weighs hfirst ih
          | error f => exact ih
      | false =>
          have hnone : ∀ ρ, once (σ.AtPlace c octave pitch q) ρ = 0 := fun ρ =>
            once_of_not fun h => by
              rw [h.1] at hin
              cases hin
          simp only [List.map_cons, List.sum_cons, hnone, Nat.zero_add]
          rcases placements_outside hin (σ.integers_placed q.1 q.2 hq) (rest.map asValues) with
            hskip | ⟨f, herror, hf⟩
          · rw [hskip]
            exact ih
          · rw [herror]
            exact hf

/-! ## The note relation -/

variable (σ) in
/-- The places that the note relation tries for an open pitch. -/
structure Places (s : State) (c octave pitch : Term) (ps : List (PitchClass × Int)) : Prop where
  candidates : Relation.noteCandidates s (s.walk c) (s.walk octave) (s.walk pitch) =
    .ok (ps.map asValues)
  nodup : ps.Nodup
  values : ∀ q ∈ ps, σ.values .octave q.2
  /-- The place of every note is tried. -/
  complete : ∀ ρ, σ.Has s ρ → ∀ q, σ.AtPlace c octave pitch q ρ → q ∈ ps

/-- Trying places finds each note once. -/
theorem Places.makes {ps : List (PitchClass × Int)} (h : σ.Places s c octave pitch ps)
    (hs : σ.Poised V k s) (hH : ∀ x, H x → V x) (hc : σ.Plays .pitchClass c)
    (ho : σ.Plays .octave octave) (hp : σ.Plays .pitch pitch) {x : Var}
    (hopen : s.walk pitch = .var x) :
    Goal.Makes (Derived σ.integers) σ.Has s (σ.Later s (withNote c octave pitch H) k)
      (once fun ρ => σ.space.Names (c.eval ρ) (octave.eval ρ) (pitch.eval ρ))
      (Relation.noteIn s c octave pitch) := by
  rw [Relation.noteIn_open hopen, h.candidates, hs.space]
  refine (placements_makes hs hH hc ho hp h.values).congr fun ρ hρ => ?_
  have hone : ps.Pairwise fun q q' =>
      ¬ (σ.AtPlace c octave pitch q ρ ∧ σ.AtPlace c octave pitch q' ρ) := by
    refine h.nodup.imp fun {q q'} hne hboth => hne ?_
    obtain ⟨⟨-, hclass, hoctave, -⟩, -, hclass', hoctave', -⟩ := hboth
    refine Prod.ext ?_ (hoctave.symm.trans hoctave')
    rw [← PitchClass.ofInt_toInt q.1, ← hclass, hclass', PitchClass.ofInt_toInt]
  rw [sum_once hone]
  refine once_congr (Iff.trans ⟨?_, ?_⟩ names_iff.symm)
  · exact fun ⟨q, _, hq⟩ => ⟨q, hq⟩
  · exact fun ⟨q, hq⟩ => ⟨q, h.complete ρ hρ q hq, hq⟩

/-- A known class is that of every note of the state. -/
theorem Poised.class_of_place (hs : σ.Poised V k s) (hc : σ.Plays .pitchClass c) {v : Value}
    (hv : s.walk c = .val v) : ∃ j, v = .pitchClass j ∧
      ∀ ρ, σ.Has s ρ → ∀ q, σ.AtPlace c octave pitch q ρ → q.1 = j := by
  obtain ⟨n, rfl, -, hwalk⟩ := hs.known hc hv
  refine ⟨.ofInt n, rfl, fun ρ hρ q hq => ?_⟩
  rw [← Poised.eval_eq hc hwalk hρ, hq.2.1, PitchClass.ofInt_toInt]

/-- A known octave is that of every note of the state. -/
theorem Poised.octave_of_place (hs : σ.Poised V k s) (ho : σ.Plays .octave octave) {v : Value}
    (hv : s.walk octave = .val v) : ∃ o, v = .int o ∧ σ.values .octave o ∧
      ∀ ρ, σ.Has s ρ → ∀ q, σ.AtPlace c octave pitch q ρ → q.2 = o := by
  obtain ⟨o, rfl, hvalues, hwalk⟩ := hs.known ho hv
  refine ⟨o, rfl, hvalues, fun ρ hρ q hq => ?_⟩
  rw [← Poised.eval_eq ho hwalk hρ, hq.2.2.1]

theorem AtPlace.octave_mem {q : PitchClass × Int} {ρ : Assignment}
    (h : σ.AtPlace c octave pitch q ρ) : q.2 ∈ σ.space.octaves :=
  octaveOf_place q ▸ octaveOf_mem_octaves (admits_iff.mp h.1)

theorem places_known (hs : σ.Poised V k s) (hc : σ.Plays .pitchClass c)
    (ho : σ.Plays .octave octave) {v w : Value} (hv : s.walk c = .val v)
    (hw : s.walk octave = .val w) : ∃ ps, σ.Places s c octave pitch ps := by
  obtain ⟨j, rfl, hclass⟩ := hs.class_of_place hc hv
  obtain ⟨o, rfl, hvalues, hoctave⟩ := hs.octave_of_place ho hw
  refine ⟨[(j, o)], ?_, List.pairwise_singleton _ _, ?_, fun ρ hρ q hq => ?_⟩
  · rw [hv, hw]
    rfl
  · exact fun q hq => List.mem_singleton.mp hq ▸ hvalues
  · exact List.mem_singleton.mpr (Prod.ext (hclass ρ hρ q hq) (hoctave ρ hρ q hq))

/-- A known class is tried in every octave of the space. -/
theorem places_of_class (hs : σ.Poised V k s) (hc : σ.Plays .pitchClass c) {v : Value}
    (hv : s.walk c = .val v) {y : Var} (hy : s.walk octave = .var y) :
    ∃ ps, σ.Places s c octave pitch ps := by
  obtain ⟨j, rfl, hclass⟩ := hs.class_of_place hc hv
  refine ⟨σ.space.octaves.map fun o => (j, o), ?_, ?_, ?_, fun ρ hρ q hq => ?_⟩
  · rw [hv, hy, List.map_map, ← hs.space]
    rfl
  · refine List.Nodup.map (fun o o' h => (Prod.mk.inj h).2) ?_
    exact (Domain.pairwise_run _ _).imp fun hlt => Int.ne_of_lt hlt
  · rintro q hq
    obtain ⟨o, ho, rfl⟩ := List.mem_map.mp hq
    exact σ.values_of_ranges .octave o ho
  · exact List.mem_map.mpr ⟨q.2, hq.octave_mem, Prod.ext (hclass ρ hρ q hq).symm rfl⟩

/-- Every class is tried in a known octave. -/
theorem places_of_octave (hs : σ.Poised V k s) (ho : σ.Plays .octave octave) {z : Var}
    (hz : s.walk c = .var z) {w : Value} (hw : s.walk octave = .val w) :
    ∃ ps, σ.Places s c octave pitch ps := by
  obtain ⟨o, rfl, hvalues, hoctave⟩ := hs.octave_of_place ho hw
  refine ⟨PitchClass.all.map fun j => (j, o), ?_, ?_, ?_, fun ρ hρ q hq => ?_⟩
  · rw [hz, hw, List.map_map]
    rfl
  · exact List.Nodup.map (fun j j' h => (Prod.mk.inj h).1) PitchClass.nodup_all
  · rintro q hq
    obtain ⟨j, -, rfl⟩ := List.mem_map.mp hq
    exact hvalues
  · exact List.mem_map.mpr ⟨q.1, q.1.mem_all, Prod.ext rfl (hoctave ρ hρ q hq).symm⟩

/-- The values of a pitch are read as places. -/
theorem descriptions_eq {space : PitchSpace} {ns : List Int}
    (hns : ∀ n ∈ ns, space.lowest ≤ n ∧ n ≤ space.highest) :
    Relation.descriptions space (ns.map Value.int) =
      .ok ((ns.map fun n => (PitchClass.ofInt n, octaveOf n)).map asValues) := by
  have hdescription : ∀ n ∈ ns, (Relation.description space ∘ Value.int) n =
      .ok (asValues (.ofInt n, octaveOf n)) := by
    intro n hn
    rw [Function.comp_apply, Relation.description, describe, require_int,
      if_pos (admits_iff.mpr (hns n hn))]
    rfl
  rw [Relation.descriptions, List.mapM_map, mapM_eq_ok hdescription, List.map_map]
  rfl

/-- With nothing known, the values of the pitch are read. -/
theorem places_of_pitch (hs : σ.Poised V k s) {x : Var} (hp : σ.Plays .pitch (.var x)) {z y : Var}
    (hz : s.walk c = .var z) (hy : s.walk octave = .var y) :
    ∃ ps, σ.Places s c octave (.var x) ps := by
  obtain ⟨ns, hcandidates, hnodup, hrange, hcomplete⟩ := hs.tries hp.2 (.inr hp.1)
  rw [hp.1] at hcandidates hrange hcomplete
  have hwalk : s.candidates (s.walk (.var x)) = s.candidates (.var x) := by
    have heq : s.walk (s.walk (.var x)) = s.walk (.var x) :=
      (Meets.later ⟨V, fun _ h => h, hs⟩).walk_eq hs hp
    simp only [State.candidates, heq]
  refine ⟨ns.map fun n => (PitchClass.ofInt n, octaveOf n), ?_, ?_, ?_, fun ρ hρ q hq => ?_⟩
  · rw [← descriptions_eq hrange, hz, hy]
    show (s.candidates (s.walk (.var x)) >>= Relation.descriptions s.space) = _
    rw [hwalk, hcandidates, hs.space]
    rfl
  · exact hnodup.map (Function.LeftInverse.injective place_ofInt)
  · rintro q hq
    obtain ⟨n, hn, rfl⟩ := List.mem_map.mp hq
    exact σ.values_of_ranges .octave _ (octaveOf_mem_octaves (hrange n hn))
  · have heval : ρ x = place q := hq.2.2.2
    refine List.mem_map.mpr ⟨place q, ?_, Prod.ext ?_ (octaveOf_place q)⟩
    · rw [← heval]
      exact hcomplete ρ hρ (heval ▸ admits_iff.mp hq.1)
    · rw [← PitchClass.ofInt_emod, class_place, PitchClass.ofInt_toInt]

/-- What is known of the class and the octave decides which places are tried. -/
theorem exists_places (hs : σ.Poised V k s) (hc : σ.Plays .pitchClass c)
    (ho : σ.Plays .octave octave) (hp : σ.Plays .pitch pitch) {x : Var}
    (hopen : s.walk pitch = .var x) : ∃ ps, σ.Places s c octave pitch ps := by
  cases hwc : s.walk c with
  | val v =>
      cases hwo : s.walk octave with
      | val w => exact places_known hs hc ho hwc hwo
      | var y => exact places_of_class hs hc hwc hwo
  | var z =>
      cases hwo : s.walk octave with
      | val w => exact places_of_octave hs ho hwc hwo
      | var y =>
          cases pitch with
          | val v => exact nomatch (Substitution.walk_val _ _).symm.trans hopen
          | var x' => exact places_of_pitch hs hp hwc hwo

theorem noteIn_known (hs : s.space = σ.space) (hn : s.walk pitch = .int n) :
    Relation.noteIn s c octave pitch =
      match σ.space.describe (.int n) with
      | .ok (class', octave') => .ok (Goal.conjoin
          [.eq (s.walk c) (.val (.pitchClass class')), .eq (s.walk octave) (.int octave')])
      | .error (.deadEnd _) => .ok Goal.fail
      | .error f => .error f := by
  unfold Relation.noteIn
  rw [hn, hs]
  rfl

/-- A known pitch of the space has one class and one octave. -/
theorem noteIn_makes_inside (hs : σ.Poised V k s) (hH : ∀ x, H x → V x)
    (hc : σ.Plays .pitchClass c) (ho : σ.Plays .octave octave) (hp : σ.Plays .pitch pitch)
    (hn : s.walk pitch = .int n) (hwalk : s.numbered.walk pitch.numbered = .int n)
    (hin : σ.space.lowest ≤ n ∧ n ≤ σ.space.highest) :
    Goal.Makes (Derived σ.integers) σ.Has s (σ.Later s (withNote c octave pitch H) k)
      (once fun ρ => σ.space.Names (c.eval ρ) (octave.eval ρ) (pitch.eval ρ))
      (Relation.noteIn s c octave pitch) := by
  have hdescribe : σ.space.describe (.int n) = .ok (.ofInt n, octaveOf n) := by
    rw [describe, require_int, if_pos (admits_iff.mpr hin)]
    rfl
  have hpV : ∀ x, pitch.joins H x → V x := by
    rintro x (rfl | hx)
    · exact hs.mem_of_walk hp.2 hwalk
    · exact hH x hx
  have hclass := give_weighs (H := pitch.joins H) (k := k) hs hc (n := n % 12)
    ⟨Int.emod_nonneg _ (by decide), Int.emod_lt_of_pos _ (by decide)⟩
  rw [Role.value, PitchClass.ofInt_emod] at hclass
  have hboth := Goal.conjoin_cons_weighs hclass (Goal.conjoin_single_weighs
    (give_weighs hs ho (r := .octave) (octaveOf_mem_octaves hin)))
  have hnow : ∀ t, t = s → σ.Later s (pitch.joins H) k t := fun t ht =>
    ht.symm ▸ Meets.later ⟨V, hpV, hs⟩
  rw [noteIn_known hs.space hn, hdescribe]
  show σ.Weighs (· = s) _ _ _
  refine Goal.Weighs.congr (hboth.mono hnow fun t ht => ht.mono fun x hx => ?_) ?_
  · simp only [withNote, Term.joins] at hx ⊢
    tauto
  · rintro _ rfl ρ hρ
    rw [once_mul_once]
    refine once_congr ?_
    rw [PitchSpace.Names, Poised.eval_eq hp hwalk hρ]
    exact ⟨fun h => ⟨hin, h⟩, And.right⟩

/-- A known pitch outside the space is no note of it. -/
theorem noteIn_makes_outside {T : State → Prop} (hs : s.space = σ.space)
    (hp : σ.Plays .pitch pitch) (hn : s.walk pitch = .int n)
    (hwalk : s.numbered.walk pitch.numbered = .int n) (hinteger : σ.integers n)
    (hout : σ.space.admits n = false) :
    Goal.Makes (Derived σ.integers) σ.Has s T
      (once fun ρ => σ.space.Names (c.eval ρ) (octave.eval ρ) (pitch.eval ρ))
      (Relation.noteIn s c octave pitch) := by
  have hnone : ∀ ρ, σ.Has s ρ →
      once (fun ρ => σ.space.Names (c.eval ρ) (octave.eval ρ) (pitch.eval ρ)) ρ = 0 := by
    refine fun ρ hρ => once_of_not fun hnames => ?_
    rw [Poised.eval_eq hp hwalk hρ] at hnames
    rw [admits_iff.mpr hnames.1] at hout
    cases hout
  obtain ⟨f, hrequire, hblocked⟩ := require_outside hinteger hout
  have hdescribe : σ.space.describe (.int n) = .error f := by
    rw [describe, hrequire]
    rfl
  rw [noteIn_known hs hn, hdescribe]
  cases hblocked with
  | deadEnd cause => exact Goal.fail_weighs.congr fun t ht ρ hρ => (hnone ρ (ht ▸ hρ)).symm
  | unwritable shows mem long => exact ⟨rfl, _, mem, long⟩

/-- The note relation finds each note of the space once. -/
theorem note_weighs (hc : σ.Plays .pitchClass c) (ho : σ.Plays .octave octave)
    (hp : σ.Plays .pitch pitch) :
    σ.Weighs (σ.Meets H k) (Relation.note c octave pitch)
      (σ.Meets (withNote c octave pitch H) k)
      (once fun ρ => σ.space.Names (c.eval ρ) (octave.eval ρ) (pitch.eval ρ)) := by
  refine Goal.project_weighs fun s hs => ?_
  obtain ⟨V, hV, hs⟩ := hs
  refine Goal.Makes.mono (T := σ.Later s (withNote c octave pitch H) k) ?_ fun t ht => ht.1
  cases hw : s.walk pitch with
  | val v =>
      obtain ⟨n, rfl, hvalues, hwalk⟩ := hs.known hp hw
      cases hin : σ.space.admits n with
      | true => exact noteIn_makes_inside hs hV hc ho hp hw hwalk (admits_iff.mp hin)
      | false =>
          have hinteger := σ.integers_of_values .pitch n hvalues
          exact noteIn_makes_outside hs.space hp hw hwalk hinteger hin
  | var x =>
      obtain ⟨ps, hps⟩ := exists_places hs hc ho hp hw
      exact hps.makes hs hV hc ho hp hw

end Setting

end Consonance
