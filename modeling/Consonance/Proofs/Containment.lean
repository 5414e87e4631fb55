import Consonance.Proofs.Steady
import Consonance.Proofs.Stream

/-!
# Goals that let no dead end out

A dead end is to cost a search no more than the branch that it is on.  A goal is *contained*
if no search ever ends with it at a dead end, from whatever state the search starts.  The
primitive goals are contained, since they drop a branch at a dead end, and so are the
combinations of contained goals and the relations of intervals and chords.  Of the note
relation it is every goal that it comes down to, once its terms are known.

Building a goal from the arguments of a relation meets no dead end either
(`Builder.Makes`).
-/

namespace Consonance

/-! ## Goals that let no dead end out -/

namespace Goal

/-- The goal never ends a search at a dead end. -/
def Contained (g : Goal) : Prop :=
  ∀ s, (g s).Gives (fun f => ¬ f.IsDeadEnd) (fun _ => True) fun _ => True

theorem Contained.ending_ne {g : Goal} (h : g.Contained) (s : State) (cause : DeadEnd) :
    (g s).ending ≠ some (.deadEnd cause) :=
  fun he => (h s).failure _ he ⟨cause, rfl⟩

theorem contained_succeed : Contained succeed := fun _ => Answers.gives_one trivial trivial

theorem contained_fail : Contained fail := fun _ => Answers.gives_done trivial

/-- An operation of states lets no dead end out. -/
theorem contained_lift (operation : State → Except Failure State) :
    Contained (lift operation) := by
  intro s
  unfold lift
  split
  · exact Answers.gives_one trivial trivial
  · exact Answers.gives_done trivial
  next f hnot _ => exact Answers.gives_raise fun ⟨cause, hf⟩ => hnot cause hf

@[simp] theorem contained_eq (a b : Term) : Contained (eq a b) := contained_lift _

@[simp] theorem contained_inDomain (t : Term) (allowed : Allowed) :
    Contained (inDomain t allowed) := contained_lift _

@[simp] theorem contained_difference (a b d : Term) : Contained (difference a b d) :=
  contained_lift _

theorem Contained.both {g h : Goal} (hg : g.Contained) (hh : h.Contained) : (both g h).Contained :=
  fun s => ((hg s).bind fun t _ => hh t).mono fun _ _ => trivial

theorem contained_conjoin {gs : List Goal} (h : ∀ g ∈ gs, g.Contained) :
    (conjoin gs).Contained := by
  intro s
  induction gs generalizing s with
  | nil => exact contained_succeed s
  | cons g rest ih =>
      obtain ⟨hg, hrest⟩ := List.forall_mem_cons.mp h
      rw [conjoin_cons]
      exact ((hg s).bind fun t _ => ih hrest t).mono fun _ _ => trivial

theorem contained_disjoin {gs : List Goal} (h : ∀ g ∈ gs, g.Contained) :
    (disjoin gs).Contained := by
  intro s
  induction gs with
  | nil => exact contained_fail s
  | cons g rest ih =>
      obtain ⟨hg, hrest⟩ := List.forall_mem_cons.mp h
      exact ((hg s).append (ih hrest)).mono fun _ _ => trivial

/-- A goal that is made without dead ends, and lets none out. -/
theorem contained_project {build : State → Except Failure Goal}
    (h : ∀ s, Steady (build s) Contained) : (project build).Contained := by
  intro s
  have hs := h s
  unfold project
  cases hbuild : build s with
  | ok g =>
      rw [hbuild] at hs
      exact hs s
  | error f =>
      rw [hbuild] at hs
      exact Answers.gives_raise hs

theorem contained_label (terms : List Term) : (label terms).Contained := by
  induction terms with
  | nil => exact contained_succeed
  | cons t rest ih =>
      intro s
      have hcandidates := s.steady_candidates t
      unfold label
      cases hvalues : s.candidates t with
      | ok values =>
          have hall : (Answers.ofList values).Gives (fun f => ¬ f.IsDeadEnd) (fun _ => True)
              (· = values) := Answers.gives_ofList fun _ _ => trivial
          exact (hall.bind fun v _ => ((contained_eq t (.val v)).both ih) s).mono fun _ _ => trivial
      | error f =>
          rw [hvalues] at hcandidates
          exact Answers.gives_raise hcandidates

theorem contained_scaled (result source : Term) (factor summand : Value) :
    (scaled result source factor summand).Contained := by
  refine contained_project fun s => ?_
  split
  · exact Steady.error nofun
  · refine (Value.steady_mul ..).bind fun _ _ => (Value.steady_add ..).bind fun _ _ => ?_
    exact Steady.ok (contained_eq _ _)

end Goal

/-! ## The relations -/

namespace Relation

open Goal

@[simp] theorem contained_withinSpace (s : State) (pitches : List Term) :
    (withinSpace s pitches).Contained :=
  contained_conjoin (List.forall_mem_map.mpr fun p _ => contained_inDomain p _)

@[simp] theorem contained_isDistance (s : State) (least : Int) (d : Term) :
    (isDistance s least d).Contained := contained_inDomain _ _

@[simp] theorem contained_above (distance low high : Term) :
    (above distance low high).Contained :=
  contained_project fun s => Steady.ok (contained_conjoin (by simp))

theorem contained_interval (distance first second : Term) :
    (interval distance first second).Contained := by
  refine contained_project fun s => Steady.ok (contained_conjoin ?_)
  have hturned : (Goal.conjoin [isDistance s 1 distance,
      Goal.difference second first distance]).Contained := contained_conjoin (by simp)
  have heither : (Goal.disjoin [Goal.difference first second distance,
      Goal.conjoin [isDistance s 1 distance, Goal.difference second first distance]]).Contained :=
    contained_disjoin (by simp [hturned])
  simp [heither]

theorem contained_voiced (root low middle high : Term) (v : Voicing) :
    (voiced root low middle high v).Contained :=
  contained_conjoin (by simp)

theorem steady_chord (quality : ChordQuality) (root low middle high : Term) :
    Steady (chord quality root low middle high) Contained := by
  refine quality.steady_voicings.bind fun vs _ => Steady.ok (contained_disjoin ?_)
  exact List.forall_mem_map.mpr fun v _ => contained_voiced _ _ _ _ v

/-! ### Notes -/

theorem contained_placedAt (c octave pitch : Term) (class' octave' : Value) (pitch' : Int) :
    (placedAt c octave pitch class' octave' pitch').Contained :=
  contained_conjoin (by simp)

/-- A place outside the space costs no more than its own alternative. -/
theorem steady_placements (space : PitchSpace) (c octave pitch : Term)
    (pairs : List (Value × Value)) :
    Steady (placements space c octave pitch pairs) fun gs => ∀ g ∈ gs, g.Contained := by
  induction pairs with
  | nil => exact Steady.ok nofun
  | cons pair rest ih =>
      refine (PitchClass.steady_ofValue pair.1).bind fun position _ => ?_
      split
      · refine ih.bind fun gs hgs => Steady.ok ?_
        exact List.forall_mem_cons.mpr ⟨contained_placedAt _ _ _ _ _ _, hgs⟩
      · exact ih
      next f hnot _ => exact Steady.error fun ⟨cause, hf⟩ => hnot cause hf

end Relation

/-! ## Building goals -/

/-- Whatever variables are made before, building gives something with a property, or fails
otherwise than at a dead end. -/
def Builder.Makes {α : Type} (b : Builder α) (P : α → Prop) : Prop :=
  ∀ n, Steady (b n) fun r => P r.1

namespace Builder

variable {α β : Type} {b : Builder α} {P : α → Prop} {Q : β → Prop}

theorem makes_pure {a : α} (h : P a) : Makes (pure a : Builder α) P := fun _ => Steady.ok h

theorem Makes.bind {k : α → Builder β} (h : b.Makes P) (hk : ∀ a, P a → (k a).Makes Q) :
    (b >>= k).Makes Q :=
  fun n => (h n).bind fun r hr => hk r.1 hr r.2

theorem makes_lift {r : Except Failure α} (h : Steady r P) : Makes (liftM r : Builder α) P :=
  fun _ => h.bind fun _ ha => Steady.ok ha

theorem makes_fresh : fresh.Makes fun _ => True := fun _ => Steady.ok trivial

theorem makes_openOr (t : Term) : (openOr t).Makes fun _ => True := by
  unfold openOr
  split
  · exact makes_fresh
  · exact makes_pure trivial

theorem makes_pitchClass (t : Term) : (pitchClass t).Makes fun _ => True := by
  unfold pitchClass
  split
  · exact makes_fresh
  · exact makes_pure trivial
  · exact makes_pure trivial
  · exact (makes_lift (PitchClass.steady_ofValue _)).bind fun _ _ => makes_pure trivial
  · exact makes_lift (Failure.steady_raise nofun)

theorem makes_distance (t : Term) : (distance t).Makes fun _ => True := by
  unfold distance
  split
  · exact makes_fresh
  · exact makes_pure trivial
  · exact (makes_lift (steady_resolveDistance _)).bind fun _ _ => makes_pure trivial

open Goal

theorem makes_interval (d first second : Term) : (interval d first second).Makes Contained := by
  refine (makes_distance d).bind fun _ _ => (makes_openOr first).bind fun _ _ => ?_
  exact (makes_openOr second).bind fun _ _ => makes_pure (Relation.contained_interval _ _ _)

theorem makes_above (d low high : Term) : (above d low high).Makes Contained := by
  refine (makes_distance d).bind fun _ _ => (makes_openOr low).bind fun _ _ => ?_
  exact (makes_openOr high).bind fun _ _ => makes_pure (Relation.contained_above _ _ _)

theorem makes_spread (third fifth : Int) (root thirdTone fifthTone : Term) :
    (spread third fifth root thirdTone fifthTone).Makes Contained := by
  refine Makes.bind (makes_interval _ _ _) fun lower hlower => ?_
  refine Makes.bind (makes_interval _ _ _) fun upper hupper => ?_
  exact makes_pure (contained_conjoin (by simp [hlower, hupper]))

theorem makes_voicedChord (quality : ChordQuality) (root low middle high : Term) :
    (voicedChord quality root low middle high).Makes Contained := by
  refine (makes_openOr root).bind fun _ _ => (makes_openOr low).bind fun _ _ => ?_
  refine (makes_openOr middle).bind fun _ _ => (makes_openOr high).bind fun _ _ => ?_
  exact makes_lift (Relation.steady_chord ..)

theorem makes_chord (quality : Term) (pitches : List Term) :
    (chord quality pitches).Makes Contained := by
  refine (makes_lift (ChordQuality.steady_ofTerm quality)).bind fun q _ => ?_
  split
  · exact makes_voicedChord _ _ _ _ _
  · exact makes_voicedChord _ _ _ _ _
  · exact fun _ => Steady.error nofun

end Builder

end Consonance
