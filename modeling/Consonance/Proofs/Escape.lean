import Consonance.Proofs.Containment
import Consonance.Proofs.Exactness

/-!
# Dead ends that escape

A dead end is to cost a search no more than the branch that it is on.  The primitive goals see
to that.  A relation that is worked out when its state is known can still meet a dead end
outside of every branch, and then the whole search ends with it.

There is one such place.  A note of which nothing is known reads the class and the octave
off each value that its pitch may take, and a value outside the space is a dead end there
(`Relation.Strays`).  `Goal.Escapes` says when a search comes to such a note.  It is sound
by induction (`Goal.Escapes.ending`).  It is complete since every goal that a formula builds
is traced (`Goal.Traced`): there is one rule for each way of combining goals, and the
primitive goals and the other relations are contained.
-/

namespace Consonance

/-! ## The first failure of a list -/

/-- A list of computations fails where the first of them does. -/
theorem mapM_eq_error_iff {α β : Type} {f : α → Except Failure β} {l : List α} {e : Failure} :
    l.mapM f = .error e ↔ ∃ before a after, l = before ++ a :: after ∧
      (∀ b ∈ before, ∃ c, f b = .ok c) ∧ f a = .error e := by
  constructor
  · intro h
    induction l with
    | nil => cases h
    | cons b rest ih =>
        rw [List.mapM_cons] at h
        rcases bind_eq_error.mp h with hb | ⟨c, hc, h⟩
        · exact ⟨[], b, rest, rfl, nofun, hb⟩
        · rcases bind_eq_error.mp h with hrest | ⟨cs, -, h⟩
          · obtain ⟨before, a, after, rfl, hbefore, ha⟩ := ih hrest
            exact ⟨b :: before, a, after, rfl, List.forall_mem_cons.mpr ⟨⟨c, hc⟩, hbefore⟩, ha⟩
          · cases h
  · rintro ⟨before, a, after, rfl, hbefore, ha⟩
    induction before with
    | nil =>
        rw [List.nil_append, List.mapM_cons]
        exact bind_eq_error.mpr (.inl ha)
    | cons b before ih =>
        obtain ⟨⟨c, hc⟩, hrest⟩ := List.forall_mem_cons.mp hbefore
        rw [List.cons_append, List.mapM_cons]
        exact bind_eq_error.mpr (.inr ⟨c, hc, bind_eq_error.mpr (.inl (ih hrest))⟩)

/-! ## Pitches outside the space -/

namespace Failure

/-- A dead end that is raised is that dead end, if its wording can be formed. -/
theorem worded_eq_deadEnd_iff {f : Failure} {cause : DeadEnd} :
    f.worded = .deadEnd cause ↔ f = .deadEnd cause ∧ f.worded = f := by
  constructor
  · intro h
    have hworded : f.worded = f := by
      unfold worded at h ⊢
      split at h
      · exact absurd ⟨cause, h⟩ (not_isDeadEnd_ofTextFault _)
      · rfl
    exact ⟨hworded.symm.trans h, hworded⟩
  · rintro ⟨rfl, h⟩
    exact h

/-- A failure that shows nothing but what can be shown is left as it is. -/
theorem worded_of_shown {f : Failure} (h : ∀ sh ∈ f.shown, sh.fault? = none) : f.worded = f := by
  rw [worded, List.findSome?_eq_none_iff.mpr h]

end Failure

namespace PitchSpace

variable {space : PitchSpace} {v : Value}

theorem require_of_contains (h : space.contains v = true) : ∃ n, space.require v = .ok n := by
  unfold contains at h
  unfold require
  split at h
  next n hn => exact ⟨n, if_pos h⟩
  next => cases h

theorem require_of_not_contains (h : space.contains v = false) :
    space.require v = Failure.raise (.deadEnd (.outsideSpace v space.lowest space.highest)) := by
  unfold contains at h
  unfold require
  split at h
  next n hn => exact if_neg (by simp [h])
  next => rfl

/-- Only a pitch outside the space has no description. -/
theorem describe_eq_error_iff {f : Failure} :
    space.describe v = .error f ↔ space.contains v = false ∧
      f = (Failure.deadEnd (.outsideSpace v space.lowest space.highest)).worded := by
  unfold describe
  cases h : space.contains v with
  | true =>
      obtain ⟨n, hn⟩ := require_of_contains h
      rw [hn]
      exact ⟨nofun, nofun⟩
  | false =>
      rw [require_of_not_contains h]
      exact ⟨fun he => ⟨rfl, (Except.error.inj he).symm⟩, fun he => congrArg _ he.2.symm⟩

theorem describe_eq_ok_iff : (∃ d, space.describe v = .ok d) ↔ space.contains v = true := by
  cases h : space.describe v with
  | error f => simp [(describe_eq_error_iff.mp h).1]
  | ok d =>
      refine ⟨fun _ => ?_, fun _ => ⟨d, rfl⟩⟩
      by_contra hnot
      have herror := describe_eq_error_iff.mpr ⟨Bool.eq_false_iff.mpr hnot, rfl⟩
      exact nomatch h.symm.trans herror

end PitchSpace

/-! ## Notes -/

namespace Relation

open Goal

/-- Nothing is known of a note, and a value that its pitch may take lies outside the space.  It
is the first one that does, and it can be shown. -/
structure Strays (s : State) (c octave pitch : Term) (cause : DeadEnd) : Prop where
  classOpen : (s.walk c).isVar = true
  octaveOpen : (s.walk octave).isVar = true
  pitchOpen : (s.walk pitch).isVar = true
  /-- The values before it lie in the space. -/
  value : ∃ before v after, s.candidates (s.walk pitch) = .ok (before ++ v :: after) ∧
    (∀ u ∈ before, s.space.contains u = true) ∧ s.space.contains v = false ∧
    cause = .outsideSpace v s.space.lowest s.space.highest
  worded : (Failure.deadEnd cause).worded = .deadEnd cause

variable {s : State} {c octave pitch : Term} {cause : DeadEnd}

theorem description_eq_ok_iff {space : PitchSpace} {v : Value} :
    (∃ d, description space v = .ok d) ↔ space.contains v = true := by
  rw [← PitchSpace.describe_eq_ok_iff, description]
  cases space.describe v with
  | ok d => exact ⟨fun _ => ⟨d, rfl⟩, fun _ => ⟨_, rfl⟩⟩
  | error f => exact ⟨nofun, nofun⟩

theorem description_eq_deadEnd_iff {space : PitchSpace} {v : Value} :
    description space v = .error (.deadEnd cause) ↔ space.contains v = false ∧
      cause = .outsideSpace v space.lowest space.highest ∧
      (Failure.deadEnd cause).worded = .deadEnd cause := by
  have hdescribe : description space v = .error (.deadEnd cause) ↔
      space.describe v = .error (.deadEnd cause) := by
    unfold description
    cases space.describe v with
    | ok d => exact ⟨nofun, nofun⟩
    | error f =>
        show Except.error f = _ ↔ _
        simp only [Except.error.injEq]
  rw [hdescribe, PitchSpace.describe_eq_error_iff, eq_comm (a := Failure.deadEnd cause),
    Failure.worded_eq_deadEnd_iff, Failure.deadEnd.injEq]
  constructor
  · rintro ⟨hout, rfl, hworded⟩
    exact ⟨hout, rfl, hworded⟩
  · rintro ⟨hout, rfl, hworded⟩
    exact ⟨hout, rfl, hworded⟩

/-- With nothing known of a note, reading the values of its pitch comes to a dead end at the
first one outside the space. -/
theorem descriptions_eq_deadEnd_iff {space : PitchSpace} {vs : List Value} :
    descriptions space vs = .error (.deadEnd cause) ↔
      (∃ before v after, vs = before ++ v :: after ∧ (∀ u ∈ before, space.contains u = true) ∧
        space.contains v = false ∧ cause = .outsideSpace v space.lowest space.highest) ∧
      (Failure.deadEnd cause).worded = .deadEnd cause := by
  rw [descriptions, mapM_eq_error_iff]
  simp only [description_eq_ok_iff, description_eq_deadEnd_iff]
  constructor
  · rintro ⟨before, v, after, hvs, hbefore, hout, hcause, hworded⟩
    exact ⟨⟨before, v, after, hvs, hbefore, hout, hcause⟩, hworded⟩
  · rintro ⟨⟨before, v, after, hvs, hbefore, hout, hcause⟩, hworded⟩
    exact ⟨before, v, after, hvs, hbefore, hout, hcause, hworded⟩

/-- What there is to try for a note comes to a dead end only if nothing is known. -/
theorem noteCandidates_eq_deadEnd_iff {c octave pitch : Term} :
    noteCandidates s c octave pitch = .error (.deadEnd cause) ↔
      c.isVar = true ∧ octave.isVar = true ∧
      ∃ vs, s.candidates pitch = .ok vs ∧ descriptions s.space vs = .error (.deadEnd cause) := by
  cases c with
  | val class' =>
      cases octave with
      | val octave' => exact ⟨nofun, nofun⟩
      | var y => exact ⟨nofun, nofun⟩
  | var x =>
      cases octave with
      | val octave' => exact ⟨nofun, nofun⟩
      | var y =>
          show (s.candidates pitch >>= descriptions s.space) = _ ↔ _
          rw [bind_eq_error]
          constructor
          · rintro (h | ⟨vs, hvs, h⟩)
            · exact absurd h ((s.steady_candidates pitch).ne_deadEnd cause)
            · exact ⟨rfl, rfl, vs, hvs, h⟩
          · rintro ⟨-, -, vs, hvs, h⟩
            exact .inr ⟨vs, hvs, h⟩

/-- With a known pitch, making the goal of a note comes to no dead end. -/
theorem steady_noteIn_known {p : Value} (h : s.walk pitch = .val p) :
    Steady (noteIn s c octave pitch) Contained := by
  unfold noteIn
  rw [h]
  dsimp only
  split
  · exact Steady.ok (contained_conjoin (by simp))
  · exact Steady.ok contained_fail
  next f hnot _ => exact Steady.error fun ⟨cause, hf⟩ => hnot cause hf

/-- With an open pitch, the goal of a note is made from what there is to try. -/
theorem noteIn_open {x : Var} (h : s.walk pitch = .var x) :
    noteIn s c octave pitch =
      noteCandidates s (s.walk c) (s.walk octave) (s.walk pitch) >>= fun pairs =>
        placements s.space (s.walk c) (s.walk octave) (s.walk pitch) pairs >>= fun gs =>
          .ok (Goal.disjoin gs) := by
  unfold noteIn
  rw [h]
  rfl

theorem steady_placed (space : PitchSpace) (c octave pitch : Term) (pairs : List (Value × Value)) :
    Steady (placements space c octave pitch pairs >>= fun gs => .ok (Goal.disjoin gs)) Contained :=
  (steady_placements space c octave pitch pairs).bind fun _ hgs => Steady.ok (contained_disjoin hgs)

/-- The goal of a note lets no dead end out, once it is made. -/
theorem contained_of_noteIn {g : Goal} (h : noteIn s c octave pitch = .ok g) : g.Contained := by
  cases hpitch : s.walk pitch with
  | val p => exact (h ▸ steady_noteIn_known hpitch : Steady (.ok g) Contained)
  | var x =>
      rw [noteIn_open hpitch] at h
      obtain ⟨pairs, -, h⟩ := bind_eq_ok.mp h
      have hplaced := steady_placed s.space (s.walk c) (s.walk octave) (s.walk pitch) pairs
      rw [h] at hplaced
      exact hplaced

/-- Making the goal of a note comes to a dead end just where a pitch strays. -/
theorem noteIn_eq_deadEnd_iff :
    noteIn s c octave pitch = .error (.deadEnd cause) ↔ Strays s c octave pitch cause := by
  cases hpitch : s.walk pitch with
  | val p =>
      constructor
      · intro h
        exact absurd h ((steady_noteIn_known hpitch).ne_deadEnd cause)
      · intro h
        have hopen := h.pitchOpen
        rw [hpitch] at hopen
        cases hopen
  | var x =>
      rw [noteIn_open hpitch, bind_eq_error]
      constructor
      · rintro (h | ⟨pairs, -, h⟩)
        · obtain ⟨hclass, hoctave, vs, hvs, h⟩ := noteCandidates_eq_deadEnd_iff.mp h
          obtain ⟨⟨before, v, after, rfl, hbefore, hout, hcause⟩, hworded⟩ :=
            descriptions_eq_deadEnd_iff.mp h
          refine ⟨hclass, hoctave, by rw [hpitch, Term.isVar], ?_, hworded⟩
          exact ⟨before, v, after, hvs, hbefore, hout, hcause⟩
        · exact absurd h ((steady_placed _ _ _ _ pairs).ne_deadEnd cause)
      · rintro ⟨hclass, hoctave, -, ⟨before, v, after, hvs, hbefore, hout, hcause⟩, hworded⟩
        refine .inl (noteCandidates_eq_deadEnd_iff.mpr ⟨hclass, hoctave, _, hvs, ?_⟩)
        exact descriptions_eq_deadEnd_iff.mpr ⟨⟨before, v, after, rfl, hbefore, hout, hcause⟩,
          hworded⟩

end Relation

/-! ## Escapes -/

namespace Goal

/-- A search ends at a dead end that escapes its branch.  It comes to a note at which a pitch
strays, after all that is tried earlier has ended normally. -/
inductive Escapes (cause : DeadEnd) : Goal → State → Prop where
  | note {s c octave pitch} (strays : Relation.Strays s c octave pitch cause) :
      Escapes cause (Relation.note c octave pitch) s
  /-- The second of two goals, on a state that the first one gives. -/
  | second {g h s before t after} (items : (g s).items = before ++ t :: after)
      (earlier : ∀ u ∈ before, (h u).ending = none) (escapes : Escapes cause h t) :
      Escapes cause (both g h) s
  /-- The first of two goals, after the states that it gives. -/
  | first {g h s} (earlier : ∀ u ∈ (g s).items, (h u).ending = none)
      (escapes : Escapes cause g s) : Escapes cause (both g h) s
  | head {g rest s} (escapes : Escapes cause g s) : Escapes cause (disjoin (g :: rest)) s
  | tail {g rest s} (earlier : (g s).ending = none) (escapes : Escapes cause (disjoin rest) s) :
      Escapes cause (disjoin (g :: rest)) s
  | known {t known unknown s} (isKnown : (s.walk t).isVar = false)
      (escapes : Escapes cause known s) : Escapes cause (ifKnown t known unknown) s
  | unknown {t known unknown s} (isOpen : (s.walk t).isVar = true)
      (escapes : Escapes cause unknown s) : Escapes cause (ifKnown t known unknown) s

theorem ending_note {s : State} {c octave pitch : Term} {cause : DeadEnd} :
    (Relation.note c octave pitch s).ending = some (.deadEnd cause) ↔
      Relation.Strays s c octave pitch cause := by
  rw [← Relation.noteIn_eq_deadEnd_iff, Relation.note, project]
  cases hnote : Relation.noteIn s c octave pitch with
  | ok g =>
      have hcontained := Relation.contained_of_noteIn hnote
      exact ⟨fun h => absurd h (hcontained.ending_ne s cause), nofun⟩
  | error f => simp [Answers.ending]

theorem items_note {s : State} {c octave pitch : Term} {cause : DeadEnd}
    (h : Relation.Strays s c octave pitch cause) : (Relation.note c octave pitch s).items = [] := by
  rw [Relation.note, project, Relation.noteIn_eq_deadEnd_iff.mpr h]
  rfl

theorem ending_both (g h : Goal) (s : State) :
    (both g h s).ending = ((g s).items.findSome? fun t => (h t).ending).or (g s).ending :=
  Answers.ending_bind ..

theorem ending_disjoin_cons (g : Goal) (rest : List Goal) (s : State) :
    (disjoin (g :: rest) s).ending = (g s).ending.or (disjoin rest s).ending :=
  Answers.ending_append ..

theorem ifKnown_eq (t : Term) (known unknown : Goal) (s : State) :
    ifKnown t known unknown s = if (s.walk t).isVar then unknown s else known s := by
  unfold ifKnown project
  dsimp only
  split <;> rfl

theorem Escapes.ending {cause : DeadEnd} {g : Goal} {s : State} (h : g.Escapes cause s) :
    (g s).ending = some (.deadEnd cause) := by
  induction h with
  | note strays => exact ending_note.mpr strays
  | @second g h s before t after items earlier _ ih =>
      have hbefore : (before.findSome? fun u => (h u).ending) = none :=
        List.findSome?_eq_none_iff.mpr earlier
      rw [ending_both, items, List.findSome?_append, hbefore, List.findSome?_cons, ih]
      rfl
  | first earlier _ ih =>
      rw [ending_both, List.findSome?_eq_none_iff.mpr earlier, ih]
      rfl
  | head _ ih =>
      rw [ending_disjoin_cons, ih]
      rfl
  | tail earlier _ ih =>
      rw [ending_disjoin_cons, earlier, ih]
      rfl
  | known isKnown _ ih =>
      rw [ifKnown_eq, isKnown]
      exact ih
  | unknown isOpen _ ih =>
      rw [ifKnown_eq, isOpen]
      exact ih

/-- What escapes is a value outside the space. -/
theorem Escapes.outsideSpace {cause : DeadEnd} {g : Goal} {s : State} (h : g.Escapes cause s) :
    ∃ v lowest highest, cause = .outsideSpace v lowest highest := by
  induction h with
  | note strays =>
      obtain ⟨-, v, -, -, -, -, hcause⟩ := strays.value
      exact ⟨v, _, _, hcause⟩
  | second _ _ _ ih => exact ih
  | first _ _ ih => exact ih
  | head _ ih => exact ih
  | tail _ _ ih => exact ih
  | known _ _ ih => exact ih
  | unknown _ _ ih => exact ih

/-! ## Goals whose dead ends are escapes -/

/-- Each dead end at which the goal ends a search is an escape. -/
def Traced (g : Goal) : Prop :=
  ∀ s cause, (g s).ending = some (.deadEnd cause) → g.Escapes cause s

theorem Contained.traced {g : Goal} (h : g.Contained) : g.Traced :=
  fun s cause he => absurd he (h.ending_ne s cause)

theorem traced_note (c octave pitch : Term) : Traced (Relation.note c octave pitch) :=
  fun _ _ he => .note (ending_note.mp he)

theorem Traced.both {g h : Goal} (hg : g.Traced) (hh : h.Traced) : (both g h).Traced := by
  intro s cause he
  rw [ending_both, Option.or_eq_some_iff] at he
  rcases he with he | ⟨hnone, he⟩
  · obtain ⟨before, t, after, hitems, ht, hbefore⟩ := List.findSome?_eq_some_iff.mp he
    exact .second hitems hbefore (hh t cause ht)
  · exact .first (List.findSome?_eq_none_iff.mp hnone) (hg s cause he)

theorem traced_foldl {g : Goal} {rest : List Goal} (hg : g.Traced)
    (hrest : ∀ h ∈ rest, h.Traced) : (rest.foldl Goal.both g).Traced := by
  induction rest generalizing g with
  | nil => exact hg
  | cons h rest ih =>
      obtain ⟨hh, hrest⟩ := List.forall_mem_cons.mp hrest
      exact ih (hg.both hh) hrest

theorem traced_conjoin {gs : List Goal} (h : ∀ g ∈ gs, g.Traced) : (conjoin gs).Traced := by
  cases gs with
  | nil => exact contained_succeed.traced
  | cons g rest =>
      obtain ⟨hg, hrest⟩ := List.forall_mem_cons.mp h
      exact traced_foldl hg hrest

theorem traced_disjoin {gs : List Goal} (h : ∀ g ∈ gs, g.Traced) : (disjoin gs).Traced := by
  induction gs with
  | nil => exact contained_fail.traced
  | cons g rest ih =>
      obtain ⟨hg, hrest⟩ := List.forall_mem_cons.mp h
      intro s cause he
      rw [ending_disjoin_cons, Option.or_eq_some_iff] at he
      rcases he with he | ⟨hnone, he⟩
      · exact .head (hg s cause he)
      · exact .tail hnone (ih hrest s cause he)

theorem Traced.ifKnown {known unknown : Goal} (t : Term) (hknown : known.Traced)
    (hunknown : unknown.Traced) : (ifKnown t known unknown).Traced := by
  intro s cause he
  rw [ifKnown_eq] at he
  cases hwalk : (s.walk t).isVar with
  | true =>
      rw [hwalk, if_pos rfl] at he
      exact .unknown hwalk (hunknown s cause he)
  | false =>
      rw [hwalk, if_neg Bool.false_ne_true] at he
      exact .known hwalk (hknown s cause he)

end Goal

/-! ## Formulas -/

open Goal in
theorem Builder.Makes.traced {b : Builder Goal} (h : b.Makes Contained) : b.Makes Traced := by
  intro n
  exact (h n).mono fun _ hg => hg.traced

open Goal in
theorem Builder.makes_note (c octave pitch : Term) : (note c octave pitch).Makes Traced := by
  refine (makes_pitchClass c).bind fun _ _ => (makes_openOr octave).bind fun _ _ => ?_
  exact (makes_openOr pitch).bind fun _ _ => makes_pure (traced_note _ _ _)

namespace Formula

open Goal Builder

mutual

/-- The goal of a formula lets dead ends out by escapes only, and none comes up while it is
made. -/
theorem makes_build (f : Formula) : f.build.Makes Traced := by
  cases f with
  | succeed => exact makes_pure contained_succeed.traced
  | fail => exact makes_pure contained_fail.traced
  | eq a b => exact makes_pure (contained_eq a b).traced
  | inDomain t admission =>
      exact (makes_lift admission.steady_allowed).bind fun allowed _ =>
        makes_pure (contained_inDomain t allowed).traced
  | difference a b d => exact makes_pure (contained_difference a b d).traced
  | label terms => exact makes_pure (contained_label terms).traced
  | conjoin parts => exact (makes_buildAll parts).bind fun _ h => makes_pure (traced_conjoin h)
  | disjoin parts => exact (makes_buildAll parts).bind fun _ h => makes_pure (traced_disjoin h)
  | conde clauses =>
      refine (makes_buildClauses clauses).bind fun gss h => makes_pure (traced_disjoin ?_)
      exact List.forall_mem_map.mpr fun gs hgs => traced_conjoin (h gs hgs)
  | note c octave pitch => exact makes_note c octave pitch
  | interval d first second => exact (makes_interval d first second).traced
  | above d low high => exact (makes_above d low high).traced
  | majorTriad root third fifth => exact (makes_spread 4 7 root third fifth).traced
  | minorTriad root third fifth => exact (makes_spread 3 7 root third fifth).traced
  | chord quality pitches => exact (makes_chord quality pitches).traced
  | scaled result source factor summand =>
      exact makes_pure (contained_scaled result source factor summand).traced
  | ifKnown t known unknown =>
      refine (makes_build known).bind fun g hg => (makes_build unknown).bind fun h hh => ?_
      exact makes_pure (hg.ifKnown t hh)

theorem makes_buildAll (fs : List Formula) : (buildAll fs).Makes fun gs => ∀ g ∈ gs, g.Traced := by
  cases fs with
  | nil => exact makes_pure nofun
  | cons f rest =>
      refine (makes_build f).bind fun g hg => (makes_buildAll rest).bind fun gs hgs => ?_
      exact makes_pure (List.forall_mem_cons.mpr ⟨hg, hgs⟩)

theorem makes_buildClauses (clauses : List (List Formula)) :
    (buildClauses clauses).Makes fun gss => ∀ gs ∈ gss, ∀ g ∈ gs, g.Traced := by
  cases clauses with
  | nil => exact makes_pure nofun
  | cons c rest =>
      refine (makes_buildAll c).bind fun gs hgs => (makes_buildClauses rest).bind fun gss hgss => ?_
      exact makes_pure (List.forall_mem_cons.mpr ⟨hgs, hgss⟩)

end

theorem steady_goal (f : Formula) : Steady f.goal Traced :=
  (makes_build f 0).bind fun _ h => Steady.ok h

end Formula

/-! ## Queries -/

theorem steady_rowCount (v : Value) : Steady (rowCount v) fun _ => True := by
  unfold rowCount
  split
  · split
    · exact Steady.ok trivial
    · exact Steady.error nofun
  · exact Steady.error nofun

/-- The limit asks for more rows than there are. -/
def AsksBeyond (limit : Value) (rows : Nat) : Prop :=
  limit = .nothing ∨
    limit.holds .lt (.int 0) = .ok false ∧ ∃ n, rowCount limit = .ok n ∧ rows < n

/-- Counting the rows wanted and taking them comes to a dead end only while they are taken. -/
theorem take_rowCount_eq_deadEnd_iff {limit : Value} {rows : Answers Row} {cause : DeadEnd} :
    (rowCount limit >>= fun n => Answers.take n (fun _ => rows) >>= fun r => pure r.1) =
        Except.error (.deadEnd cause) ↔
      ∃ n, rowCount limit = .ok n ∧ rows.items.length < n ∧
        rows.ending = some (.deadEnd cause) := by
  rw [bind_eq_error, or_iff_right ((steady_rowCount limit).ne_deadEnd cause)]
  refine exists_congr fun n => and_congr_right fun _ => ?_
  rw [bind_eq_error, Answers.take_eq_error_iff, or_iff_left]
  rintro ⟨r, -, h⟩
  cases h

/-- A query ends at a dead end when its rows do, and the limit lets it come that far. -/
theorem run_eq_deadEnd_iff {goal : Goal} {query : List Term} {limit : Value} {space : PitchSpace}
    {cause : DeadEnd} :
    run goal query limit space = .error (.deadEnd cause) ↔
      (solutions goal query space).ending = some (.deadEnd cause) ∧
        AsksBeyond limit (solutions goal query space).items.length := by
  unfold run AsksBeyond
  split
  next => rw [Answers.all_eq_error_iff, and_iff_left (.inl rfl)]
  next hlimit =>
    rw [or_iff_right hlimit, bind_eq_error,
      or_iff_right ((Value.steady_holds .lt limit (.int 0)).ne_deadEnd cause)]
    constructor
    · rintro ⟨negative, hholds, h⟩
      cases negative with
      | true =>
          have hsteady : Steady (Failure.raise (.invalid (.negativeLimit limit)) :
              Except Failure PUnit) fun _ => True := Failure.steady_raise nofun
          rcases bind_eq_error.mp h with hraise | ⟨_, hraise, -⟩
          · exact absurd hraise (hsteady.ne_deadEnd cause)
          · cases hraise
      | false =>
          obtain ⟨n, hcount, hrows, hending⟩ := take_rowCount_eq_deadEnd_iff.mp h
          exact ⟨hending, hholds, n, hcount, hrows⟩
    · rintro ⟨hending, hholds, n, hcount, hrows⟩
      exact ⟨false, hholds, take_rowCount_eq_deadEnd_iff.mpr ⟨n, hcount, hrows, hending⟩⟩

/-- A dead end ends a query just when it escapes, and the limit lets the query come that far.
So it is a value outside the space, and never a conflict of values or a domain without any. -/
theorem Formula.run_deadEnd_iff_escapes (f : Formula) (query : List Term) (limit : Value)
    (space : PitchSpace) (cause : DeadEnd) :
    (f.run query limit space = .error (.deadEnd cause) ↔ ∃ goal : Goal, f.goal = .ok goal ∧
      (Goal.conjoin [goal, .label query]).Escapes cause (.empty space) ∧
      AsksBeyond limit (solutions goal query space).items.length) ∧
    (∀ goal : Goal, f.goal = .ok goal →
      ((solutions goal query space).ending = some (.deadEnd cause) ↔
        (Goal.conjoin [goal, .label query]).Escapes cause (.empty space))) ∧
    (f.run query limit space = .error (.deadEnd cause) →
      ∃ v lowest highest, cause = .outsideSpace v lowest highest) := by
  have hgoal := f.steady_goal
  have hending : ∀ goal : Goal, f.goal = .ok goal →
      ((solutions goal query space).ending = some (.deadEnd cause) ↔
        (Goal.conjoin [goal, .label query]).Escapes cause (.empty space)) := by
    intro goal hbuild
    have htraced : goal.Traced := (hbuild ▸ hgoal : Steady (.ok goal) Goal.Traced)
    rw [solutions, Answers.ending_map]
    exact ⟨htraced.both (Goal.contained_label query).traced _ _, Goal.Escapes.ending⟩
  have hrun : f.run query limit space = .error (.deadEnd cause) ↔
      ∃ goal : Goal, f.goal = .ok goal ∧
        (Goal.conjoin [goal, .label query]).Escapes cause (.empty space) ∧
        AsksBeyond limit (solutions goal query space).items.length := by
    rw [Formula.run, bind_eq_error, or_iff_right (hgoal.ne_deadEnd cause)]
    refine exists_congr fun goal => and_congr_right fun hbuild => ?_
    rw [run_eq_deadEnd_iff, hending goal hbuild]
  refine ⟨hrun, hending, fun h => ?_⟩
  obtain ⟨goal, -, hescapes, -⟩ := hrun.mp h
  exact hescapes.outsideSpace

/-- A note that is not known, with a pitch above the whole MIDI range. -/
def Formula.tooHigh : Formula :=
  .conjoin [.inDomain (.var (.named "pitch")) (.values [.int 200, .int 201]),
    .note (.var (.named "class")) (.var (.named "octave")) (.var (.named "pitch"))]

/-- The whole query ends, where the branch alone was to be dropped. -/
theorem Formula.run_deadEnd_iff_escapes_tooHigh :
    (∃ goal : Goal, tooHigh.goal = .ok goal ∧
      (solutions goal [.var (.named "pitch")] .midi).ending =
        some (.deadEnd (.outsideSpace (.int 200) 0 127))) ∧
    tooHigh.run [.var (.named "pitch")] .nothing .midi =
      .error (.deadEnd (.outsideSpace (.int 200) 0 127)) := by
  let pitch : Term := .var (.named "pitch")
  let c : Term := .var (.named "class")
  let octave : Term := .var (.named "octave")
  let allowed : Allowed := .values [.int 200, .int 201]
  let t : State := (State.empty .midi).put (.named "pitch") ⟨[.int 200, .int 201]⟩
  let goal : Goal := Goal.conjoin [.inDomain pitch allowed, Relation.note c octave pitch]
  have hgoal : tooHigh.goal = .ok goal := rfl
  have hdomain : Goal.inDomain pitch allowed (.empty .midi) = .one t :=
    Goal.lift_of_ok (State.propagate_of_open (s := t) (List.forall_mem_nil _))
  have hstrays : Relation.Strays t c octave pitch (.outsideSpace (.int 200) 0 127) := by
    refine ⟨rfl, rfl, rfl,
      ⟨[], .int 200, [.int 201], rfl, List.forall_mem_nil _, rfl, rfl⟩, ?_⟩
    have hover : ∀ sh ∈ (DeadEnd.outsideSpace (.int 200) 0 127).shown,
        sh.Over fun n => n.natAbs < 1000 := by
      simp only [DeadEnd.shown, List.forall_mem_cons]
      refine ⟨⟨200, rfl, by decide⟩, ⟨0, rfl, by decide⟩, ⟨127, rfl, by decide⟩, ?_⟩
      exact List.forall_mem_nil _
    refine Failure.worded_of_shown fun sh hsh => (hover sh hsh).fault?_eq_none fun n hn => ?_
    exact Number.isWritable_of_natAbs_lt (k := 3) (by decide) hn
  have hescapes : (Goal.conjoin [goal, .label [pitch]]).Escapes
      (.outsideSpace (.int 200) 0 127) (.empty .midi) := by
    have hstate : (Goal.inDomain pitch allowed (.empty .midi)).items = [] ++ t :: [] := by
      rw [hdomain]
      rfl
    have hnote : goal.Escapes (.outsideSpace (.int 200) 0 127) (.empty .midi) :=
      .second hstate (List.forall_mem_nil _) (.note hstrays)
    have hitems : (goal (.empty .midi)).items = [] := by
      show (Goal.both _ _ _).items = []
      rw [Goal.both, hdomain, Answers.one_bind, Goal.items_note hstrays]
    refine .first (fun u hu => ?_) hnote
    rw [hitems] at hu
    cases hu
  obtain ⟨hrun, hending, -⟩ := run_deadEnd_iff_escapes tooHigh [pitch] .nothing .midi
    (.outsideSpace (.int 200) 0 127)
  exact ⟨⟨goal, hgoal, (hending goal hgoal).mpr hescapes⟩,
    hrun.mpr ⟨goal, hgoal, hescapes, .inl rfl⟩⟩

end Consonance
