import Consonance.Proofs.ClosedVoicings

/-!
# Barren goals

A goal is *barren* if it leads from no enclosed state to another one and does not fail
(`Goal.Barren`).  What stands behind a barren goal is never reached.  So a conjunction is barren
as soon as one of its goals is, if those before it introduce their variables and can word their
dead ends.

A given pitch outside the space makes the goal of a chord barren, whatever its number of digits
(`Tones.chord_barren`).  For no arithmetic is done with it: a voice is looked up in the space
first, and a root is only compared with a voice that lies there.
-/

namespace Consonance

/-- Where no answer leads on and no failure comes, nothing is left. -/
theorem Answers.bind_eq_done {α β : Type} {xs : Answers α} {k : α → Answers β}
    (hending : xs.ending = none) (hk : ∀ a ∈ xs.items, k a = .done) : xs.bind k = .done := by
  induction xs with
  | done => rfl
  | raise f => cases hending
  | next a rest ih =>
      obtain ⟨ha, hrest⟩ := List.forall_mem_cons.mp hk
      rw [bind_next, ha, append_done]
      exact ih () hending hrest

/-- The term is an integer that can be written and is not in the set. -/
def Term.Strays (I : Int → Prop) (t : Term) : Prop :=
  ∃ n : Int, t = .int n ∧ ¬ I n ∧ Number.isWritable n = true

theorem Term.Over.not_strays {I : Int → Prop} {t : Term} (h : t.Over I) : ¬ t.Strays I := by
  rintro ⟨n, rfl, hn, -⟩
  obtain ⟨m, heq, hm⟩ := h
  cases heq
  exact hn hm

/-- An integer that can be written is in the set or strays from it. -/
theorem Term.Over.over_or_strays {t : Term} (h : t.Over fun n => Number.isWritable n = true)
    (I : Int → Prop) : t.Over I ∨ t.Strays I := by
  cases t with
  | var x => exact .inl trivial
  | val v =>
      obtain ⟨n, rfl, hwritten⟩ := h
      by_cases hn : I n
      · exact .inl (Term.over_int hn)
      · exact .inr ⟨n, rfl, hn, hwritten⟩

namespace Goal

variable {I : Int → Prop} {V W : Var → Prop} {space : PitchSpace} {g : Goal} {gs : List Goal}
  {Ps : List (Assignment → Prop)} {s : State} {n : Int}

/-- No state that encloses `V` leads to another one, and there is no failure. -/
def Barren (I : Int → Prop) (space : PitchSpace) (V : Var → Prop) (g : Goal) : Prop :=
  ∀ s : State, s.Enclosed I V space → g s = .done

/-! ## Combinations -/

theorem barren_conjoin_cons (hg : g.Barren I space V) : (conjoin (g :: gs)).Barren I space V := by
  intro s hs
  rw [conjoin_cons, hg s hs]
  rfl

/-- A goal that introduces variables passes on what is barren after it. -/
theorem Introduces.barren_conjoin (hg : g.Introduces I space V W Ps)
    (hwritable : ∀ n, Derived I n → Number.isWritable n = true)
    (hgs : (conjoin gs).Barren I space W) : (conjoin (g :: gs)).Barren I space V := by
  intro s hs
  have hgives := hg s hs
  rw [conjoin_cons]
  refine Answers.bind_eq_done ?_ fun t ht => hgs t (hgives.each t ht)
  cases hending : (g s).ending with
  | none => rfl
  | some f =>
      obtain ⟨-, m, hm, hlong⟩ := hgives.failure f hending
      exact nomatch hlong.symm.trans (hwritable m hm)

theorem barren_disjoin (h : ∀ g ∈ gs, g.Barren I space V) : (disjoin gs).Barren I space V := by
  intro s hs
  induction gs with
  | nil => rfl
  | cons g gs ih =>
      obtain ⟨hg, hgs⟩ := List.forall_mem_cons.mp h
      show ((g s).append fun _ => disjoin gs s) = .done
      rw [hg s hs]
      exact ih hgs

theorem barren_project {build : State → Except Failure Goal}
    (h : ∀ s : State, s.space = space → ∃ g, build s = .ok g ∧ g.Barren I space V) :
    (project build).Barren I space V := by
  intro s hs
  obtain ⟨g, hbuild, hg⟩ := h s hs.space
  simp only [project, hbuild]
  exact hg s hs

/-! ## Operations -/

/-- A dead end that can be worded drops the branch. -/
theorem lift_eq_done {operation : State → Except Failure State} {J : Int → Prop} {cause : DeadEnd}
    (h : operation s = Failure.raise (.deadEnd cause)) (hshown : ∀ sh ∈ cause.shown, sh.Over J)
    (hJ : ∀ n, J n → Number.isWritable n = true) : lift operation s = .done := by
  obtain ⟨worded, hworded⟩ := (Failure.blocked_deadEnd hshown).exists_deadEnd hJ
  rw [lift, h, Failure.raise, hworded]

theorem barren_inDomain {d : Domain} (hd : d.Integral) (hn : n ∉ d)
    (hwritten : Number.isWritable n = true) :
    Barren I space V (.inDomain (.int n) (.domain d)) := by
  intro s _
  have hnarrow : s.narrow (.int n) (.domain d) =
      Failure.raise (.deadEnd (.notAdmitted (.int n))) := by
    obtain ⟨b, hb, hmem⟩ := Domain.contains_int hd n
    cases b with
    | true => exact absurd (hmem.mp rfl) hn
    | false =>
        simp only [State.narrow, State.walk, Substitution.walk_val, Allowed.admits, hb]
        rfl
  have hrestrict : s.restrict (.int n) (.domain d) =
      Failure.raise (.deadEnd (.notAdmitted (.int n))) := by
    rw [State.restrict, hnarrow]
    rfl
  refine lift_eq_done (J := (· = n)) hrestrict ?_ ?_
  · exact List.forall_mem_singleton.mpr ⟨n, rfl, rfl⟩
  · rintro _ rfl
    exact hwritten

/-- An integer that strays from a set is not equal to a term over it. -/
theorem barren_eq {a b : Term} (ha : a.Strays I) (hb : b.Among I V)
    (hI : ∀ n, I n → Number.isWritable n = true) : Barren I space V (.eq a b) := by
  obtain ⟨n, rfl, hn, hwritten⟩ := ha
  intro s hs
  have hcoherent := hs.ready.wellFormed.coherent
  have hshow : ∀ m, I m ∨ m = n → Number.isWritable m = true := by
    rintro m (hm | rfl)
    · exact hI m hm
    · exact hwritten
  have hwalk : s.walk (.int n) = .int n := Substitution.walk_val _ _
  cases hwb : s.walk b with
  | var y =>
      obtain ⟨d, hd⟩ : ∃ d, s.stored? y = some d := by
        cases b with
        | var x => exact hs.encloses x hb y hwb
        | val v => exact nomatch (Substitution.walk_val _ _).symm.trans hwb
      have hover := hcoherent.domains y d hd
      have hequate : s.equate (.int n) b =
          Failure.raise (.deadEnd (.notInDomain (.int n) d.values)) := by
        simp only [State.equate, hwalk, hwb, Substitution.binding?]
        exact State.bindValue_of_not_mem hd hover.integral fun hmem => hn (hover.mem n hmem)
      refine lift_eq_done (by rw [State.bind, hequate]; rfl) (fun sh hsh => ?_) hshow
      rcases List.mem_cons.mp hsh with rfl | hsh
      · exact ⟨n, rfl, .inr rfl⟩
      · exact shownOfDomain_over ⟨hover.integral, fun m hm => .inl (hover.mem m hm)⟩ sh hsh
  | val w =>
      obtain ⟨m, rfl, hm⟩ := hcoherent.walk_int (fun _ h => h) hb.isOver hwb
      have hne : n ≠ m := fun heq => hn (heq ▸ hm)
      have hequate : s.equate (.int n) b =
          Failure.raise (.deadEnd (.differentValues (.int n) (.int m))) := by
        simp only [State.equate, hwalk, hwb, Substitution.binding?, Value.same_int,
          beq_eq_false_iff_ne.mpr hne]
        rfl
      refine lift_eq_done (by rw [State.bind, hequate]; rfl) (fun sh hsh => ?_) hshow
      rcases List.mem_cons.mp hsh with rfl | hsh
      · exact ⟨n, rfl, .inr rfl⟩
      · rw [List.mem_singleton.mp hsh]
        exact ⟨m, rfl, .inl hm⟩

end Goal

/-! ## Pitches outside the space -/

section Relations

open Goal

variable {I : Int → Prop} {V : Var → Prop} {space : PitchSpace} {s : State}
  {d low high : Term}

/-- A pitch outside the space is not within it. -/
theorem Relation.barren_inSpace {t : Term} (hI : space.Provides I) (hs : s.space = space)
    (ht : t.Strays I) : (Goal.inDomain t (.domain s.spaceDomain)).Barren I space V := by
  obtain ⟨n, rfl, hn, hwritten⟩ := ht
  refine barren_inDomain s.integral_spaceDomain (fun hmem => hn (hI.pitch n ?_)) hwritten
  rw [State.spaceDomain, Domain.mem_interval, hs] at hmem
  exact hmem

theorem Relation.barren_above (hI : space.Provides I)
    (hwritable : ∀ n, Derived I n → Number.isWritable n = true)
    (h : low.Strays I ∨ low.Over I ∧ high.Strays I) :
    (Relation.above d low high).Barren I space V := by
  refine barren_project fun s hs => ⟨_, rfl, barren_conjoin_cons ?_⟩
  rcases h with hlow | ⟨hlow, hhigh⟩
  · exact barren_conjoin_cons (barren_inSpace hI hs hlow)
  · have hspace : s.spaceDomain.Over I := by
      refine ⟨s.integral_spaceDomain, fun n hn => hI.pitch n ?_⟩
      rwa [State.spaceDomain, Domain.mem_interval, hs] at hn
    exact (inDomain_introduces hlow hspace).barren_conjoin hwritable
      (barren_conjoin_cons (barren_inSpace hI hs hhigh))

end Relations

namespace ChordQuality

variable {q : ChordQuality} {third fifth : Int} {space : PitchSpace} {I : Int → Prop}
  {V : Var → Prop} {root low middle high : Term} {k : Nat}

theorem voiced_barren (hI : space.Provides I)
    (hwritable : ∀ n, Derived I n → Number.isWritable n = true)
    (hstretch : I (stretch third fifth k).1 ∧ I (stretch third fifth k).2)
    (hterms : ∀ t ∈ [root, low, middle, high], t.Over I ∨ t.Strays I)
    (hstrays : ∃ t ∈ [root, low, middle, high], t.Strays I) :
    (Relation.voiced root low middle high ⟨k, .int (stretch third fifth k).1,
        .int (stretch third fifth k).2, (3 - k) % 3⟩).Barren I space V := by
  simp only [List.forall_mem_cons] at hterms
  obtain ⟨hroot, hlow, hmiddle, hhigh, -⟩ := hterms
  rcases hlow with hlow | hlow
  · rcases hmiddle with hmiddle | hmiddle
    · rcases hhigh with hhigh | hhigh
      · -- The voices are all there, so it is the root that strays.
        have hroot : root.Strays I := by
          obtain ⟨t, ht, hstrays⟩ := hstrays
          simp only [List.mem_cons, List.not_mem_nil, or_false] at ht
          rcases ht with rfl | rfl | rfl | rfl
          · exact hstrays
          · exact absurd hstrays hlow.not_strays
          · exact absurd hstrays hmiddle.not_strays
          · exact absurd hstrays hhigh.not_strays
        have hvoice := among_withVoices (V := V) hlow hmiddle hhigh _
          (Setting.voice_mem low middle high ((3 - k) % 3))
        obtain ⟨hfirst, hsecond⟩ := above_voices_introduce (V := V) hI hstretch hlow hmiddle hhigh
        refine hfirst.barren_conjoin hwritable (hsecond.barren_conjoin hwritable ?_)
        exact Goal.barren_conjoin_cons
          (Goal.barren_eq hroot hvoice fun n hn => hwritable n (.same hn))
      · have hfirst := Relation.above_introduces (V := V) hI (Term.over_int hstretch.1) hlow hmiddle
        exact hfirst.barren_conjoin hwritable
          (Goal.barren_conjoin_cons (Relation.barren_above hI hwritable (.inr ⟨hlow, hhigh⟩)))
    · exact Goal.barren_conjoin_cons (Relation.barren_above hI hwritable (.inr ⟨hlow, hmiddle⟩))
  · exact Goal.barren_conjoin_cons (Relation.barren_above hI hwritable (.inl hlow))

/-- The goal of a chord is barren if one of the pitches strays from the pitches, the distances and
the constants that it is about. -/
theorem Tones.chord_barren (hq : q.Tones third fifth) (hI : space.Provides I)
    (hoctave : ∀ n, 0 ≤ n → n ≤ 12 → I n)
    (hwritable : ∀ n, Derived I n → Number.isWritable n = true)
    (hterms : ∀ t ∈ [root, low, middle, high], t.Over I ∨ t.Strays I)
    (hstrays : ∃ t ∈ [root, low, middle, high], t.Strays I) :
    ∃ goal, Relation.chord q root low middle high = .ok goal ∧ goal.Barren I space V := by
  refine ⟨_, by rw [Relation.chord, hq.voicings]; rfl, ?_⟩
  rw [List.map_map]
  refine Goal.barren_disjoin (List.forall_mem_map.mpr fun k hk => ?_)
  obtain ⟨hnonneg, hle, hoct⟩ := hq.stretch_le (mem_inversions.mp hk)
  exact voiced_barren hI hwritable ⟨hoctave _ hnonneg (Int.le_trans hle hoct),
    hoctave _ (Int.le_trans hnonneg hle) hoct⟩ hterms hstrays

end ChordQuality

end Consonance
