import Consonance.Proofs.Distances
import Consonance.Proofs.Placement
import Consonance.Proofs.Tightening

/-!
# What goals leave behind

A goal tightens the state that it is run on, and leaves a property of the states that it gives
(`Goal.Leaves`).  A property that later states keep (`State.Enduring`) is still there when all goals
have been run.

The relations leave their arguments confined: the pitches within the pitches of the space, and the
distance within its distances (`Relation.leaves_above`, `Relation.leaves_interval`,
`Relation.leaves_chord`).  The note relation leaves its arguments known, and they name a pitch of
the space (`Relation.leaves_note`).
-/

namespace Consonance

open PitchSpace

/-! ## Numbers that values stand for -/

namespace Role

/-- The number that a value stands for in a role: a name stands for its class or distance. -/
def number? (r : Role) (v : Value) : Option Int :=
  match v.whole? with
  | some n => some n
  | none =>
    match r with
    | .pitchClass => (PitchClass.ofValue v).toOption.map PitchClass.toInt
    | .distance => (resolveDistance v).toOption.bind Value.whole?
    | _ => none

/-- The value is a whole number in the range of the role. -/
def Confines (r : Role) (space : PitchSpace) (v : Value) : Prop :=
  ∃ n, v.whole? = some n ∧ r.Ranges space n

theorem number?_whole {r : Role} {v : Value} {n : Int} (h : v.whole? = some n) :
    r.number? v = some n := by
  simp only [number?, h]

theorem lasting_confines (r : Role) (space : PitchSpace) :
    Value.Lasting (r.Confines space) := fun _ _ halike ⟨n, hn, hranges⟩ =>
  ⟨n, halike.1.symm.trans hn, hranges⟩

/-- What reads like the class that a value names stands for the number of the class. -/
theorem number?_class {v w : Value} {j : PitchClass} (h : PitchClass.ofValue v = .ok j)
    (halike : w.Alike v) : pitchClass.number? w = some j.toInt := by
  cases v with
  | pitchClass k =>
      cases h
      exact number?_whole halike.1
  | text s =>
      rw [(halike.2 s).mpr rfl]
      simp only [number?, h]
      rfl
  | _ => cases h

end Role

/-- The term is a value that stands for the number in the role. -/
def Term.StandsFor (a : Term) (r : Role) (n : Int) : Prop := ∃ v, a = .val v ∧ r.number? v = some n

namespace PitchSpace

variable {space : PitchSpace} {v : Value} {n : Int}

theorem require_eq_ok (h : space.require v = .ok n) :
    v.whole? = some n ∧ space.lowest ≤ n ∧ n ≤ space.highest := by
  unfold require at h
  split at h
  next m hm =>
    split at h
    next hin =>
      cases h
      exact ⟨hm, admits_iff.mp hin⟩
    next => cases h
  next => cases h

theorem describe_eq_ok {q : PitchClass × Int} (h : space.describe v = .ok q) :
    ∃ n, v.whole? = some n ∧ (space.lowest ≤ n ∧ n ≤ space.highest) ∧
      q = (.ofInt n, octaveOf n) := by
  obtain ⟨n, hn, h⟩ := bind_eq_ok.mp h
  cases h
  obtain ⟨hwhole, hin⟩ := require_eq_ok hn
  exact ⟨n, hwhole, hin, rfl⟩

/-- The octave of an absolute pitch is a whole number, and the pitch is that of the place. -/
theorem absolute_eq_ok {j : PitchClass} (hv : v.Discrete) (h : space.absolute j v = .ok n) :
    ∃ o, v.whole? = some o ∧ n = place (j, o) ∧ space.lowest ≤ n ∧ n ≤ space.highest := by
  obtain ⟨above, habove, h⟩ := bind_eq_ok.mp h
  obtain ⟨o, ho, rfl⟩ := Value.add_int_eq_ok hv habove
  obtain ⟨hwhole, hin⟩ := require_eq_ok (v := .int (place (j, o))) h
  exact ⟨o, ho, (Option.some.inj hwhole).symm, hin⟩

end PitchSpace

/-! ## Enduring properties -/

namespace State

variable {P Q : State → Prop} {S : Value → Prop} {a b : Term}

/-- Later states keep the property. -/
def Enduring (P : State → Prop) : Prop := ∀ s t : State, t.Tightens s → P s → P t

theorem enduring_true : Enduring fun _ => True := fun _ _ _ _ => trivial

theorem Enduring.and (hP : Enduring P) (hQ : Enduring Q) : Enduring fun t => P t ∧ Q t :=
  fun s t h hs => ⟨hP s t h hs.1, hQ s t h hs.2⟩

theorem enduring_within (hS : Value.Lasting S) (a : Term) : Enduring (·.Within S a) :=
  fun _ _ h => h.within S hS a

theorem enduring_matches (a b : Term) : Enduring (·.Matches a b) := fun _ _ h => h.matches

/-- The term is known, and its value stands for the number in the role. -/
def Reads (s : State) (r : Role) (a : Term) (n : Int) : Prop := (s.walk a).StandsFor r n

theorem Tightens.reads {s t : State} {r : Role} {n : Int} (h : t.Tightens s)
    (ha : s.Reads r a n) : t.Reads r a n := by
  obtain ⟨v, hv, hn⟩ := ha
  exact ⟨v, h.walk_val hv, hn⟩

theorem enduring_known (a : Term) : Enduring fun s => ∃ v, s.walk a = .val v :=
  fun _ _ h ⟨v, hv⟩ => ⟨v, h.walk_val hv⟩

end State

open State

/-! ## Goals -/

namespace Goal

variable {space : PitchSpace} {g : Goal} {gs : List Goal} {P Q : State → Prop} {s : State}

/-- What the goal gives from the state tightens it and has the property. -/
def LeavesFrom (g : Goal) (s : State) (P : State → Prop) : Prop :=
  (g s).Gives (fun _ => True) (fun t => t.Tightens s ∧ P t) fun _ => True

/-- From every state of the space without floating-point numbers, the goal tightens the state and
leaves the property. -/
def Leaves (g : Goal) (space : PitchSpace) (P : State → Prop) : Prop :=
  ∀ s : State, s.Discrete → s.space = space → g.LeavesFrom s P

theorem LeavesFrom.mono (h : g.LeavesFrom s P) (hPQ : ∀ t : State, t.Tightens s → P t → Q t) :
    g.LeavesFrom s Q :=
  Answers.Gives.imp h fun t ht => ⟨ht.1, hPQ t ht.1 ht.2⟩

theorem Leaves.mono (h : g.Leaves space P) (hPQ : ∀ t : State, t.Discrete → P t → Q t) :
    g.Leaves space Q :=
  fun s hs hspace => (h s hs hspace).mono fun t ht => hPQ t ht.discrete

theorem leaves_succeed : succeed.Leaves space fun _ => True :=
  fun _ hs _ => Answers.gives_one ⟨hs.tightens_self, trivial⟩ trivial

theorem leaves_fail : fail.Leaves space P := fun _ _ _ => Answers.gives_done trivial

theorem leaves_lift {operation : State → Except Failure State}
    (h : ∀ s t : State, s.Discrete → s.space = space → operation s = .ok t →
      t.Tightens s ∧ P t) : (lift operation).Leaves space P := by
  intro s hs hspace
  unfold LeavesFrom lift
  split
  next t ht => exact Answers.gives_one (h s t hs hspace ht) trivial
  next => exact Answers.gives_done trivial
  next => exact Answers.gives_raise trivial

theorem leaves_eq {a b : Term} (ha : a.Discrete) (hb : b.Discrete) :
    (eq a b).Leaves space (·.Matches a b) :=
  leaves_lift fun _ _ hs _ h => ⟨bind_tightens hs ha hb h, bind_matches hs ha hb h⟩

theorem leaves_inDomain {a : Term} {allowed : Allowed} (hallowed : allowed.Discrete) :
    (inDomain a allowed).Leaves space fun _ => True :=
  leaves_lift fun _ _ hs _ h => ⟨restrict_tightens hs hallowed h, trivial⟩

/-- A restriction leaves the term within every set of values around the domain. -/
theorem leaves_inDomain_within {a : Term} {d : Domain} {S : Value → Prop} (ha : a.Discrete)
    (hd : d.Discrete) (hS : Value.Lasting S) (hmem : ∀ v ∈ d.values, S v) :
    (inDomain a (.domain d)).Leaves space (·.Within S a) :=
  have hallowed : (Allowed.domain d).Discrete := hd
  leaves_lift fun _ _ hs _ h =>
    ⟨restrict_tightens hs hallowed h, restrict_within hs ha hd hS hmem h⟩

theorem leaves_difference {a b d : Term} (ha : a.Discrete) (hb : b.Discrete) (hd : d.Discrete) :
    (difference a b d).Leaves space fun _ => True :=
  leaves_lift fun _ _ hs _ h => ⟨assertDifference_tightens (c := ⟨a, b, d⟩) hs ⟨ha, hb, hd⟩ h,
    trivial⟩

/-- What the first goal leaves is still there after the others. -/
theorem leaves_conjoin_cons (hP : Enduring P) (hg : g.Leaves space P)
    (hgs : (conjoin gs).Leaves space Q) :
    (conjoin (g :: gs)).Leaves space fun t => P t ∧ Q t := by
  intro s hs hspace
  rw [LeavesFrom, conjoin_cons]
  have hboth := Answers.Gives.bind (k := conjoin gs) (R := fun _ _ => True)
    (D := fun u => u.Tightens s ∧ P u ∧ Q u) (hg s hs hspace) fun t ⟨ht, hPt⟩ =>
      (hgs t ht.discrete (ht.space.trans hspace)).imp fun u ⟨hu, hQu⟩ =>
        ⟨hu.trans ht, hP t u hu hPt, hQu⟩
  exact hboth.mono fun _ _ => trivial

theorem leaves_conjoin_map {α : Type} {goal : α → Goal} {P : α → State → Prop} {as : List α}
    (hP : ∀ a, Enduring (P a)) (h : ∀ a ∈ as, (goal a).Leaves space (P a)) :
    (conjoin (as.map goal)).Leaves space fun t => ∀ a ∈ as, P a t := by
  induction as with
  | nil => exact leaves_succeed.mono fun _ _ _ => nofun
  | cons a as ih =>
      obtain ⟨ha, has⟩ := List.forall_mem_cons.mp h
      exact (leaves_conjoin_cons (hP a) ha (ih has)).mono fun t _ ht =>
        List.forall_mem_cons.mpr ht

theorem leaves_conjoin (h : ∀ g ∈ gs, g.Leaves space fun _ => True) :
    (conjoin gs).Leaves space fun _ => True := by
  have hmap := leaves_conjoin_map (P := fun _ _ => True) (fun _ => enduring_true)
    (show ∀ g ∈ gs, (id g).Leaves space fun _ => True from h)
  rw [List.map_id] at hmap
  exact hmap.mono fun _ _ _ => trivial

theorem leavesFrom_disjoin (h : ∀ g ∈ gs, g.LeavesFrom s P) : (disjoin gs).LeavesFrom s P := by
  induction gs with
  | nil => exact Answers.gives_done trivial
  | cons g gs ih =>
      obtain ⟨hg, hgs⟩ := List.forall_mem_cons.mp h
      have hboth : ((g s).append fun _ => disjoin gs s).Gives _ _ _ :=
        Answers.Gives.append hg (ih hgs)
      exact hboth.mono fun _ _ => trivial

theorem leaves_disjoin (h : ∀ g ∈ gs, g.Leaves space P) : (disjoin gs).Leaves space P :=
  fun s hs hspace => leavesFrom_disjoin fun g hg => h g hg s hs hspace

theorem leaves_project {build : State → Except Failure Goal}
    (h : ∀ (s : State) (g : Goal), s.Discrete → s.space = space → build s = .ok g →
      g.LeavesFrom s P) : (project build).Leaves space P := by
  intro s hs hspace
  unfold LeavesFrom project
  split
  next g hg => exact h s g hs hspace hg
  next => exact Answers.gives_raise trivial

/-! ## Labelling -/

/-- The values that a term may take are no floating-point numbers, unless it has one already. -/
theorem candidates_discrete {a : Term} {values : List Value} (hs : s.Discrete)
    (h : s.candidates a = .ok values) : (∃ v, s.walk a = .val v ∧ values = [v]) ∨
      (∃ x, a = .var x) ∧ ∀ v ∈ values, v.Discrete := by
  unfold State.candidates at h
  split at h
  next v hv =>
    cases h
    exact .inl ⟨v, hv, rfl⟩
  next x hx =>
    refine .inr ⟨?_, ?_⟩
    · cases a with
      | var y => exact ⟨y, rfl⟩
      | val v => exact nomatch (Substitution.walk_val _ v).symm.trans hx
    · have hd : ((s.stored? x).getD s.spaceDomain).Discrete := by
        cases hstored : s.stored? x with
        | none => exact s.discrete_spaceDomain
        | some d => exact hs.domains x d hstored
      obtain ⟨_, -, h⟩ := bind_eq_ok.mp h
      cases h
      exact hd

/-- Giving a term a value that it may take leaves it known. -/
theorem leavesFrom_eq_candidate {a : Term} {values : List Value} {v : Value} (hs : s.Discrete)
    (h : s.candidates a = .ok values) (hv : v ∈ values) :
    (eq a (.val v)).LeavesFrom s fun t => ∃ w, t.walk a = .val w := by
  rcases candidates_discrete hs h with ⟨w, hw, rfl⟩ | ⟨⟨x, rfl⟩, hdiscrete⟩
  · -- The value may be a floating-point number of the query, and is only compared with itself.
    unfold LeavesFrom eq lift
    split
    next t ht =>
      obtain ⟨u, hu, ht⟩ := bind_eq_ok.mp ht
      cases equate_known hw (Substitution.walk_val _ v) hu
      have htightens := propagate_tightens hs ht
      exact Answers.gives_one ⟨htightens, w, htightens.walk_val hw⟩ trivial
    next => exact Answers.gives_done trivial
    next => exact Answers.gives_raise trivial
  · have hval : (Term.val v).Discrete := hdiscrete v hv
    refine (leaves_eq (a := .var x) trivial hval s hs rfl).mono fun t _ hmatches => ?_
    obtain ⟨w, hw, -⟩ := hmatches.value
    exact ⟨w, hw⟩

/-- Labelled terms are known. -/
theorem leaves_label (terms : List Term) :
    (label terms).Leaves space fun t => ∀ a ∈ terms, ∃ v, t.walk a = .val v := by
  induction terms with
  | nil => exact leaves_succeed.mono fun _ _ _ => nofun
  | cons a rest ih =>
      intro s hs hspace
      unfold LeavesFrom label
      split
      next values hvalues =>
        have htried : (Answers.ofList values).Gives (fun _ => True) (· ∈ values) _ :=
          Answers.gives_ofList fun v hv => hv
        refine (htried.bind (R := fun _ _ => True) fun v hv => ?_).mono fun _ _ => trivial
        refine ((leavesFrom_eq_candidate hs hvalues hv).bind (k := label rest)
          (R := fun _ _ => True) fun t ⟨ht, hknown⟩ => ?_).mono fun _ _ => trivial
        refine (ih t ht.discrete (ht.space.trans hspace)).imp fun u ⟨hu, hrest⟩ => ?_
        exact ⟨hu.trans ht, List.forall_mem_cons.mpr ⟨enduring_known a t u hu hknown, hrest⟩⟩
      next => exact Answers.gives_raise trivial

end Goal

/-! ## Relations -/

namespace Relation

open Goal

variable {space : PitchSpace} {s : State} {c octave pitch d a b : Term} {n : Int}

theorem confines_interval {r : Role} {lowest highest : Int}
    (h : ∀ n, lowest ≤ n ∧ n ≤ highest → r.Ranges space n) :
    ∀ v ∈ (Domain.interval lowest highest).values, r.Confines space v := by
  intro v hv
  obtain ⟨n, hn, rfl⟩ := List.mem_map.mp hv
  exact ⟨n, rfl, h n (mem_run.mp hn)⟩

/-- The terms are within the pitches of the space. -/
theorem leaves_withinSpace (hspace : s.space = space) (ha : a.Discrete) (hb : b.Discrete) :
    (withinSpace s [a, b]).Leaves space fun t =>
      t.Within (Role.pitch.Confines space) a ∧ t.Within (Role.pitch.Confines space) b := by
  have hmem : ∀ v ∈ s.spaceDomain.values, Role.pitch.Confines space v := by
    rw [State.spaceDomain, hspace]
    exact confines_interval fun _ h => h
  have hlasting := Role.lasting_confines .pitch space
  have hall := leaves_conjoin_map (P := fun p t => t.Within (Role.pitch.Confines space) p)
    (fun p => enduring_within hlasting p)
    (show ∀ p ∈ [a, b], (Goal.inDomain p (.domain s.spaceDomain)).Leaves space _ from fun p hp =>
      leaves_inDomain_within ?_ s.discrete_spaceDomain hlasting hmem)
  · exact hall.mono fun t _ ht => ⟨ht a (by simp), ht b (by simp)⟩
  · simp only [List.mem_cons, List.not_mem_nil, or_false] at hp
    rcases hp with rfl | rfl
    · exact ha
    · exact hb

/-- The term is within the distances of the space. -/
theorem leaves_isDistance (hspace : s.space = space) (hd : d.Discrete) {least : Int}
    (hleast : 0 ≤ least) :
    (isDistance s least d).Leaves space (·.Within (Role.distance.Confines space) d) := by
  refine leaves_inDomain_within hd (Domain.discrete_interval _ _)
    (Role.lasting_confines .distance space) ?_
  rw [hspace]
  exact confines_interval fun n h => ⟨by omega, h.2⟩

/-- The arguments of a relation of distances are confined. -/
def Confined (space : PitchSpace) (d a b : Term) (t : State) : Prop :=
  t.Within (Role.distance.Confines space) d ∧ t.Within (Role.pitch.Confines space) a ∧
    t.Within (Role.pitch.Confines space) b

/-- Two pitches stay within the space. -/
theorem enduring_pitches : Enduring fun t => t.Within (Role.pitch.Confines space) a ∧
    t.Within (Role.pitch.Confines space) b :=
  (enduring_within (Role.lasting_confines .pitch space) a).and
    (enduring_within (Role.lasting_confines .pitch space) b)

theorem enduring_confined : Enduring (Confined space d a b) :=
  (enduring_within (Role.lasting_confines .distance space) d).and enduring_pitches

/-- Whatever comes after them, the first two parts of a relation of distances confine its
arguments. -/
theorem leaves_confined {g : Goal} (hspace : s.space = space) (hd : d.Discrete) (ha : a.Discrete)
    (hb : b.Discrete) (hg : g.Leaves space fun _ => True) :
    (Goal.conjoin [withinSpace s [a, b], isDistance s 0 d, g]).Leaves space
      (Confined space d a b) := by
  have hlast : (Goal.conjoin [g]).Leaves space fun _ => True := hg
  have hdistance := leaves_conjoin_cons (enduring_within (Role.lasting_confines .distance space) d)
    (leaves_isDistance hspace hd (Int.le_refl 0)) hlast
  exact (leaves_conjoin_cons enduring_pitches (leaves_withinSpace hspace ha hb) hdistance).mono
    fun t _ ht => ⟨ht.2.1, ht.1⟩

theorem leaves_above (hd : d.Discrete) (ha : a.Discrete) (hb : b.Discrete) :
    (above d a b).Leaves space (Confined space d a b) := by
  refine leaves_project fun s g hs hspace hg => ?_
  cases hg
  exact leaves_confined hspace hd ha hb (leaves_difference hb ha hd) s hs hspace

theorem leaves_interval (hd : d.Discrete) (ha : a.Discrete) (hb : b.Discrete) :
    (interval d a b).Leaves space (Confined space d a b) := by
  refine leaves_project fun s g hs hspace hg => ?_
  cases hg
  refine leaves_confined hspace hd ha hb (leaves_disjoin ?_) s hs hspace
  have hturned : (Goal.conjoin [isDistance s 1 d, Goal.difference b a d]).Leaves space
      fun _ => True := leaves_conjoin (List.forall_mem_cons.mpr
    ⟨(leaves_isDistance hspace hd (by decide)).mono fun _ _ _ => trivial,
      List.forall_mem_singleton.mpr (leaves_difference hb ha hd)⟩)
  exact List.forall_mem_cons.mpr ⟨leaves_difference ha hb hd, List.forall_mem_singleton.mpr hturned⟩

/-! ### Chords -/

/-- All of the terms are within the pitches of the space. -/
def AllPitches (space : PitchSpace) (ts : List Term) (t : State) : Prop :=
  ∀ a ∈ ts, t.Within (Role.pitch.Confines space) a

/-- The voices of a voicing are confined, and so is the root, which is one of them. -/
theorem leaves_voiced {root low middle high : Term} {v : Voicing} (hv : v.Close)
    (hroot : root.Discrete) (hlow : low.Discrete) (hmiddle : middle.Discrete)
    (hhigh : high.Discrete) :
    (voiced root low middle high v).Leaves space
      (AllPitches space [root, low, middle, high]) := by
  obtain ⟨⟨m, hm, -⟩, ⟨k, hk, -⟩⟩ := hv
  have hvoice : (voice low middle high v.rootVoice).Discrete ∧
      voice low middle high v.rootVoice ∈ [low, middle, high] := by
    unfold voice
    split
    · exact ⟨hlow, by simp⟩
    · exact ⟨hmiddle, by simp⟩
    · exact ⟨hhigh, by simp⟩
  have hfirst : (above (.val v.middle) low middle).Leaves space _ :=
    leaves_above (by rw [hm]; exact Term.discrete_int m) hlow hmiddle
  have hsecond : (above (.val v.high) low high).Leaves space _ :=
    leaves_above (by rw [hk]; exact Term.discrete_int k) hlow hhigh
  have hthird : (Goal.conjoin [.eq root (voice low middle high v.rootVoice)]).Leaves space _ :=
    leaves_eq hroot hvoice.1
  refine (leaves_conjoin_cons enduring_confined hfirst
    (leaves_conjoin_cons enduring_confined hsecond hthird)).mono fun t _ ht => ?_
  obtain ⟨⟨-, hlow, hmiddle⟩, ⟨-, -, hhigh⟩, hmatches⟩ := ht
  have hvoices : AllPitches space [low, middle, high] t := by
    simp only [AllPitches, List.forall_mem_cons]
    exact ⟨hlow, hmiddle, hhigh, List.forall_mem_nil _⟩
  have hroot := hmatches.within (Role.lasting_confines .pitch space) (hvoices _ hvoice.2)
  exact List.forall_mem_cons.mpr ⟨hroot, hvoices⟩

theorem leaves_chord {name : String} {q : ChordQuality} {root low middle high : Term} {g : Goal}
    (hq : ChordQuality.ofName? name = some q) (hroot : root.Discrete) (hlow : low.Discrete)
    (hmiddle : middle.Discrete) (hhigh : high.Discrete)
    (hg : chord q root low middle high = .ok g) :
    g.Leaves space (AllPitches space [root, low, middle, high]) := by
  obtain ⟨vs, hvs, hclose⟩ := ChordQuality.named_close hq
  rw [chord, hvs] at hg
  cases hg
  refine leaves_disjoin (List.forall_mem_map.mpr fun v hv => ?_)
  exact leaves_voiced (hclose v hv) hroot hlow hmiddle hhigh

/-! ### Notes -/

/-- The class, the octave and the pitch are known, and name a pitch of the space. -/
def NamesPitch (space : PitchSpace) (c octave pitch : Term) (t : State) : Prop :=
  ∃ j o n, t.Reads .pitchClass c j ∧ t.Reads .octave octave o ∧ t.Reads .pitch pitch n ∧
    n = j + 12 * (o + 1) ∧ Role.pitch.Ranges space n

theorem enduring_namesPitch : Enduring (NamesPitch space c octave pitch) :=
  fun _ _ h ⟨j, o, n, hj, ho, hn, hrest⟩ => ⟨j, o, n, h.reads hj, h.reads ho, h.reads hn, hrest⟩

/-- A class and an octave that match the values of a place name its pitch. -/
theorem namesPitch_of_matches {t : State} {v w : Value} {j : PitchClass} {o : Int}
    (hv : PitchClass.ofValue v = .ok j) (ho : w.whole? = some o) (hc : t.Matches c (.val v))
    (hoctave : t.Matches octave (.val w)) (hpitch : t.Reads .pitch pitch n)
    (hn : n = place (j, o)) (hin : space.lowest ≤ n ∧ n ≤ space.highest) :
    NamesPitch space c octave pitch t := by
  obtain ⟨v', hv', hclass⟩ := hc.value
  obtain ⟨w', hw', halike⟩ := hoctave.value
  exact ⟨j.toInt, o, n, ⟨v', hv', Role.number?_class hv hclass⟩,
    ⟨w', hw', Role.number?_whole (halike.1.trans ho)⟩, hpitch, hn, hin⟩

/-- The terms that a note is solved with are the same as its arguments. -/
theorem NamesPitch.of_walked {t : State} (hs : s.Discrete) (h : t.Tightens s)
    (hnames : NamesPitch space (s.walk c) (s.walk octave) pitch t) :
    NamesPitch space c octave pitch t := by
  obtain ⟨j, o, n, hj, ho, hrest⟩ := hnames
  simp only [State.Reads, h.walk_walk hs] at hj ho
  exact ⟨j, o, n, hj, ho, hrest⟩

theorem leaves_placedAt {v w : Value} {j : PitchClass} (hc : c.Discrete) (ho : octave.Discrete)
    (hp : pitch.Discrete) (hv : v.Discrete) (hw : w.Discrete)
    (hclass : PitchClass.ofValue v = .ok j) (hn : space.absolute j w = .ok n) :
    (placedAt c octave pitch v w n).Leaves space (NamesPitch space c octave pitch) := by
  obtain ⟨o, hwhole, hplace, hin⟩ := absolute_eq_ok hw hn
  have hthird : (Goal.conjoin [.eq pitch (.int n)]).Leaves space _ :=
    leaves_eq hp (Term.discrete_int n)
  refine (leaves_conjoin_cons (enduring_matches _ _) (leaves_eq hc (b := .val v) hv)
    (leaves_conjoin_cons (enduring_matches _ _) (leaves_eq ho (b := .val w) hw) hthird)).mono
      fun t _ ⟨hc, hoctave, hpitch⟩ => ?_
  obtain ⟨p, hp, halike⟩ := hpitch.value
  have hreads : t.Reads .pitch pitch n := ⟨p, hp, Role.number?_whole halike.1⟩
  exact namesPitch_of_matches hclass hwhole hc hoctave hreads hplace hin

theorem mem_placements {pairs : List (Value × Value)} {gs : List Goal} {g : Goal}
    (h : placements space c octave pitch pairs = .ok gs) (hg : g ∈ gs) :
    ∃ q ∈ pairs, ∃ j n, PitchClass.ofValue q.1 = .ok j ∧ space.absolute j q.2 = .ok n ∧
      g = placedAt c octave pitch q.1 q.2 n := by
  induction pairs generalizing gs with
  | nil =>
      cases h
      cases hg
  | cons q rest ih =>
      have hlater : ∀ {hs : List Goal}, placements space c octave pitch rest = .ok hs → g ∈ hs →
          ∃ q' ∈ q :: rest, ∃ j n, PitchClass.ofValue q'.1 = .ok j ∧
            space.absolute j q'.2 = .ok n ∧ g = placedAt c octave pitch q'.1 q'.2 n := by
        intro hs hhs hmem
        obtain ⟨q', hq', hrest⟩ := ih hhs hmem
        exact ⟨q', List.mem_cons_of_mem _ hq', hrest⟩
      obtain ⟨j, hj, h⟩ := bind_eq_ok.mp h
      split at h
      next n hn =>
        obtain ⟨hs, hhs, h⟩ := bind_eq_ok.mp h
        cases h
        rcases List.mem_cons.mp hg with rfl | hg
        · exact ⟨q, List.mem_cons_self .., j, n, hj, hn, rfl⟩
        · exact hlater hhs hg
      next => exact hlater h hg
      next => cases h

theorem noteCandidates_discrete {pairs : List (Value × Value)} (hc : c.Discrete)
    (ho : octave.Discrete) (h : noteCandidates s c octave pitch = .ok pairs) :
    ∀ q ∈ pairs, q.1.Discrete ∧ q.2.Discrete := by
  have hint : ∀ n : Int, (Value.int n).Discrete := fun _ => nofun
  have hclass : ∀ j : PitchClass, (Value.pitchClass j).Discrete := fun _ => nofun
  unfold noteCandidates at h
  split at h
  · cases h
    exact List.forall_mem_singleton.mpr ⟨hc, ho⟩
  · cases h
    exact List.forall_mem_map.mpr fun o _ => ⟨hc, hint o⟩
  · cases h
    exact List.forall_mem_map.mpr fun j _ => ⟨hclass j, ho⟩
  · obtain ⟨values, -, h⟩ := bind_eq_ok.mp h
    intro q hq
    obtain ⟨v, -, hv⟩ := Domain.exists_of_mapM h hq
    obtain ⟨⟨j, o⟩, -, hv⟩ := bind_eq_ok.mp hv
    cases hv
    exact ⟨hclass j, hint o⟩

/-- The note relation leaves its arguments known, and they name a pitch of the space. -/
theorem leaves_note (hc : c.Discrete) (ho : octave.Discrete) (hp : pitch.Discrete) :
    (note c octave pitch).Leaves space (NamesPitch space c octave pitch) := by
  refine leaves_project fun s g hs hspace hg => ?_
  have hwc := hs.walks c hc
  have hwo := hs.walks octave ho
  unfold noteIn at hg
  split at hg
  next p hpitch =>
    split at hg
    next j o hdescribe =>
      cases hg
      rw [hspace] at hdescribe
      obtain ⟨n, hn, hin, heq⟩ := describe_eq_ok hdescribe
      cases heq
      have hsecond : (Goal.conjoin [.eq (s.walk octave) (.int (octaveOf n))]).Leaves space _ :=
        leaves_eq hwo (Term.discrete_int _)
      refine (leaves_conjoin_cons (enduring_matches _ _)
        (leaves_eq hwc (b := .val (.pitchClass (.ofInt n))) nofun) hsecond s hs hspace).mono
          fun t ht ⟨hclass, hoctave⟩ => NamesPitch.of_walked hs ht ?_
      have hreads : t.Reads .pitch pitch n := ⟨p, ht.walk_val hpitch, Role.number?_whole hn⟩
      exact namesPitch_of_matches rfl rfl hclass hoctave hreads (place_ofInt n).symm hin
    next =>
      cases hg
      exact leaves_fail s hs hspace
    next => cases hg
  next hpitch =>
    obtain ⟨pairs, hpairs, hg⟩ := bind_eq_ok.mp hg
    obtain ⟨gs, hgs, hg⟩ := bind_eq_ok.mp hg
    cases hg
    refine leavesFrom_disjoin fun g hg => ?_
    obtain ⟨q, hq, j, n, hj, hn, rfl⟩ := mem_placements hgs hg
    obtain ⟨hv, hw⟩ := noteCandidates_discrete hwc hwo hpairs q hq
    rw [hspace] at hn
    refine (leaves_placedAt hwc hwo (hs.walks pitch hp) hv hw hj hn s hs hspace).mono
      fun t ht hnames => NamesPitch.of_walked hs ht ?_
    obtain ⟨j', o, m, hj', ho', hm, hrest⟩ := hnames
    simp only [State.Reads, ht.walk_walk hs] at hm
    exact ⟨j', o, m, hj', ho', hm, hrest⟩

end Relation

end Consonance
