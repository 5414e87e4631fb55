import Consonance.Proofs.Discrete
import Consonance.Proofs.Network
import Consonance.Proofs.Rows

/-!
# The table of the notes of a space

A class, an octave and a pitch are related in one way only, whichever of them are given: a query
for the three lists the pitches of the space in ascending order, each with its class and octave,
and keeps the rows that agree with what is given (`Formula.run_note`).

The relation is asked with nothing known but its arguments.  So the states of its search are
*bare*: they have bindings, and neither domains nor differences (`State.Bare`).  There an equation
with a value binds an open term, changes nothing at a term with the value, and is a dead end at
any other.  Each way to solve the relation tries a list of places, which ascend and leave out no
note that agrees with what is given (`Sweep`).
-/

namespace Consonance

open PitchSpace Setting

namespace State

variable {s : State} {u : Term} {v w : Value} {x : Var}

/-- Nothing is known but bindings. -/
structure Bare (s : State) : Prop where
  domains : s.domains = []
  differences : s.differences = []

theorem bare_empty (space : PitchSpace) : (empty space).Bare := ⟨rfl, rfl⟩

theorem Bare.addBinding (hs : s.Bare) (x : Var) (t : Term) : (s.addBinding x t).Bare :=
  ⟨hs.domains, hs.differences⟩

theorem Bare.propagate (hs : s.Bare) : s.propagate = .ok s :=
  propagate_of_open (by rw [hs.differences]; nofun)

theorem Bare.stored? (hs : s.Bare) (x : Var) : s.stored? x = none := by
  rw [State.stored?, hs.domains]
  rfl

/-- An open term is bound to the value. -/
theorem Bare.eq_open (hs : s.Bare) (hu : s.walk u = .var x) (v : Value) :
    Goal.eq u (.val v) s = .one (s.addBinding x (.val v)) := by
  have hv : s.walk (.val v) = .val v := Substitution.walk_val _ v
  have hequate : s.equate u (.val v) = .ok (s.addBinding x (.val v)) := by
    simp only [equate, hu, hv, Substitution.binding?]
    show s.bindValue x v = _
    simp only [bindValue, hs.stored?]
    rfl
  show Goal.lift (fun s => s.bind u (.val v)) s = _
  refine Goal.lift_of_ok ?_
  rw [bind, hequate]
  exact (hs.addBinding x (.val v)).propagate

theorem Bare.eq_known (hs : s.Bare) (hu : s.walk u = .val w) (hsame : w.same v = true) :
    Goal.eq u (.val v) s = .one s := by
  have hv : s.walk (.val v) = .val v := Substitution.walk_val _ v
  have hequate : s.equate u (.val v) = .ok s := by
    simp only [equate, hu, hv, Substitution.binding?, hsame]
    rfl
  show Goal.lift (fun s => s.bind u (.val v)) s = _
  refine Goal.lift_of_ok ?_
  rw [bind, hequate]
  exact hs.propagate

/-- A term that has another value is a dead end, which is worded if both values can be shown. -/
theorem eq_clash (hu : s.walk u = .val w) (hsame : w.same v = false)
    (hw : w.quotedFault? = none) (hv : v.quotedFault? = none) :
    Goal.eq u (.val v) s = .done := by
  have hwalk : s.walk (.val v) = .val v := Substitution.walk_val _ v
  have hworded : (Failure.deadEnd (.differentValues w v)).worded =
      .deadEnd (.differentValues w v) := by
    simp [Failure.worded, Failure.shown, DeadEnd.shown, Shown.fault?, hw, hv]
  have hequate : s.equate u (.val v) = .error (.deadEnd (.differentValues w v)) := by
    simp only [equate, hu, hwalk, Substitution.binding?, hsame]
    show (Failure.raise (.deadEnd (.differentValues w v)) >>= fun r => _) = _
    rw [Failure.raise, hworded]
    rfl
  rw [Goal.eq, Goal.lift, bind, hequate]
  rfl

/-- The terms have values, and equations with these change nothing. -/
def Fixes (s : State) (ts : List Term) : Prop :=
  s.Bare ∧ ∀ t ∈ ts, ∃ v, s.walk t = .val v ∧ v.same v = true

/-- Labelling known terms changes nothing. -/
theorem Fixes.label {ts : List Term} (hs : s.Fixes ts) : Goal.label ts s = .one s := by
  obtain ⟨hbare, hts⟩ := hs
  induction ts with
  | nil => rfl
  | cons t ts ih =>
      obtain ⟨⟨v, hv, hsame⟩, hrest⟩ := List.forall_mem_cons.mp hts
      have hcandidates : s.candidates t = .ok [v] := by simp only [candidates, hv]
      simp only [Goal.label, hcandidates]
      show (Answers.one v).bind (fun v => Goal.both (.eq t (.val v)) (Goal.label ts) s) = _
      rw [Answers.one_bind, Goal.both, hbare.eq_known hv hsame, Answers.one_bind, ih hrest]

end State

/-! ## Tables -/

/-- The goal is worked out to the rows of known terms, one after the other. -/
def Goal.Tabulates (g : Goal) (s : State) (query : List Term) (rows : List Row) : Prop :=
  (g s).Gives (fun _ => False) (fun t => t.Fixes query) fun ts =>
    (ts.map fun t => query.map t.walk) = rows

namespace Goal

variable {g : Goal} {gs : List Goal} {s t : State} {query : List Term} {rows rows' : List Row}

theorem tabulates_of_done (h : g s = .done) : g.Tabulates s query [] := by
  rw [Tabulates, h]
  exact Answers.gives_done rfl

theorem tabulates_of_one (h : g s = .one t) (ht : t.Fixes query) :
    g.Tabulates s query [query.map t.walk] := by
  rw [Tabulates, h]
  exact Answers.gives_one ht rfl

theorem tabulates_disjoin_cons (hg : g.Tabulates s query rows)
    (hgs : (disjoin gs).Tabulates s query rows') :
    (disjoin (g :: gs)).Tabulates s query (rows ++ rows') := by
  have hboth : ((g s).append fun _ => disjoin gs s).Gives _ _ _ := Answers.Gives.append hg hgs
  refine hboth.mono fun l hl => ?_
  obtain ⟨ts, us, rfl, rfl, rfl⟩ := hl
  exact List.map_append

theorem tabulates_disjoin_map {α : Type} {as : List α} {goal : α → Goal} {row : α → Row}
    (h : ∀ a ∈ as, (goal a).Tabulates s query [row a]) :
    (disjoin (as.map goal)).Tabulates s query (as.map row) := by
  induction as with
  | nil => exact tabulates_of_done rfl
  | cons a as ih =>
      obtain ⟨ha, has⟩ := List.forall_mem_cons.mp h
      exact tabulates_disjoin_cons ha (ih has)

theorem flatten_of_singletons {α : Type} {as : List α} {ls : List (List α)}
    (h : List.Forall₂ (fun a l => l = [a]) as ls) : ls.flatten = as := by
  induction h with
  | nil => rfl
  | cons hl _ ih => rw [hl, List.flatten_cons, ih, List.singleton_append]

/-- Labelling terms that the goal makes known changes nothing. -/
theorem Tabulates.label {ts : List Term} (h : g.Tabulates s query rows) (hts : ts ⊆ query) :
    (conjoin [g, label ts]).Tabulates s query rows := by
  rw [Tabulates, conjoin_cons]
  refine (Answers.Gives.bind (k := conjoin [Goal.label ts]) (R := fun t l => l = [t]) h
    fun t ht => ?_).mono fun l hl => ?_
  · have hfixes : t.Fixes ts := ⟨ht.1, fun u hu => ht.2 u (hts hu)⟩
    show (Goal.label ts t).Gives _ _ _
    rw [hfixes.label]
    exact Answers.gives_one ht rfl
  · obtain ⟨us, ls, hus, hls, rfl⟩ := hl
    rw [flatten_of_singletons hls]
    exact hus

/-- A query for terms that a goal makes known gives the rows. -/
theorem Tabulates.run {space : PitchSpace} (h : g.Tabulates (.empty space) query rows) :
    Consonance.run g query .nothing space = .ok rows := by
  have hsearch := h.label (List.Subset.refl query)
  show ((conjoin [g, Goal.label query] (.empty space)).map fun t => query.map t.walk).all = _
  rcases (hsearch.map (f := fun t => query.map t.walk)).all with
    ⟨⟨ts, hts, hitems⟩, hok⟩ | ⟨f, hbad, -⟩
  · rw [hok, hitems, hts]
  · exact hbad.elim

end Goal

/-! ## Class arguments -/

namespace Term

/-- The term is a variable, a class or a name of a class. -/
def NamesClass : Term → Prop
  | .var _ => True
  | .val v => ∃ j, PitchClass.ofValue v = .ok j

/-- Whether a class argument may be a class.  A name stands for its class. -/
def allowsClass : Term → PitchClass → Bool
  | .var _, _ => true
  | .val v, j =>
    match PitchClass.ofValue v with
    | .ok k => k == j
    | .error _ => false

/-- A class argument as a row shows it: a name is shown as it was given. -/
def orClass : Term → PitchClass → Term
  | .var _, j => .val (.pitchClass j)
  | .val v, _ => .val v

/-- The class argument that a goal is made with. -/
theorem NamesClass.build {c : Term} (hc : c.NamesClass) :
    ∃ c', Builder.pitchClass c = pure c' ∧ (∀ x, c' = .var x ↔ c = .var x) ∧
      (∀ v, c' = .val v → ∃ j, v = .pitchClass j ∧ ∀ k, c.allowsClass k = (j == k)) := by
  cases c with
  | var x => exact ⟨.var x, rfl, fun y => Iff.rfl, nofun⟩
  | val v =>
      obtain ⟨j, hj⟩ := hc
      refine ⟨.val (.pitchClass j), ?_, fun x => by simp, ?_⟩
      · cases v with
        | pitchClass k =>
            cases hj
            rfl
        | text s =>
            simp only [Builder.pitchClass, hj]
            rfl
        | _ => cases hj
      · rintro w hw
        cases hw
        exact ⟨j, rfl, fun k => by simp only [allowsClass, hj]⟩

/-- A constant that agrees with an integer is that integer. -/
theorem given_of_agrees {t : Term} (ht : t.Over fun _ => True) {n : Int}
    (hn : t.agrees n = true) : (∃ x, t = .var x) ∨ t = .int n := by
  cases t with
  | var x => exact .inl ⟨x, rfl⟩
  | val v =>
      obtain ⟨m, rfl, -⟩ := ht
      exact .inr (congrArg Term.int (Option.some.inj (beq_iff_eq.mp hn)))

theorem NamesClass.same_self {v : Value} (hv : (Term.val v).NamesClass) : v.same v = true := by
  obtain ⟨j, hj⟩ := hv
  cases v with
  | pitchClass k => simp [Value.same_pitchClass]
  | text s => simp [Value.same, Value.sameUndefined, Value.equal, Value.equalAtoms]
  | _ => cases hj

end Term

/-! ## Rows of notes -/

/-- The row of a pitch: its class, its octave and the pitch. -/
def noteRow (c : Term) (pitch : Int) : Row :=
  [c.orClass (.ofInt pitch), .int (octaveOf pitch), .int pitch]

/-- Whether the arguments of a note may be those of a pitch. -/
def noteAgrees (c octave pitch : Term) (n : Int) : Bool :=
  c.allowsClass (.ofInt n) && octave.agrees (octaveOf n) && pitch.agrees n

/-- The rows of the pitches of a space that agree with the arguments. -/
def noteRows (space : PitchSpace) (c octave pitch : Term) : List Row :=
  (space.pitches.filter (noteAgrees c octave pitch)).map (noteRow c)

/-- The integers that a search for a note may have to write: the ends of the space, its octaves,
the constants, and the place of each class in one of the octaves. -/
def NoteWrites (space : PitchSpace) (octave pitch : Term) (n : Int) : Prop :=
  n = space.lowest ∨ n = space.highest ∨ n ∈ space.octaves ∨ octave = .int n ∨ pitch = .int n ∨
    ∃ q : PitchClass × Int, (q.2 ∈ space.octaves ∨ octave = .int q.2) ∧ n = place q

/-- The arguments of a note that are given are names of classes and integers, and the others are
distinct variables. -/
structure NoteTerms (c octave pitch : Term) : Prop where
  named : c.NamesClass
  octave_over : octave.Over fun _ => True
  pitch_over : pitch.Over fun _ => True
  distinct : Term.Distinct [c, octave, pitch]

/-- A query for a note, and the class argument that its goal is made with. -/
structure NoteArguments (c c' octave pitch : Term) : Prop extends NoteTerms c octave pitch where
  same_var : ∀ x, c' = .var x ↔ c = .var x
  known : ∀ v, c' = .val v → ∃ j, v = .pitchClass j ∧ ∀ k, c.allowsClass k = (j == k)

namespace NoteArguments

variable {c c' octave pitch : Term} {space : PitchSpace} {s t : State} {j : PitchClass} {k n : Int}

/-- No two of the terms of the goal are the same variable. -/
theorem apart (h : NoteArguments c c' octave pitch) (x : Var) :
    (c' = .var x → octave ≠ .var x ∧ pitch ≠ .var x) ∧ (octave = .var x → pitch ≠ .var x) := by
  have hdistinct := h.distinct
  simp only [Term.Distinct, List.pairwise_cons, List.forall_mem_cons] at hdistinct
  obtain ⟨⟨hoctave, hpitch, -⟩, ⟨hboth, -⟩, -⟩ := hdistinct
  exact ⟨fun hx => ⟨hoctave x ((h.same_var x).mp hx), hpitch x ((h.same_var x).mp hx)⟩, hboth x⟩

/-- A state in which the three terms of the goal are known shows the row of a pitch. -/
theorem fixes (h : NoteArguments c c' octave pitch) (ht : t.Bare)
    (hc : t.walk c' = .val (.pitchClass j)) (ho : t.walk octave = .int k)
    (hp : t.walk pitch = .int n) :
    t.Fixes [c, octave, pitch] ∧
      [c, octave, pitch].map t.walk = [c.orClass j, .int k, .int n] := by
  have hclass : t.walk c = c.orClass j ∧ ∃ v, t.walk c = .val v ∧ v.same v = true := by
    cases hcase : c with
    | var x =>
        rw [← (h.same_var x).mpr hcase, hc]
        refine ⟨?_, _, rfl, by simp [Value.same_pitchClass]⟩
        rw [(h.same_var x).mpr hcase]
        rfl
    | val v =>
        have hwalk : t.walk (.val v) = .val v := Substitution.walk_val _ v
        exact ⟨hwalk, v, hwalk, (hcase ▸ h.named).same_self⟩
  refine ⟨⟨ht, ?_⟩, ?_⟩
  · simp only [List.forall_mem_cons]
    exact ⟨hclass.2, ⟨_, ho, by simp⟩, ⟨_, hp, by simp⟩, List.forall_mem_nil _⟩
  · simp only [List.map_cons, List.map_nil, hclass.1, ho, hp]

end NoteArguments

/-! ## Trying places -/

namespace State

variable {s : State} {u : Term} {v : Value}

/-- A term that is open or has the value gets it, and the terms that do not stand for the same
variable stay as they are. -/
theorem Bare.eq_gives (hs : s.Bare) (hv : v.Discrete) (hsame : v.same v = true)
    (hu : (∃ x, s.walk u = .var x) ∨ s.walk u = .val v) :
    ∃ t, Goal.eq u (.val v) s = .one t ∧ t.Bare ∧ t.walk u = .val v ∧
      ∀ a, (∀ x, s.walk u = .var x → s.walk a ≠ .var x) → t.walk a = s.walk a := by
  rcases hu with ⟨x, hu⟩ | hu
  · refine ⟨_, hs.eq_open hu v, hs.addBinding x _, walk_addBinding_discrete hv hu, fun a ha => ?_⟩
    exact walk_addBinding_other hv (ha x hu)
  · exact ⟨s, hs.eq_known hu hsame, hs, hu, fun _ _ => rfl⟩

/-- Equations that give each term the value that it has or a value that it is open for hold in one
way, and leave each term with its value. -/
theorem Bare.conjoin_gives {ps : List (Term × Value)} (hs : s.Bare)
    (hvalues : ∀ p ∈ ps, p.2.Discrete ∧ p.2.same p.2 = true)
    (hopen : ∀ p ∈ ps, (∃ x, s.walk p.1 = .var x) ∨ s.walk p.1 = .val p.2)
    (hapart : ps.Pairwise fun p q => ∀ x, s.walk p.1 = .var x → s.walk q.1 ≠ .var x) :
    ∃ t, Goal.conjoin (ps.map fun p => .eq p.1 (.val p.2)) s = .one t ∧ t.Bare ∧
      (∀ p ∈ ps, t.walk p.1 = .val p.2) ∧ ∀ a v, s.walk a = .val v → t.walk a = .val v := by
  induction ps generalizing s with
  | nil => exact ⟨s, rfl, hs, nofun, fun _ _ h => h⟩
  | cons p ps ih =>
      obtain ⟨⟨hdiscrete, hsame⟩, hvalues⟩ := List.forall_mem_cons.mp hvalues
      obtain ⟨hfirst, hopen⟩ := List.forall_mem_cons.mp hopen
      obtain ⟨hapart, haparts⟩ := List.pairwise_cons.mp hapart
      obtain ⟨r, hgoal, hr, hvalue, hkeep⟩ := hs.eq_gives hdiscrete hsame hfirst
      have hsteady : ∀ q ∈ ps, r.walk q.1 = s.walk q.1 := fun q hq => hkeep q.1 (hapart q hq)
      have hknown : ∀ a v, s.walk a = .val v → r.walk a = .val v := fun a v ha =>
        (hkeep a fun x _ hx => nomatch ha.symm.trans hx).trans ha
      obtain ⟨t, hgoals, ht, hwalks, hlater⟩ := ih hr hvalues
        (fun q hq => hsteady q hq ▸ hopen q hq)
        (haparts.imp_of_mem fun hp hq h => by rwa [hsteady _ hp, hsteady _ hq])
      refine ⟨t, ?_, ht, List.forall_mem_cons.mpr ⟨hlater _ _ hvalue, hwalks⟩,
        fun a v ha => hlater a v (hknown a v ha)⟩
      rw [List.map_cons, Goal.conjoin_cons, hgoal, Answers.one_bind, hgoals]

end State

namespace NoteArguments

variable {c c' octave pitch : Term} {space : PitchSpace} {j : PitchClass} {k n : Int}

theorem class_given (h : NoteArguments c c' octave pitch) (hj : c.allowsClass j = true) :
    (∃ x, c' = .var x) ∨ c' = .val (.pitchClass j) := by
  cases hc : c' with
  | var x => exact .inl ⟨x, rfl⟩
  | val v =>
      obtain ⟨i, rfl, hi⟩ := h.known v hc
      rw [hi j, beq_iff_eq] at hj
      exact .inr (by rw [hj])

theorem same_class (j : PitchClass) : Value.same (.pitchClass j) (.pitchClass j) = true := by
  simp [Value.same_pitchClass]

/-- A class that agrees with the query makes the class known, and nothing else. -/
theorem class_known (h : NoteArguments c c' octave pitch) (space : PitchSpace)
    (hj : c.allowsClass j = true) :
    ∃ t, Goal.eq c' (.val (.pitchClass j)) (.empty space) = .one t ∧ t.Bare ∧
      t.walk c' = .val (.pitchClass j) ∧ t.walk octave = octave ∧ t.walk pitch = pitch := by
  obtain ⟨t, hgoal, hbare, hwalk, hkeep⟩ := (State.bare_empty space).eq_gives
    (v := .pitchClass j) nofun (same_class j) (h.class_given hj)
  exact ⟨t, hgoal, hbare, hwalk, hkeep _ fun x hx => ((h.apart x).1 hx).1,
    hkeep _ fun x hx => ((h.apart x).1 hx).2⟩

/-- Trying a place that agrees with an open note gives its row. -/
theorem placedAt_tabulates (h : NoteArguments c c' octave pitch)
    (hj : c.allowsClass j = true) (hk : octave.agrees k = true) (hn : pitch.agrees n = true) :
    (Relation.placedAt c' octave pitch (.pitchClass j) (.int k) n).Tabulates (.empty space)
      [c, octave, pitch] [[c.orClass j, .int k, .int n]] := by
  let ps : List (Term × Value) := [(c', .pitchClass j), (octave, .int k), (pitch, .int n)]
  have hvalues : ∀ p ∈ ps, p.2.Discrete ∧ p.2.same p.2 = true := by
    simp [ps, Value.Discrete, same_class]
  have hopen : ∀ p ∈ ps, (∃ x, p.1 = .var x) ∨ p.1 = .val p.2 := by
    simp only [ps, List.forall_mem_cons]
    exact ⟨h.class_given hj, Term.given_of_agrees h.octave_over hk,
      Term.given_of_agrees h.pitch_over hn, List.forall_mem_nil _⟩
  have hapart : ps.Pairwise fun p q => ∀ x, p.1 = .var x → q.1 ≠ .var x := by
    simp only [ps, List.pairwise_cons, List.forall_mem_cons]
    exact ⟨⟨fun x hx => ((h.apart x).1 hx).1, fun x hx => ((h.apart x).1 hx).2,
      List.forall_mem_nil _⟩, ⟨fun x => (h.apart x).2, List.forall_mem_nil _⟩,
      List.forall_mem_nil _, .nil⟩
  obtain ⟨t, hgoal, ht, hwalks, -⟩ :=
    (State.bare_empty space).conjoin_gives hvalues hopen hapart
  simp only [ps, List.forall_mem_cons] at hwalks
  obtain ⟨hclass, hoctave, hpitch, -⟩ := hwalks
  obtain ⟨hfixes, hrow⟩ := h.fixes ht hclass hoctave hpitch
  exact hrow ▸ Goal.tabulates_of_one hgoal hfixes

end NoteArguments

/-! ## Open pitches -/

/-- A list of classes and octaves that the relation tries when the pitch is open. -/
structure Sweep (space : PitchSpace) (c c' octave pitch : Term) (ps : List (PitchClass × Int)) :
    Prop where
  candidates : Relation.noteCandidates (.empty space) c' octave pitch = .ok (ps.map asValues)
  /-- Their pitches ascend. -/
  ascending : (ps.map place).Pairwise (· < ·)
  /-- They agree with what is given. -/
  agrees : ∀ q ∈ ps, c.allowsClass q.1 = true ∧ octave.agrees q.2 = true
  /-- No pitch of the space that agrees with what is given is left out. -/
  complete : ∀ q, space.admits (place q) = true → c.allowsClass q.1 = true →
    octave.agrees q.2 = true → q ∈ ps
  octaves : ∀ q ∈ ps, q.2 ∈ space.octaves ∨ octave = .int q.2

namespace NoteArguments

variable {c c' octave pitch : Term} {space : PitchSpace} {v w : Value} {x y z : Var}

/-- Of a given class and octave there is one place. -/
theorem sweep_known (h : NoteArguments c (.val v) (.val w) pitch) :
    ∃ ps, Sweep space c (.val v) (.val w) pitch ps := by
  obtain ⟨j, rfl, hj⟩ := h.known v rfl
  obtain ⟨k, rfl, -⟩ := h.octave_over
  refine ⟨[(j, k)], rfl, List.pairwise_singleton _ _, ?_, fun q _ hq hk => ?_, by simp⟩
  · simp [hj, Term.agrees]
  · rw [hj, beq_iff_eq] at hq
    have hk : k = q.2 := Option.some.inj (beq_iff_eq.mp hk)
    rw [hq, hk, List.mem_singleton]

/-- A given class is tried in every octave of the space. -/
theorem sweep_of_class (h : NoteArguments c (.val v) (.var y) pitch) :
    ∃ ps, Sweep space c (.val v) (.var y) pitch ps := by
  obtain ⟨j, rfl, hj⟩ := h.known v rfl
  refine ⟨space.octaves.map fun k => (j, k), ?_, ?_, ?_, fun q hin hq _ => ?_, ?_⟩
  · rw [List.map_map]
    rfl
  · rw [List.map_map]
    refine List.Pairwise.map _ (fun k m hlt => ?_) (Domain.pairwise_run _ _)
    simp only [Function.comp_apply, place]
    omega
  · simp [hj, Term.agrees]
  · rw [hj, beq_iff_eq] at hq
    refine List.mem_map.mpr ⟨q.2, ?_, by rw [hq]⟩
    exact octaveOf_place q ▸ octaveOf_mem_octaves (admits_iff.mp hin)
  · rintro q hq
    obtain ⟨k, hk, rfl⟩ := List.mem_map.mp hq
    exact .inl hk

theorem allowsClass_of_open (h : NoteArguments c (.var z) octave pitch) (j : PitchClass) :
    c.allowsClass j = true := by
  rw [(h.same_var z).mp rfl]
  rfl

/-- Every class is tried in a given octave. -/
theorem sweep_of_octave (h : NoteArguments c (.var z) (.val w) pitch) :
    ∃ ps, Sweep space c (.var z) (.val w) pitch ps := by
  obtain ⟨k, rfl, -⟩ := h.octave_over
  have hclasses : PitchClass.all.Pairwise fun i j => i.toInt < j.toInt := by decide
  refine ⟨PitchClass.all.map fun j => (j, k), ?_, ?_, ?_, fun q _ _ hk => ?_, by simp⟩
  · rw [List.map_map]
    rfl
  · rw [List.map_map]
    refine List.Pairwise.map _ (fun i j hlt => ?_) hclasses
    simp only [Function.comp_apply, place]
    omega
  · simp [h.allowsClass_of_open, Term.agrees]
  · have hk : k = q.2 := Option.some.inj (beq_iff_eq.mp hk)
    exact List.mem_map.mpr ⟨q.1, q.1.mem_all, by rw [hk]⟩

/-- With nothing given, every pitch of the space is read as a place. -/
theorem sweep_of_space (h : NoteArguments c (.var z) (.var y) (.var x)) :
    ∃ ps, Sweep space c (.var z) (.var y) (.var x) ps := by
  have hspace : ∀ n ∈ space.pitches, space.lowest ≤ n ∧ n ≤ space.highest :=
    fun n => mem_pitches.mp
  refine ⟨space.pitches.map fun n => (.ofInt n, octaveOf n), ?_, ?_, ?_, fun q hin _ _ => ?_, ?_⟩
  · have hvalues := (State.empty space).integral_spaceDomain.toList
    rw [← descriptions_eq hspace]
    show ((State.empty space).spaceDomain.toList >>= Relation.descriptions space) = _
    rw [hvalues]
    rfl
  · rw [List.map_map]
    refine List.Pairwise.map _ (fun n m hlt => ?_) (Domain.pairwise_run _ _)
    rwa [Function.comp_apply, Function.comp_apply, place_ofInt, place_ofInt]
  · simp [h.allowsClass_of_open, Term.agrees]
  · refine List.mem_map.mpr ⟨place q, mem_pitches.mpr (admits_iff.mp hin), ?_⟩
    rw [octaveOf_place, ← PitchClass.ofInt_emod, class_place, PitchClass.ofInt_toInt]
  · rintro q hq
    obtain ⟨n, hn, rfl⟩ := List.mem_map.mp hq
    exact .inl (octaveOf_mem_octaves (hspace n hn))

/-- What is known of the class and the octave decides which places are tried. -/
theorem exists_sweep (h : NoteArguments c c' octave (.var x)) (space : PitchSpace) :
    ∃ ps, Sweep space c c' octave (.var x) ps := by
  cases c' with
  | val v =>
      cases octave with
      | val w => exact h.sweep_known
      | var y => exact h.sweep_of_class
  | var z =>
      cases octave with
      | val w => exact h.sweep_of_octave
      | var y => exact h.sweep_of_space

end NoteArguments

/-- The ends of the space and an integer outside it make a dead end if they can be written. -/
theorem PitchSpace.require_writable {space : PitchSpace} {n : Int}
    (hlow : Number.isWritable space.lowest = true)
    (hhigh : Number.isWritable space.highest = true) (hn : Number.isWritable n = true)
    (hout : space.admits n = false) :
    space.require (.int n) =
      .error (.deadEnd (.outsideSpace (.int n) space.lowest space.highest)) := by
  rw [require_int, if_neg (by simp [hout]), Failure.raise, Failure.worded_of_shown]
  have hover : ∀ m, Number.isWritable m = true →
      (Shown.plain (.int m)).Over fun m => Number.isWritable m = true := fun m hm => ⟨m, rfl, hm⟩
  refine fun sh hsh => Shown.Over.fault?_eq_none (J := fun m => Number.isWritable m = true) ?_
    fun _ hm => hm
  simp only [Failure.shown, DeadEnd.shown, List.mem_cons, List.not_mem_nil, or_false] at hsh
  rcases hsh with rfl | rfl | rfl
  · exact hover n hn
  · exact hover _ hlow
  · exact hover _ hhigh

/-- Where all integers can be written, the places outside the space are passed over. -/
theorem Relation.placements_eq {space : PitchSpace} {c octave pitch : Term}
    {ps : List (PitchClass × Int)} (hlow : Number.isWritable space.lowest = true)
    (hhigh : Number.isWritable space.highest = true)
    (hps : ∀ q ∈ ps, Number.isWritable (place q) = true) :
    placements space c octave pitch (ps.map asValues) =
      .ok ((ps.filter fun q => space.admits (place q)).map fun q =>
        placedAt c octave pitch (.pitchClass q.1) (.int q.2) (place q)) := by
  induction ps with
  | nil => rfl
  | cons q ps ih =>
      obtain ⟨hq, hrest⟩ := List.forall_mem_cons.mp hps
      rw [List.map_cons, List.filter_cons]
      cases hin : space.admits (place q) with
      | true =>
          rw [placements_inside hin, ih hrest]
          rfl
      | false =>
          rw [placements_cons, absolute_int, require_writable hlow hhigh hq hin]
          exact ih hrest

namespace NoteArguments

variable {c c' octave pitch : Term} {space : PitchSpace} {ps : List (PitchClass × Int)} {n : Int}
  {x : Var}

/-- The pitches of a sweep that lie in the space are those that agree with what is given. -/
theorem swept (hsweep : Sweep space c c' octave pitch ps) (hx : ∀ n, pitch.agrees n = true) :
    (ps.filter fun q => space.admits (place q)).map place =
      space.pitches.filter (noteAgrees c octave pitch) := by
  refine eq_of_ascending ?_ (List.Pairwise.filter _ (Domain.pairwise_run _ _)) fun n => ?_
  · exact List.Pairwise.sublist (List.Sublist.map _ List.filter_sublist) hsweep.ascending
  · rw [List.mem_filter, mem_pitches, ← admits_iff]
    simp only [List.mem_map, List.mem_filter, noteAgrees, hx, Bool.and_true, Bool.and_eq_true]
    constructor
    · rintro ⟨q, ⟨hq, hin⟩, rfl⟩
      rw [octaveOf_place, ← PitchClass.ofInt_emod, class_place, PitchClass.ofInt_toInt]
      exact ⟨hin, hsweep.agrees q hq⟩
    · rintro ⟨hin, hc, ho⟩
      refine ⟨(.ofInt n, octaveOf n), ⟨hsweep.complete _ ?_ hc ho, ?_⟩, place_ofInt n⟩
      all_goals rwa [place_ofInt]

/-- The row of a place is the row of its pitch. -/
theorem noteRow_place (c : Term) (q : PitchClass × Int) :
    noteRow c (place q) = [c.orClass q.1, .int q.2, .int (place q)] := by
  rw [noteRow, octaveOf_place, ← PitchClass.ofInt_emod, class_place, PitchClass.ofInt_toInt]

/-- The notes of an open pitch. -/
theorem tabulates_open (h : NoteArguments c c' octave (.var x))
    (hwrites : ∀ n, NoteWrites space octave (.var x) n → Number.isWritable n = true) :
    (Relation.note c' octave (.var x)).Tabulates (.empty space) [c, octave, .var x]
      (noteRows space c octave (.var x)) := by
  obtain ⟨ps, hsweep⟩ := h.exists_sweep space
  have hagrees : ∀ n, (Term.var x).agrees n = true := fun n => rfl
  have hgoal : Relation.noteIn (.empty space) c' octave (.var x) =
      .ok (Goal.disjoin ((ps.filter fun q => space.admits (place q)).map fun q =>
        Relation.placedAt c' octave (.var x) (.pitchClass q.1) (.int q.2) (place q))) := by
    have hps : ∀ q ∈ ps, Number.isWritable (place q) = true := fun q hq =>
      hwrites _ (.inr (.inr (.inr (.inr (.inr ⟨q, hsweep.octaves q hq, rfl⟩)))))
    have hplacements : Relation.placements space c' octave (.var x) (ps.map asValues) = .ok _ :=
      Relation.placements_eq (hwrites space.lowest (.inl rfl))
        (hwrites space.highest (.inr (.inl rfl))) hps
    rw [Relation.noteIn_open (s := .empty space) (x := x) rfl]
    show (Relation.noteCandidates (.empty space) c' octave (.var x) >>= fun pairs =>
      Relation.placements space c' octave (.var x) pairs >>= fun gs => .ok (Goal.disjoin gs)) = _
    rw [hsweep.candidates]
    show (Relation.placements space c' octave (.var x) (ps.map asValues) >>= fun gs => _) = _
    rw [hplacements]
    rfl
  have hrows : noteRows space c octave (.var x) =
      (ps.filter fun q => space.admits (place q)).map fun q =>
        [c.orClass q.1, .int q.2, .int (place q)] := by
    rw [noteRows, ← swept hsweep hagrees, List.map_map]
    exact List.map_congr_left fun q _ => noteRow_place c q
  rw [hrows, Goal.Tabulates, Relation.note, Goal.project, hgoal]
  refine Goal.tabulates_disjoin_map fun q hq => ?_
  obtain ⟨hq, -⟩ := List.mem_filter.mp hq
  exact h.placedAt_tabulates (hsweep.agrees q hq).1 (hsweep.agrees q hq).2 (hagrees _)

/-! ### Given pitches -/

/-- A note with a given pitch is described. -/
theorem note_val (space : PitchSpace) (c octave : Term) (p : Value) :
    Relation.note c octave (.val p) (.empty space) =
      match space.describe p with
      | .ok (j, k) =>
        Goal.conjoin [.eq c (.val (.pitchClass j)), .eq octave (.int k)] (.empty space)
      | .error (.deadEnd _) => .done
      | .error f => .raise f := by
  show Goal.project (fun s => Relation.noteIn s c octave (.val p)) (.empty space) = _
  have hmade : Relation.noteIn (.empty space) c octave (.val p) =
      match space.describe p with
      | .ok (j, k) => .ok (Goal.conjoin [.eq c (.val (.pitchClass j)), .eq octave (.int k)])
      | .error (.deadEnd _) => .ok Goal.fail
      | .error f => .error f := rfl
  rw [Goal.project, hmade]
  rcases space.describe p with f | ⟨j, k⟩
  · cases f <;> rfl
  · rfl

/-- A given pitch that agrees with the other arguments gives its row. -/
theorem tabulates_inside (h : NoteArguments c c' octave (.int n))
    (hc : c.allowsClass (.ofInt n) = true) (ho : octave.agrees (octaveOf n) = true) :
    (Goal.conjoin [.eq c' (.val (.pitchClass (.ofInt n))),
      .eq octave (.int (octaveOf n))]).Tabulates (.empty space) [c, octave, .int n]
        [noteRow c n] := by
  let ps : List (Term × Value) :=
    [(c', .pitchClass (.ofInt n)), (octave, .int (octaveOf n))]
  have hvalues : ∀ p ∈ ps, p.2.Discrete ∧ p.2.same p.2 = true := by
    simp [ps, Value.Discrete, same_class]
  have hopen : ∀ p ∈ ps, (∃ x, p.1 = .var x) ∨ p.1 = .val p.2 := by
    simp only [ps, List.forall_mem_cons]
    exact ⟨h.class_given hc, Term.given_of_agrees h.octave_over ho, List.forall_mem_nil _⟩
  have hapart : ps.Pairwise fun p q => ∀ x, p.1 = .var x → q.1 ≠ .var x :=
    List.pairwise_pair.mpr fun x hx => ((h.apart x).1 hx).1
  obtain ⟨t, hgoal, ht, hwalks, -⟩ :=
    (State.bare_empty space).conjoin_gives hvalues hopen hapart
  simp only [ps, List.forall_mem_cons] at hwalks
  obtain ⟨hclass, hoctave, -⟩ := hwalks
  obtain ⟨hfixes, hrow⟩ := h.fixes ht hclass hoctave (Substitution.walk_val _ _)
  have hrow : [c, octave, .int n].map t.walk = noteRow c n := hrow
  exact hrow ▸ Goal.tabulates_of_one hgoal hfixes

/-- A given pitch that disagrees with another argument is no note. -/
theorem tabulates_clash (h : NoteArguments c c' octave (.int n))
    (hclash : ¬ (c.allowsClass (.ofInt n) = true ∧ octave.agrees (octaveOf n) = true))
    (hwritable : ∀ k, octave = .int k → Number.isWritable k = true)
    (hoctave : Number.isWritable (octaveOf n) = true) :
    (Goal.conjoin [.eq c' (.val (.pitchClass (.ofInt n))),
      .eq octave (.int (octaveOf n))]).Tabulates (.empty space) [c, octave, .int n] [] := by
  have hwritten : ∀ k : Int, Number.isWritable k = true → (Value.int k).quotedFault? = none := by
    intro k hk
    rw [Value.quotedFault?, Value.numberFault?, if_pos hk]
  refine Goal.tabulates_of_done ?_
  rw [Goal.conjoin_cons]
  by_cases hc : c.allowsClass (.ofInt n) = true
  · obtain ⟨s₁, hgoal₁, -, -, hoctave₁, -⟩ := h.class_known space hc
    have ho : ¬ octave.agrees (octaveOf n) = true := fun ho => hclash ⟨hc, ho⟩
    cases octave with
    | var y => exact absurd rfl ho
    | val w =>
        obtain ⟨k, rfl, -⟩ := h.octave_over
        have hne : k ≠ octaveOf n := fun heq => ho (by rw [heq]; exact beq_self_eq_true _)
        have hsame : Value.same (.int k) (.int (octaveOf n)) = false := by
          rw [Value.same_int]
          exact beq_false_of_ne hne
        rw [hgoal₁, Answers.one_bind, Goal.conjoin_cons, State.eq_clash hoctave₁ hsame
          (hwritten k (hwritable k rfl)) (hwritten _ hoctave)]
        rfl
  · cases hcase : c' with
    | var x => exact absurd (by rw [(h.same_var x).mp hcase]; rfl) hc
    | val v =>
        obtain ⟨i, rfl, hi⟩ := h.known v hcase
        have hne : i ≠ .ofInt n := fun heq => hc (by rw [hi, heq]; exact beq_self_eq_true _)
        have hsame : Value.same (.pitchClass i) (.pitchClass (.ofInt n)) = false := by
          rw [Value.same_pitchClass]
          exact beq_false_of_ne fun heq => hne
            (by rw [← PitchClass.ofInt_toInt i, heq, PitchClass.ofInt_toInt])
        rw [State.eq_clash (Substitution.walk_val _ _) hsame rfl rfl]
        rfl

/-- A given pitch has one row at most. -/
theorem noteRows_int (space : PitchSpace) (c octave : Term) (n : Int) :
    noteRows space c octave (.int n) =
      if space.admits n ∧ c.allowsClass (.ofInt n) ∧ octave.agrees (octaveOf n)
      then [noteRow c n] else [] := by
  have hmem : ∀ m, m ∈ space.pitches.filter (noteAgrees c octave (.int n)) ↔
      (space.admits n ∧ c.allowsClass (.ofInt n) ∧ octave.agrees (octaveOf n)) ∧ m = n := by
    intro m
    have hm : (Term.int n).agrees m = true ↔ n = m := by simp [Term.agrees]
    simp only [List.mem_filter, mem_pitches, ← admits_iff, noteAgrees, Bool.and_eq_true, hm]
    constructor
    · rintro ⟨hin, ⟨hc, ho⟩, rfl⟩
      exact ⟨⟨hin, hc, ho⟩, rfl⟩
    · rintro ⟨⟨hin, hc, ho⟩, rfl⟩
      exact ⟨hin, ⟨hc, ho⟩, rfl⟩
  have hascending : (space.pitches.filter (noteAgrees c octave (.int n))).Pairwise (· < ·) :=
    List.Pairwise.filter _ (Domain.pairwise_run _ _)
  rw [noteRows]
  split
  next hall =>
    have hone : space.pitches.filter (noteAgrees c octave (.int n)) = [n] :=
      eq_of_ascending hascending (List.pairwise_singleton _ _) fun m => by
        rw [hmem, List.mem_singleton]
        exact and_iff_right hall
    rw [hone]
    rfl
  next hnot =>
    have hnone : space.pitches.filter (noteAgrees c octave (.int n)) = [] :=
      List.eq_nil_iff_forall_not_mem.mpr fun m hm => hnot ((hmem m).mp hm).1
    rw [hnone]
    rfl

/-- The notes of a given pitch. -/
theorem tabulates_given (h : NoteArguments c c' octave (.int n))
    (hwrites : ∀ m, NoteWrites space octave (.int n) m → Number.isWritable m = true) :
    (Relation.note c' octave (.int n)).Tabulates (.empty space) [c, octave, .int n]
      (noteRows space c octave (.int n)) := by
  have hlow := hwrites space.lowest (.inl rfl)
  have hhigh := hwrites space.highest (.inr (.inl rfl))
  have hn : Number.isWritable n = true := hwrites n (.inr (.inr (.inr (.inr (.inl rfl)))))
  rw [Goal.Tabulates, note_val, noteRows_int, describe]
  cases hin : space.admits n with
  | false =>
      rw [require_writable hlow hhigh hn hin]
      simp only [Bool.false_eq_true, false_and, if_false]
      exact Answers.gives_done rfl
  | true =>
      rw [require_int, if_pos hin]
      show (Goal.conjoin [.eq c' (.val (.pitchClass (.ofInt n))), .eq octave (.int (octaveOf n))]
        (.empty space)).Gives _ _ _
      split
      next hall => exact h.tabulates_inside hall.2.1 hall.2.2
      next hnot =>
        refine h.tabulates_clash (fun hboth => hnot ⟨rfl, hboth⟩) (fun k hk => ?_) ?_
        · exact hwrites k (.inr (.inr (.inr (.inl hk))))
        · exact hwrites _ (.inr (.inr (.inl (octaveOf_mem_octaves (admits_iff.mp hin)))))

end NoteArguments

/-! ## The table -/

/-- The goal of a note is worked out to the rows of its table. -/
theorem NoteTerms.tabulates {space : PitchSpace} {c octave pitch : Term}
    (hq : NoteTerms c octave pitch)
    (hwritable : ∀ n, NoteWrites space octave pitch n → Number.isWritable n = true) :
    ∃ goal, (Formula.note c octave pitch).goal = .ok goal ∧
      goal.Tabulates (.empty space) [c, octave, pitch] (noteRows space c octave pitch) := by
  obtain ⟨c', hbuild, hvar, hknown⟩ := hq.named.build
  have h : NoteArguments c c' octave pitch := ⟨hq, hvar, hknown⟩
  refine ⟨Relation.note c' octave pitch, ?_, ?_⟩
  · have hmade : (Formula.note c octave pitch).build =
        (pure (Relation.note c' octave pitch) : Builder Goal) := by
      rw [Formula.build, Builder.note, hbuild, Builder.openOr_over hq.octave_over,
        Builder.openOr_over hq.pitch_over]
      rfl
    rw [Formula.goal, hmade]
    rfl
  · cases pitch with
    | var x => exact h.tabulates_open hwritable
    | val v =>
        obtain ⟨n, rfl, -⟩ := hq.pitch_over
        exact h.tabulates_given hwritable

/-- The integers of a search in the MIDI range are small if the given ones are. -/
theorem writable_note_midi {octave pitch : Term} (ho : ∀ k, octave = .int k → k.natAbs < 10)
    (hp : ∀ n, pitch = .int n → n.natAbs < 1000) {n : Int}
    (hn : NoteWrites .midi octave pitch n) : Number.isWritable n = true := by
  have hoctaves : ∀ k, k ∈ midi.octaves → k.natAbs < 10 := by decide
  refine Number.isWritable_of_natAbs_lt (k := 3) (by decide) ?_
  show n.natAbs < 1000
  rcases hn with rfl | rfl | hn | hn | hn | ⟨⟨j, k⟩, hk, rfl⟩
  · decide
  · decide
  · have := hoctaves n hn
    omega
  · have := ho n hn
    omega
  · exact hp n hn
  · have hk : k.natAbs < 10 := hk.elim (hoctaves k) (ho k)
    have hlow := j.toInt_nonneg
    have hhigh := j.toInt_lt
    simp only [place]
    omega

/-- Whatever is given of a class, an octave and a pitch, a query for the three lists the pitches
of the space in ascending order, each with its class and octave, and keeps the rows that agree
with what is given.  A name agrees with its class, and is shown as it was given. -/
theorem Formula.run_note {space : PitchSpace} {c octave pitch : Term}
    (hq : NoteTerms c octave pitch)
    (hwritable : ∀ n, NoteWrites space octave pitch n → Number.isWritable n = true) :
    (Formula.note c octave pitch).run [c, octave, pitch] .nothing space =
      .ok (noteRows space c octave pitch) := by
  obtain ⟨goal, hgoal, htabulates⟩ := hq.tabulates hwritable
  rw [Formula.run, hgoal]
  exact htabulates.run

/-- The pitches of a class that is given by one of its names. -/
theorem Formula.run_note_flat :
    let c : Term := .val (.text "Db")
    let octave : Term := .var (.named "octave")
    let pitch : Term := .var (.named "pitch")
    (Formula.note c octave pitch).run [c, octave, pitch] .nothing .midi =
      .ok ([(-1, 1), (0, 13), (1, 25), (2, 37), (3, 49), (4, 61), (5, 73), (6, 85), (7, 97),
        (8, 109), (9, 121)].map fun (q : Int × Int) => [c, .int q.1, .int q.2]) := by
  intro c octave pitch
  have hq : NoteTerms c octave pitch :=
    ⟨⟨.ofInt 1, rfl⟩, trivial, trivial, by simp [Term.Distinct, c, octave, pitch]⟩
  exact run_note hq fun n => writable_note_midi (fun _ hk => Term.noConfusion hk)
    fun _ hn => Term.noConfusion hn

/-- The row of a class that is given by name shows the name and not the class. -/
theorem Formula.run_note_name :
    let c : Term := .val (.text "Db")
    let pitch : Term := .var (.named "pitch")
    (Formula.note c (.int 4) pitch).run [c, .int 4, pitch] .nothing .midi ≠
      .ok ((midi.pitches.filter (noteAgrees c (.int 4) pitch)).map fun n =>
        [.val (.pitchClass (.ofInt n)), .int (octaveOf n), .int n]) := by
  intro c pitch
  have hq : NoteTerms c (.int 4) pitch :=
    ⟨⟨.ofInt 1, rfl⟩, ⟨4, rfl, trivial⟩, trivial, by simp [Term.Distinct, c, pitch]⟩
  have hwritable : ∀ n, NoteWrites .midi (.int 4) pitch n → Number.isWritable n = true := fun n =>
    writable_note_midi (fun k hk => by cases hk; decide) fun _ hn => Term.noConfusion hn
  obtain ⟨goal, hgoal, htabulates⟩ := hq.tabulates hwritable
  have hone : midi.pitches.filter (noteAgrees c (.int 4) pitch) = [61] := by decide +kernel
  rw [Formula.run, hgoal]
  refine fun hrun => ?_
  have hrows := Except.ok.inj (htabulates.run.symm.trans hrun)
  rw [noteRows, hone] at hrows
  cases hrows

end Consonance
