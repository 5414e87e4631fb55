import Consonance.Proofs.ChordAnswers
import Consonance.Proofs.Composition
import Consonance.Proofs.Truncation
import Consonance.Query.Interval

/-!
# Rows of interval and chord queries

The arguments of interval and chord queries that a caller can send become integers and variables.
The integers may be any.  If one of them is no MIDI pitch or distance, the search has no rows, since
the relations confine their arguments to the space (`solutions_eq_nil`).  If all are, the search
does not fail, and every row consists of pitches of the space.  So the rows are uniform
(`IntervalQuery.uniform`, `ChordQuery.uniform`).

The distance of an interval query can be open.  It is not solved for, and no row can be described
with it.
-/

namespace Consonance

open PitchSpace

/-! ## Sent arguments -/

/-- The value is neither a pitch class nor an interval.  JSON has no such values, so a request sends
none. -/
def Value.IsSent : Value → Prop
  | .pitchClass _ => False
  | .interval _ => False
  | _ => True

section Sent

variable {v w : Value} {t : Term} {n m : Nat}

theorem resolvePitch_sent (hv : v.IsSent) (h : resolvePitch v = .ok w) : ∃ n : Int, w = .int n := by
  unfold resolvePitch at h
  split at h
  · cases h
  · cases h
    exact ⟨_, rfl⟩
  · exact hv.elim
  · obtain ⟨text, -, h⟩ := bind_eq_ok.mp h
    dsimp only at h
    split at h
    · obtain ⟨n, -, h⟩ := bind_eq_ok.mp h
      cases h
      exact ⟨n, rfl⟩
    · obtain ⟨⟨c, octave⟩, -, h⟩ := bind_eq_ok.mp h
      cases h
      exact ⟨_, rfl⟩

theorem resolveDistance_sent (hv : v.IsSent) (h : resolveDistance v = .ok w) :
    ∃ n : Int, w = .int n := by
  unfold resolveDistance at h
  split at h
  · exact hv.elim
  · obtain ⟨q, hq, h⟩ := bind_eq_ok.mp h
    cases h
    obtain ⟨n, rfl⟩ := IntervalTable.exists_of_distanceOf hq
    exact ⟨n, rfl⟩
  next n =>
    split at h
    · cases h
    · cases h
      exact ⟨n, rfl⟩
  · exact hv.elim
  · cases h

theorem IntervalQuery.intervalArgument_sent (hv : v.IsSent) (h : intervalArgument v = .ok w) :
    w.IsSent := by
  unfold intervalArgument at h
  split at h
  · dsimp only at h
    split at h
    · obtain ⟨n, -, h⟩ := bind_eq_ok.mp h
      cases h
      trivial
    · cases h
      exact hv
  · cases h
    exact hv

namespace Builder

theorem pitchArgument_sent (hv : v.IsSent) (h : pitchArgument v n = .ok (t, m)) :
    t.Over fun _ => True := by
  unfold pitchArgument at h
  split at h
  · cases h
    trivial
  · obtain ⟨⟨p, k⟩, hp, h⟩ := bind_eq_ok.mp h
    cases h
    obtain ⟨w, hw, hlift⟩ := bind_eq_ok.mp hp
    cases hlift
    obtain ⟨i, rfl⟩ := resolvePitch_sent hv hw
    exact Term.over_int trivial

theorem distance_sent (hv : v.IsSent) (h : distance (.val v) n = .ok (t, m)) :
    t.Over fun _ => True := by
  by_cases hnothing : v = .nothing
  · subst hnothing
    cases h
    trivial
  · have hread : (do return Term.val (← resolveDistance v) : Builder Term) n = .ok (t, m) := by
      cases v with
      | nothing => exact absurd rfl hnothing
      | _ => exact h
    obtain ⟨⟨p, k⟩, hp, h⟩ := bind_eq_ok.mp hread
    cases h
    obtain ⟨w, hw, hlift⟩ := bind_eq_ok.mp hp
    cases hlift
    obtain ⟨i, rfl⟩ := resolveDistance_sent hv hw
    exact Term.over_int trivial

end Builder

end Sent

/-! ## Searches without rows -/

section Confined

variable {goal : Goal} {ts : List Term} {space : PitchSpace} {s : State} {t : Term} {r : Role}

/-- A goal that no state satisfies has no rows. -/
theorem solutions_eq_nil (h : goal.Leaves space fun _ => False) :
    (solutions goal ts space).items = [] := by
  have hlabel : (Goal.conjoin [Goal.label ts]).Leaves space _ := Goal.leaves_label ts
  have hall := Goal.leaves_conjoin_cons (fun _ _ _ => id) h hlabel
  rw [solutions, Answers.items_map, List.map_eq_nil_iff, List.eq_nil_iff_forall_not_mem]
  exact fun t ht => ((hall (.empty space) (State.discrete_empty space) rfl).each t ht).2.1

theorem Term.Over.discrete {I : Int → Prop} (h : t.Over I) : t.Discrete := by
  cases t with
  | var x => trivial
  | val v =>
      obtain ⟨n, rfl, -⟩ := h
      exact Term.discrete_int n

/-- A confined constant is in the range of its role. -/
theorem Term.Over.of_within (ht : t.Over fun _ => True) (h : s.Within (r.Confines space) t) :
    t.Over (r.Ranges space) := by
  cases t with
  | var x => trivial
  | val v =>
      obtain ⟨n, rfl, -⟩ := ht
      obtain ⟨m, hm, hranges⟩ := (State.within_val (Substitution.walk_val _ _)).mp h
      cases hm
      exact Term.over_int hranges

/-- The pitches and the distances of a space within MIDI are MIDI pitches. -/
theorem PitchSpace.IsMidi.ranges {n : Int} (hspace : space.IsMidi)
    (hr : r = .pitch ∨ r = .distance) (hn : r.Ranges space n) : midi.Has n := by
  rcases hr with rfl | rfl
  · exact hspace.has hn
  · exact hspace.provides.distance n hn.1 hn.2

end Confined

/-! ## Intervals -/

namespace IntervalQuery

variable {space : PitchSpace} {d a b : Term} {k : Int}

/-- An interval with an argument that is no MIDI pitch or distance has no rows. -/
theorem solutions_far (hspace : space.IsMidi) (hts : ∀ t ∈ [d, a, b], t.Over fun _ => True)
    (hfar : ¬ ∀ t ∈ [d, a, b], t.Over midi.Has) (ts : List Term) :
    (solutions (Relation.interval d a b) ts space).items = [] := by
  simp only [List.forall_mem_cons] at hts
  obtain ⟨hd, ha, hb, -⟩ := hts
  refine solutions_eq_nil ((Relation.leaves_interval (Term.Over.discrete hd)
    (Term.Over.discrete ha) (Term.Over.discrete hb)).mono
    fun t _ ht => hfar ?_)
  obtain ⟨htd, hta, htb⟩ := ht
  simp only [List.forall_mem_cons]
  exact ⟨(Term.Over.of_within hd htd).mono fun _ => hspace.ranges (.inr rfl),
    (Term.Over.of_within ha hta).mono fun _ => hspace.ranges (.inl rfl),
    (Term.Over.of_within hb htb).mono fun _ => hspace.ranges (.inl rfl), List.forall_mem_nil _⟩

/-- An interval of a given distance between MIDI pitches has rows of two pitches of the space, and
its search does not fail. -/
theorem solutions_near (hspace : space.IsMidi) (hk : midi.Has k) (ha : a.Over midi.Has)
    (hb : b.Over midi.Has) :
    (solutions (Relation.interval (.int k) a b) [a, b] space).ending = none ∧
      ∀ row ∈ (solutions (Relation.interval (.int k) a b) [a, b] space).items,
        ∃ m n, row = [.int m, .int n] ∧ space.Has m ∧ space.Has n := by
  have hmet : ∀ x, Setting.withInterval (.int k) a b (fun _ => False) x ↔ .var x ∈ [a, b] := by
    intro x
    simp only [Setting.withInterval, Term.joins, List.mem_cons, List.not_mem_nil, or_false]
    grind
  have hamong : ∀ t ∈ [a, b],
      t.Among midi.Has (Setting.withInterval (.int k) a b fun _ => False) := by
    have hover : ∀ t ∈ [a, b], t.Over midi.Has := by
      simp only [List.forall_mem_cons]
      exact ⟨ha, hb, List.forall_mem_nil _⟩
    intro t ht
    cases t with
    | var x => exact (hmet x).mpr ht
    | val v => exact hover _ ht
  have hintroduces := Relation.interval_introduces (V := fun _ => False) hspace.provides
    (d := .int k) (Term.over_int hk) ha hb
  rcases hintroduces.run hamong fun x => (hmet x).mp with
    ⟨blocks, hblocks, hrun⟩ | ⟨-, n, hn, hlong⟩
  · obtain ⟨hending, hitems⟩ := Answers.all_eq_ok_iff.mp hrun
    refine ⟨hending, ?_⟩
    rw [hitems, List.forall_mem_map]
    intro row hrow
    obtain ⟨block, hblock, hrow⟩ := List.mem_flatten.mp hrow
    obtain ⟨P, hP, -, hmem⟩ := exists_of_forall₂ hblocks hblock
    obtain ⟨ρ, hρ, rfl⟩ := (hmem row).mp hrow
    refine ⟨a.eval ρ, b.eval ρ, rfl, ?_⟩
    simp only [List.mem_cons, List.not_mem_nil, or_false] at hP
    rcases hP with rfl | rfl
    · exact ⟨hρ.2.1, hρ.1⟩
    · exact ⟨hρ.2.1, hρ.2.2.1⟩
  · exact absurd (hlong.symm.trans (writable_derived hn)) Bool.false_ne_true

/-- Whether a row of two pitches of the space can be described depends on the distance only. -/
theorem describe_near {m n : Int} (hm : space.Has m) (hn : space.Has n) :
    describe space (.int k) [.int m, .int n] =
      (IntervalTable.common.nameOf? (.int k)).map fun name => ⟨k, name, .ofInt m, .ofInt n⟩ := by
  have hfirst : NoteSolution.ofTerm space (.int m) = .ok (.ofInt m) := NoteSolution.ofPitch_int hm
  have hsecond : NoteSolution.ofTerm space (.int n) = .ok (.ofInt n) := NoteSolution.ofPitch_int hn
  simp only [describe, hfirst, hsecond, Term.toWhole, Value.toWhole_int]
  cases IntervalTable.common.nameOf? (.int k) <;> rfl

/-- No row is described with an open distance. -/
theorem describe_open (x : Var) (row : Row) : ∃ f, describe space (.var x) row = .error f := by
  cases hdescribe : describe space (.var x) row with
  | error f => exact ⟨f, rfl⟩
  | ok s =>
      unfold describe at hdescribe
      split at hdescribe
      · obtain ⟨first, -, hdescribe⟩ := bind_eq_ok.mp hdescribe
        obtain ⟨second, -, hdescribe⟩ := bind_eq_ok.mp hdescribe
        cases hdescribe
      · cases hdescribe

/-- The goal of a query is made of its arguments, which are read one after the other. -/
theorem goal_eq_ok {q : IntervalQuery} {goal : Goal} {ts : List Term} {n m : Nat}
    (h : q.goal n = .ok ((goal, d, ts), m)) :
    ∃ v a b n₁ n₂, intervalArgument q.interval = .ok v ∧
      Builder.distance (.val v) n = .ok (d, n₁) ∧
      Builder.pitchArgument q.first n₁ = .ok (a, n₂) ∧
      Builder.pitchArgument q.second n₂ = .ok (b, m) ∧
      goal = Relation.interval d a b ∧ ts = [a, b] := by
  obtain ⟨⟨v, n₀⟩, hv, h⟩ := bind_eq_ok.mp h
  obtain ⟨w, hw, hlift⟩ := bind_eq_ok.mp hv
  cases hlift
  obtain ⟨⟨d', n₁⟩, hd, h⟩ := bind_eq_ok.mp h
  obtain ⟨⟨a, n₂⟩, ha, h⟩ := bind_eq_ok.mp h
  obtain ⟨⟨b, n₃⟩, hb, h⟩ := bind_eq_ok.mp h
  cases h
  exact ⟨v, a, b, n₁, n₂, hw, hd, ha, hb, rfl, rfl⟩

/-- The rows of an interval query are uniform. -/
theorem uniform {q : IntervalQuery} {goal : Goal} {ts : List Term} {n m : Nat}
    (hsent : ∀ v ∈ [q.interval, q.first, q.second], v.IsSent) (hspace : space.IsMidi)
    (h : q.goal n = .ok ((goal, d, ts), m)) :
    (solutions goal ts space).Uniform (describe space d) fun s =>
      ∀ note ∈ [s.first, s.second], space.Has note.pitch := by
  obtain ⟨v, a, b, n₁, n₂, hv, hd, ha, hb, rfl, rfl⟩ := goal_eq_ok h
  simp only [List.forall_mem_cons] at hsent
  obtain ⟨hinterval, hfirst, hsecond, -⟩ := hsent
  have hover : ∀ t ∈ [d, a, b], t.Over fun _ => True := by
    simp only [List.forall_mem_cons]
    exact ⟨Builder.distance_sent (intervalArgument_sent hinterval hv) hd,
      Builder.pitchArgument_sent hfirst ha, Builder.pitchArgument_sent hsecond hb,
      List.forall_mem_nil _⟩
  cases d with
  | var x => exact .rejected fun row _ => describe_open x row
  | val v =>
      by_cases hnear : ∀ t ∈ [.val v, a, b], t.Over midi.Has
      · simp only [List.forall_mem_cons] at hnear
        obtain ⟨⟨k, rfl, hk⟩, ha, hb, -⟩ := hnear
        obtain ⟨hending, hrows⟩ := solutions_near hspace hk ha hb
        cases hname : IntervalTable.common.nameOf? (.int k) with
        | error f =>
            refine .rejected fun row hrow => ⟨f, ?_⟩
            obtain ⟨i, j, rfl, hi, hj⟩ := hrows row hrow
            rw [describe_near hi hj, hname]
            rfl
        | ok name =>
            refine .described hending fun row hrow => ?_
            obtain ⟨i, j, rfl, hi, hj⟩ := hrows row hrow
            refine ⟨⟨k, name, .ofInt i, .ofInt j⟩, ?_, ?_⟩
            · rw [describe_near hi hj, hname]
              rfl
            · exact List.forall_mem_cons.mpr ⟨hi, List.forall_mem_singleton.mpr hj⟩
      · exact .of_empty (solutions_far hspace hover hnear [a, b])

end IntervalQuery

/-! ## Chords -/

namespace ChordQuery

open ChordQuality

variable {space : PitchSpace} {quality : ChordQuality} {root low middle high : Term}

/-- A chord with an argument that is no MIDI pitch has no rows. -/
theorem solutions_far {name : String} {goal : Goal} (hspace : space.IsMidi)
    (hquality : ofName? name = some quality)
    (hgoal : Relation.chord quality root low middle high = .ok goal)
    (hts : ∀ t ∈ [root, low, middle, high], t.Over fun _ => True)
    (hfar : ¬ ∀ t ∈ [root, low, middle, high], t.Over midi.Has) (ts : List Term) :
    (solutions goal ts space).items = [] := by
  have hover := hts
  simp only [List.forall_mem_cons] at hover
  obtain ⟨hroot, hlow, hmiddle, hhigh, -⟩ := hover
  refine solutions_eq_nil ((Relation.leaves_chord hquality (Term.Over.discrete hroot)
    (Term.Over.discrete hlow) (Term.Over.discrete hmiddle) (Term.Over.discrete hhigh) hgoal).mono
      fun t _ ht => hfar fun u hu => ?_)
  exact ((hts u hu).of_within (ht u hu)).mono fun _ => hspace.ranges (.inl rfl)

/-- Only the name of a quality is read as one. -/
theorem ofTerm_eq_ok {v : Value} (h : ofTerm (.val v) = .ok quality) :
    ∃ name, v = .text name ∧ ofName? name = some quality := by
  unfold ofTerm at h
  split at h
  next name heq =>
    cases heq
    split at h
    next found =>
      cases h
      exact ⟨name, rfl, found⟩
    next => cases h
  next => cases h

/-- The goal of a query is made of its arguments, which are read one after the other. -/
theorem goal_eq_ok {q : ChordQuery} {goal : Goal} {ts : List Term} {n m : Nat}
    (h : q.goal n = .ok ((goal, quality, ts), m)) :
    ∃ root low middle high n₁ n₂ n₃, ofTerm (.val q.quality) = .ok quality ∧
      Builder.pitchArgument q.root n = .ok (root, n₁) ∧
      Builder.pitchArgument q.low n₁ = .ok (low, n₂) ∧
      Builder.pitchArgument q.middle n₂ = .ok (middle, n₃) ∧
      Builder.pitchArgument q.high n₃ = .ok (high, m) ∧
      Relation.chord quality root low middle high = .ok goal ∧ ts = [root, low, middle, high] := by
  obtain ⟨⟨quality', n₀⟩, hquality, h⟩ := bind_eq_ok.mp h
  obtain ⟨w, hw, hlift⟩ := bind_eq_ok.mp hquality
  cases hlift
  obtain ⟨⟨root, n₁⟩, hroot, h⟩ := bind_eq_ok.mp h
  obtain ⟨⟨low, n₂⟩, hlow, h⟩ := bind_eq_ok.mp h
  obtain ⟨⟨middle, n₃⟩, hmiddle, h⟩ := bind_eq_ok.mp h
  obtain ⟨⟨high, n₄⟩, hhigh, h⟩ := bind_eq_ok.mp h
  obtain ⟨⟨g, n₅⟩, hg, h⟩ := bind_eq_ok.mp h
  obtain ⟨g', hgoal, hlift⟩ := bind_eq_ok.mp hg
  cases hlift
  cases h
  exact ⟨root, low, middle, high, n₁, n₂, n₃, hw, hroot, hlow, hmiddle, hhigh, hgoal, rfl⟩

/-- The rows of a chord query are uniform. -/
theorem uniform {q : ChordQuery} {goal : Goal} {ts : List Term} {n m : Nat}
    (hsent : ∀ v ∈ [q.root, q.low, q.middle, q.high], v.IsSent) (hspace : space.IsMidi)
    (h : q.goal n = .ok ((goal, quality, ts), m)) :
    (solutions goal ts space).Uniform (describe space quality) fun s =>
      ∀ note ∈ s.root :: s.voices, space.Has note.pitch := by
  obtain ⟨root, low, middle, high, n₁, n₂, n₃, hread, hroot, hlow, hmiddle, hhigh, hgoal, rfl⟩ :=
    goal_eq_ok h
  obtain ⟨name, -, hquality⟩ := ofTerm_eq_ok hread
  have hover : ∀ t ∈ [root, low, middle, high], t.Over fun _ => True := by
    simp only [List.forall_mem_cons] at hsent ⊢
    exact ⟨Builder.pitchArgument_sent hsent.1 hroot, Builder.pitchArgument_sent hsent.2.1 hlow,
      Builder.pitchArgument_sent hsent.2.2.1 hmiddle,
      Builder.pitchArgument_sent hsent.2.2.2.1 hhigh, List.forall_mem_nil _⟩
  have hdistinct : Term.Distinct [root, low, middle, high] :=
    (Builder.InTurn.cons (Builder.pitchArgument_numbers hroot)
      (.cons (Builder.pitchArgument_numbers hlow) (.cons (Builder.pitchArgument_numbers hmiddle)
        (.cons (Builder.pitchArgument_numbers hhigh) (.nil _))))).distinct
  by_cases hnear : ∀ t ∈ [root, low, middle, high], t.Over midi.Has
  · obtain ⟨third, fifth, htones, hthird, hlt⟩ := tones_of_ofName? hquality
    obtain ⟨goal', hgoal', hending, hitems⟩ := htones.solutions_over hspace hnear hdistinct
    cases hgoal.symm.trans hgoal'
    refine .described hending ?_
    rw [hitems, List.forall_mem_map]
    intro row hrow
    refine ⟨ChordSolution.ofRow quality.name row, htones.describe hthird hlt _ row hrow, ?_⟩
    obtain ⟨k, hk, hrow⟩ := List.mem_flatMap.mp hrow
    have hk' := mem_inversions.mp hk
    obtain ⟨r, l, m, h, rfl⟩ := exists_of_mem_inversionRows hk' hrow
    have hnotes : (ChordSolution.ofRow quality.name [r, l, m, h]).root ::
        (ChordSolution.ofRow quality.name [r, l, m, h]).voices =
          [r, l, m, h].map NoteSolution.ofInt := rfl
    rw [hnotes, List.forall_mem_map]
    exact ((htones.mem_inversionRows hk').mp hrow).1.has
  · exact .of_empty (solutions_far hspace hquality hgoal hover hnear _)

end ChordQuery

end Consonance
