import Consonance.Proofs.ChordAnswers
import Consonance.Proofs.Composition
import Consonance.Proofs.Truncation
import Consonance.Proofs.Unification
import Consonance.Query.Note

/-!
# Rows of note queries

A note query takes any arguments, and only its class is read before the search.  Its rows are
uniform all the same (`NoteQuery.uniform`).

If the pitch is given, there is at most one row, since each equation of a known pitch holds in at
most one way (`Answers.Lone`).  If it is open, each place that is tried gives one row.  A place is
tried only if its pitch could be computed and lies in the space, so its octave is a whole number
and the row can be described.
-/

namespace Consonance

/-! ## At most one answer -/

namespace Answers

variable {α β : Type} {P : α → Prop} {Q : β → Prop} {xs : Answers α}

/-- The stream has no answer, or one with the property and nothing after it. -/
def Lone (P : α → Prop) (xs : Answers α) : Prop := xs.items = [] ∨ ∃ a, xs = .one a ∧ P a

theorem Lone.bind {k : α → Answers β} (h : xs.Lone P) (hk : ∀ a, P a → (k a).Lone Q) :
    (xs.bind k).Lone Q := by
  rcases h with hnone | ⟨a, rfl, ha⟩
  · refine .inl ?_
    cases xs with
    | done => rfl
    | raise f => rfl
    | next a rest => cases hnone
  · rw [one_bind]
    exact hk a ha

theorem Lone.map {f : α → β} (h : xs.Lone P) (hf : ∀ a, P a → Q (f a)) : (xs.map f).Lone Q := by
  rcases h with hnone | ⟨a, rfl, ha⟩
  · exact .inl (by rw [items_map, hnone, List.map_nil])
  · exact .inr ⟨f a, rfl, hf a ha⟩

end Answers

/-! ## Equations in a bare state -/

namespace State

variable {s : State} {u : Term} {v : Value} {ts : List Term}

/-- Later states keep what is known, and nothing but bindings is known of the rest. -/
structure Keeps (s t : State) : Prop where
  bare : t.Bare
  known : ∀ a v, s.walk a = .val v → t.walk a = .val v

theorem Bare.keeps (hs : s.Bare) : s.Keeps s := ⟨hs, fun _ _ h => h⟩

theorem Keeps.trans {t r : State} (h : s.Keeps t) (h' : t.Keeps r) : s.Keeps r :=
  ⟨h'.bare, fun a v ha => h'.known a v (h.known a v ha)⟩

/-- A term that has a value has an equation with another one in no way. -/
theorem items_eq_clash {w : Value} (hu : s.walk u = .val w) (hsame : w.same v = false) :
    (Goal.eq u (.val v) s).items = [] := by
  have hv : s.walk (.val v) = .val v := Substitution.walk_val _ v
  obtain ⟨f, hf⟩ : ∃ f, s.bind u (.val v) = .error f := by
    simp only [bind, equate, hu, hv, Substitution.binding?, hsame]
    exact ⟨_, rfl⟩
  rw [Goal.eq, Goal.lift, hf]
  cases f <;> rfl

/-- An equation with a value holds in one way at most, and then its term is known. -/
theorem Bare.lone_eq (hs : s.Bare) (hv : v.Discrete) (u : Term) :
    (Goal.eq u (.val v) s).Lone fun t => s.Keeps t ∧ ∃ w, t.walk u = .val w := by
  cases hu : s.walk u with
  | var x =>
      refine .inr ⟨_, hs.eq_open hu v, ⟨hs.addBinding x _, fun a w ha => ?_⟩, v,
        walk_addBinding_discrete hv hu⟩
      have hother : s.walk a ≠ .var x := by
        rw [ha]
        exact nofun
      exact (walk_addBinding_other (show (Term.val v).Discrete from hv) hother).trans ha
  | val w =>
      cases hsame : w.same v with
      | true => exact .inr ⟨s, hs.eq_known hu hsame, hs.keeps, w, hu⟩
      | false => exact .inl (items_eq_clash hu hsame)

/-- Known terms are labelled in one way at most. -/
theorem Bare.lone_label (hs : s.Bare) (hts : ∀ t ∈ ts, ∃ v, s.walk t = .val v) :
    (Goal.label ts s).Lone fun t => t = s := by
  induction ts with
  | nil => exact .inr ⟨s, rfl, rfl⟩
  | cons t ts ih =>
      obtain ⟨⟨v, hv⟩, hrest⟩ := List.forall_mem_cons.mp hts
      have hcandidates : s.candidates t = .ok [v] := by simp only [candidates, hv]
      have hlabel : Goal.label (t :: ts) s = (Goal.eq t (.val v) s).bind (Goal.label ts) := by
        simp only [Goal.label, hcandidates]
        exact Answers.one_bind v fun v => Goal.both (.eq t (.val v)) (Goal.label ts) s
      rw [hlabel]
      -- The value of the term need not equal itself: it may be an undefined number.
      have hself : (Goal.eq t (.val v) s).Lone fun r => r = s := by
        cases hsame : v.same v with
        | true => exact .inr ⟨s, hs.eq_known hv hsame, rfl⟩
        | false => exact .inl (items_eq_clash hv hsame)
      refine hself.bind fun r hr => ?_
      rw [hr]
      exact ih hrest

end State

namespace Goal

variable {s : State} {query : List Term} {gs : List Goal} {P : Row → Prop}

/-- Goals that give one row each give the rows of all. -/
theorem exists_tabulates_disjoin
    (h : ∀ g ∈ gs, ∃ row, g.Tabulates s query [row] ∧ P row) :
    ∃ rows, (disjoin gs).Tabulates s query rows ∧ ∀ row ∈ rows, P row := by
  induction gs with
  | nil => exact ⟨[], tabulates_of_done rfl, nofun⟩
  | cons g gs ih =>
      obtain ⟨⟨row, hg, hrow⟩, hgs⟩ := List.forall_mem_cons.mp h
      obtain ⟨rows, hrest, hrows⟩ := ih hgs
      exact ⟨row :: rows, tabulates_disjoin_cons hg hrest, List.forall_mem_cons.mpr ⟨hrow, hrows⟩⟩

end Goal

/-! ## Whole octaves -/

/-- As soon as a floating-point number takes part, the result is one. -/
theorem Quantity.float_of_combine {whole : Int → Int → Int}
    {floating : Number.Binary64 → Number.Binary64 → Number.Binary64} {p q r : Quantity}
    (hfloat : p.whole? = none ∨ q.whole? = none) (h : combine whole floating p q = .ok r) :
    ∃ x, r = .float x := by
  obtain ⟨pair, hpair, h⟩ := bind_eq_ok.mp h
  cases pair with
  | floating x y =>
      cases h
      exact ⟨_, rfl⟩
  | whole m n =>
      cases p with
      | float x =>
          cases q with
          | float y => cases hpair
          | _ =>
              obtain ⟨y, -, hpair⟩ := bind_eq_ok.mp hpair
              cases hpair
      | _ =>
          cases q with
          | float y =>
              obtain ⟨x, -, hpair⟩ := bind_eq_ok.mp hpair
              cases hpair
          | _ => exact hfloat.elim nofun nofun

namespace Value

variable {v w r : Value} {n : Int}

theorem toWhole_of_whole (h : v.whole? = some n) : v.toWhole = .ok n := by
  cases v with
  | int m => exact congrArg _ (Option.some.inj h)
  | truth b => simp only [toWhole, h]
  | pitchClass c => simp only [toWhole, h]
  | _ => cases h

theorem same_self_of_whole (h : v.whole? = some n) : v.same v = true := by
  obtain ⟨p, hp, rfl⟩ := exists_ofQuantity h
  rw [same_whole hp hp]
  exact beq_self_eq_true n

/-- Sums and products with a floating-point number are floating-point numbers. -/
theorem float_of_numeric (op : Operation) {whole : Int → Int → Int}
    {floating : Number.Binary64 → Number.Binary64 → Number.Binary64} {p q : Quantity}
    (hop : Quantity.apply op = Quantity.combine whole floating)
    (hfloat : p.whole? = none ∨ q.whole? = none)
    (h : numeric? op (.ofQuantity p) (.ofQuantity q) = some (.ok r)) : ∃ x, r = .float x := by
  simp only [numeric?, quantity?_ofQuantity, hop] at h
  obtain ⟨s, hs, h⟩ := bind_eq_ok.mp (Option.some.inj h)
  obtain ⟨x, rfl⟩ := Quantity.float_of_combine hfloat hs
  cases h
  exact ⟨x, rfl⟩

end Value

namespace PitchSpace

variable {space : PitchSpace} {j : PitchClass} {v : Value} {n : Int}

/-- The octave of a pitch that can be computed is a whole number. -/
theorem whole_of_absolute (h : space.absolute j v = .ok n) :
    (∃ o, v.whole? = some o) ∧ space.Has n := by
  have hdiscrete : v.Discrete := by
    -- The pitch of a floating-point octave would be a floating-point number.
    rintro x rfl
    obtain ⟨above, habove, h⟩ := bind_eq_ok.mp h
    obtain ⟨y, rfl⟩ := Value.float_of_numeric .add (p := .float x) (q := .int 1) rfl
      (.inl rfl) (congrArg some habove)
    obtain ⟨base, hbase, h⟩ := bind_eq_ok.mp h
    obtain ⟨z, rfl⟩ := Value.float_of_numeric .mul (p := .int 12) (q := .float y) rfl
      (.inr rfl) (congrArg some hbase)
    obtain ⟨total, htotal, h⟩ := bind_eq_ok.mp h
    obtain ⟨w, rfl⟩ := Value.float_of_numeric .add (p := .int j.toInt) (q := .float z) rfl
      (.inr rfl) (congrArg some htotal)
    exact nomatch (require_eq_ok h).1
  obtain ⟨o, ho, -, hn⟩ := absolute_eq_ok hdiscrete h
  exact ⟨⟨o, ho⟩, hn⟩

end PitchSpace

/-! ## Rows -/

namespace NoteQuery

open PitchSpace

variable {space : PitchSpace} {c octave pitch : Term} {x : Var} {row : Row} {p : Value} {n : Int}

/-- The row of a place: its class, its octave as it was given, and its pitch. -/
def IsPlace (space : PitchSpace) (row : Row) : Prop :=
  ∃ (j : PitchClass) (v : Value) (o n : Int),
    row = [.val (.pitchClass j), .val v, .int n] ∧ v.whole? = some o ∧ space.Has n

theorem IsPlace.exists_describe (h : IsPlace space row) :
    ∃ s, describe row = .ok s ∧ space.Has s.pitch := by
  obtain ⟨j, v, o, n, rfl, ho, hn⟩ := h
  refine ⟨⟨j, o, n⟩, ?_, hn⟩
  simp only [NoteQuery.describe, NoteSolution.ofTerms, Term.toWhole, Value.toWhole_of_whole ho,
    Value.toWhole_int]

/-- A row with a known pitch is described with this pitch. -/
theorem has_of_describe {a b : Term} {s : NoteSolution} (hp : p.whole? = some n)
    (hn : space.Has n) (h : describe [a, b, .val p] = .ok s) : space.Has s.pitch := by
  unfold describe at h
  split at h
  next c octave pitch heq =>
    cases heq
    simp only [NoteSolution.ofTerms, Term.toWhole, Value.toWhole_of_whole hp] at h
    split at h
    next o n' ho hn' =>
      cases h
      cases hn'
      exact hn
    next => cases h
  next => cases h

/-! ### Given pitches -/

/-- A note with a given pitch is found in one way at most, and then all of it is known. -/
theorem lone_note (c octave : Term) (p : Value) (space : PitchSpace) :
    (Relation.note c octave (.val p) (.empty space)).Lone fun t =>
      (t.Bare ∧ ∀ u ∈ [c, octave, .val p], ∃ v, t.walk u = .val v) ∧
        ∃ n, p.whole? = some n ∧ space.Has n := by
  rw [NoteArguments.note_val]
  split
  next j k hdescribe =>
    obtain ⟨n, hwhole, hn, -⟩ := describe_eq_ok hdescribe
    rw [Goal.conjoin_cons]
    refine ((State.bare_empty space).lone_eq (v := .pitchClass j) nofun c).bind fun r hr => ?_
    obtain ⟨hr, v, hv⟩ := hr
    refine (hr.bare.lone_eq (v := .int k) nofun octave).imp id ?_
    rintro ⟨t, hgoal, ht, w, hw⟩
    refine ⟨t, hgoal, ⟨ht.bare, ?_⟩, n, hwhole, hn⟩
    simp only [List.forall_mem_cons]
    exact ⟨⟨v, ht.known c v hv⟩, ⟨w, hw⟩, ⟨p, Substitution.walk_val _ p⟩, List.forall_mem_nil _⟩
  next => exact .inl rfl
  next => exact .inl rfl

/-- A given pitch has one row at most. -/
theorem lone_given (c octave : Term) (p : Value) (space : PitchSpace) :
    (solutions (Relation.note c octave (.val p)) [c, octave, .val p] space).Lone fun row =>
      (∃ a b, row = [a, b, .val p]) ∧ ∃ n, p.whole? = some n ∧ space.Has n := by
  have hlabelled : (Goal.conjoin [Relation.note c octave (.val p), .label [c, octave, .val p]]
      (.empty space)).Lone fun _ => ∃ n, p.whole? = some n ∧ space.Has n := by
    rw [Goal.conjoin_cons]
    refine (lone_note c octave p space).bind fun t ht => ?_
    refine (ht.1.1.lone_label ht.1.2).imp id ?_
    rintro ⟨r, hr, -⟩
    exact ⟨r, hr, ht.2⟩
  refine hlabelled.map fun t ht => ⟨⟨t.walk c, t.walk octave, ?_⟩, ht⟩
  simp only [List.map_cons, List.map_nil]
  rw [show t.walk (.val p) = .val p from Substitution.walk_val _ p]

/-! ### Open pitches -/

/-- The classes and octaves that are tried for an open pitch are those that are given, or a class
and an octave of which nothing is given. -/
theorem candidates_given {pairs : List (Value × Value)}
    (hclass : ∀ v, c = .val v → ∃ j, v = .pitchClass j)
    (h : Relation.noteCandidates (.empty space) c octave pitch = .ok pairs) :
    ∀ q ∈ pairs, (∃ j, q.1 = .pitchClass j ∧ ((∃ x, c = .var x) ∨ c = .val (.pitchClass j))) ∧
      ((∃ x, octave = .var x) ∨ octave = .val q.2) := by
  unfold Relation.noteCandidates at h
  split at h
  next v w =>
    cases h
    obtain ⟨j, rfl⟩ := hclass v rfl
    exact List.forall_mem_singleton.mpr ⟨⟨j, rfl, .inr rfl⟩, .inr rfl⟩
  next v y =>
    cases h
    obtain ⟨j, rfl⟩ := hclass v rfl
    exact List.forall_mem_map.mpr fun o _ => ⟨⟨j, rfl, .inr rfl⟩, .inl ⟨y, rfl⟩⟩
  next x w =>
    cases h
    exact List.forall_mem_map.mpr fun j _ => ⟨⟨j, rfl, .inl ⟨x, rfl⟩⟩, .inr rfl⟩
  next x y =>
    obtain ⟨values, -, h⟩ := bind_eq_ok.mp h
    intro q hq
    obtain ⟨v, -, hv⟩ := Domain.exists_of_mapM h hq
    obtain ⟨⟨j, o⟩, -, hv⟩ := bind_eq_ok.mp hv
    cases hv
    exact ⟨⟨j, rfl, .inl ⟨x, rfl⟩⟩, .inl ⟨y, rfl⟩⟩

/-- Trying a place that could be computed gives its row. -/
theorem placedAt_place (hdistinct : Term.Distinct [c, octave, .var x]) {j : PitchClass} {v : Value}
    (hc : (∃ x, c = .var x) ∨ c = .val (.pitchClass j))
    (hoctave : (∃ x, octave = .var x) ∨ octave = .val v) (hn : space.absolute j v = .ok n) :
    ∃ row, (Relation.placedAt c octave (.var x) (.pitchClass j) v n).Tabulates (.empty space)
      [c, octave, .var x] [row] ∧ IsPlace space row := by
  obtain ⟨⟨o, ho⟩, hin⟩ := whole_of_absolute hn
  let ps : List (Term × Value) := [(c, .pitchClass j), (octave, v), (.var x, .int n)]
  have hvalues : ∀ p ∈ ps, p.2.Discrete ∧ p.2.same p.2 = true := by
    simp only [ps, List.forall_mem_cons]
    exact ⟨⟨nofun, NoteArguments.same_class j⟩,
      ⟨Value.discrete_of_whole ho, Value.same_self_of_whole ho⟩, ⟨nofun, by simp⟩,
      List.forall_mem_nil _⟩
  have hopen : ∀ p ∈ ps, (∃ x, p.1 = .var x) ∨ p.1 = .val p.2 := by
    simp only [ps, List.forall_mem_cons]
    exact ⟨hc, hoctave, .inl ⟨x, rfl⟩, List.forall_mem_nil _⟩
  have hapart : ps.Pairwise fun p q => ∀ x, p.1 = .var x → q.1 ≠ .var x :=
    List.Pairwise.of_map Prod.fst (fun _ _ h => h) hdistinct
  obtain ⟨t, hgoal, ht, hwalks, -⟩ :=
    (State.bare_empty space).conjoin_gives hvalues hopen hapart
  have hfixes : t.Fixes [c, octave, .var x] := by
    refine ⟨ht, fun u hu => ?_⟩
    obtain ⟨p, hp, rfl⟩ := List.mem_map.mp (show u ∈ ps.map Prod.fst from hu)
    exact ⟨p.2, hwalks p hp, (hvalues p hp).2⟩
  refine ⟨_, Goal.tabulates_of_one hgoal hfixes, j, v, o, n, ?_, ho, hin⟩
  simp only [ps, List.forall_mem_cons] at hwalks
  obtain ⟨hclass, hoct, hpitch, -⟩ := hwalks
  simp only [List.map_cons, List.map_nil, hclass, hoct, hpitch]

/-- The rows of an open pitch are places, unless the search fails before the first one. -/
theorem uniform_open (hclass : ∀ v, c = .val v → ∃ j, v = .pitchClass j)
    (hdistinct : Term.Distinct [c, octave, .var x]) (space : PitchSpace) :
    (solutions (Relation.note c octave (.var x)) [c, octave, .var x] space).Uniform describe
      fun s => space.Has s.pitch := by
  cases hgoal : Relation.noteIn (.empty space) c octave (.var x) with
  | error f =>
      refine .of_empty ?_
      rw [solutions, Goal.conjoin_cons, Relation.note, Goal.project, hgoal]
      rfl
  | ok g =>
      have hmade := hgoal
      rw [Relation.noteIn_open (s := .empty space) (x := x) rfl] at hmade
      obtain ⟨pairs, hpairs, hmade⟩ := bind_eq_ok.mp hmade
      obtain ⟨gs, hgs, hmade⟩ := bind_eq_ok.mp hmade
      cases hmade
      obtain ⟨rows, htabulates, hrows⟩ : ∃ rows, (Goal.disjoin gs).Tabulates (.empty space)
          [c, octave, .var x] rows ∧ ∀ row ∈ rows, IsPlace space row := by
        refine Goal.exists_tabulates_disjoin fun g hg => ?_
        obtain ⟨q, hq, j, n, hj, hn, rfl⟩ := Relation.mem_placements hgs hg
        obtain ⟨⟨i, hi, hc⟩, hoctave⟩ := candidates_given hclass hpairs q hq
        rw [hi] at hj ⊢
        cases hj
        exact placedAt_place hdistinct hc hoctave hn
      have hnote : (Relation.note c octave (.var x)).Tabulates (.empty space)
          [c, octave, .var x] rows := by
        rw [Goal.Tabulates, Relation.note, Goal.project, hgoal]
        exact htabulates
      obtain ⟨hending, hitems⟩ := Answers.all_eq_ok_iff.mp hnote.run
      exact .described hending fun row hrow => (hrows row (hitems ▸ hrow)).exists_describe

/-! ### Arguments -/

/-- The goal of a query is made of its arguments, which are read one after the other. -/
theorem goal_eq_ok {q : NoteQuery} {goal : Goal} {ts : List Term} {k m : Nat}
    (h : q.goal k = .ok ((goal, ts), m)) :
    ∃ c octave pitch k₁ k₂, Builder.pitchClass (.val q.pitchClass) k = .ok (c, k₁) ∧
      Builder.openOr (.val q.octave) k₁ = .ok (octave, k₂) ∧
      Builder.pitchArgument q.pitch k₂ = .ok (pitch, m) ∧
      goal = Relation.note c octave pitch ∧ ts = [c, octave, pitch] := by
  obtain ⟨⟨c, k₁⟩, hc, h⟩ := bind_eq_ok.mp h
  obtain ⟨⟨octave, k₂⟩, ho, h⟩ := bind_eq_ok.mp h
  obtain ⟨⟨pitch, k₃⟩, hp, h⟩ := bind_eq_ok.mp h
  cases h
  exact ⟨c, octave, pitch, k₁, k₂, hc, ho, hp, rfl, rfl⟩

/-- The rows of a note query are uniform. -/
theorem uniform {q : NoteQuery} {goal : Goal} {ts : List Term} {k m : Nat}
    (h : q.goal k = .ok ((goal, ts), m)) (space : PitchSpace) :
    (solutions goal ts space).Uniform describe fun s => space.Has s.pitch := by
  obtain ⟨c, octave, pitch, k₁, k₂, hc, ho, hp, rfl, rfl⟩ := goal_eq_ok h
  obtain ⟨hnumbers, hclass⟩ := Builder.pitchClass_numbers hc
  have hdistinct : Term.Distinct [c, octave, pitch] :=
    (Builder.InTurn.cons hnumbers (.cons (Builder.openOr_numbers ho)
      (.cons (Builder.pitchArgument_numbers hp) (.nil _)))).distinct
  cases pitch with
  | var x => exact uniform_open hclass hdistinct space
  | val p =>
      rcases lone_given c octave p space with hnone | ⟨row, hrow, ⟨a, b, rfl⟩, n, hp, hn⟩
      · exact .of_empty hnone
      · rw [hrow]
        cases hdescribe : describe [a, b, .val p] with
        | error f => exact .rejected (List.forall_mem_singleton.mpr ⟨f, hdescribe⟩)
        | ok s => exact .described rfl (List.forall_mem_singleton.mpr
            ⟨s, hdescribe, has_of_describe hp hn hdescribe⟩)

end NoteQuery

end Consonance
