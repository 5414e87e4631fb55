import Consonance.Proofs.Enumeration
import Consonance.Proofs.Numbering
import Consonance.Proofs.Untouched
import Consonance.Proofs.Weights

/-!
# Roles of variables

In a search over notes, intervals and chords each variable stands for a pitch class, an
octave, a pitch or a distance (`Role`).  The relations keep the variables that they have met
within the integers of their roles, and they meet a variable only by posting a constraint
that leaves it known or with a domain.  So the variables of a state are of two kinds
(`Setting.Poised`): those that goals have met, which are enclosed and keep their ranges, and
those to come, which are untouched.

The primitive goals keep a state poised, and find the assignments that meet their constraint
once each.  Assignments are compared by the variables that are asked for, since a chord may
have a root that is not (`Setting.Has`).
-/

namespace Consonance

/-- What a variable stands for. -/
inductive Role where
  | pitchClass
  | octave
  | pitch
  | distance
  deriving DecidableEq, Repr

namespace Role

/-- The integers that a search gives a variable of the role. -/
def Ranges (space : PitchSpace) : Role → Int → Prop
  | .pitchClass, n => 0 ≤ n ∧ n < 12
  | .octave, n => n ∈ space.octaves
  | .pitch, n => space.lowest ≤ n ∧ n ≤ space.highest
  | .distance, n => 0 ≤ n ∧ n ≤ space.span

/-- An integer as a search gives it to a term of the role. -/
def value : Role → Int → Value
  | .pitchClass, n => .pitchClass (.ofInt n)
  | _, n => .int n

theorem octave_ne : octave ≠ pitchClass := by decide

theorem pitch_ne : pitch ≠ pitchClass := by decide

theorem distance_ne : distance ≠ pitchClass := by decide

theorem value_of_ne {r : Role} (hr : r ≠ .pitchClass) (n : Int) : r.value n = .int n := by
  cases r with
  | pitchClass => exact absurd rfl hr
  | octave => rfl
  | pitch => rfl
  | distance => rfl

end Role

/-- What does not change along a search. -/
structure Setting where
  space : PitchSpace
  role : Var → Role
  /-- The variables that a query asks for. -/
  asked : Var → Prop
  /-- The integers that terms of a role may be. -/
  values : Role → Int → Prop
  /-- Integers among which are all that the search works with. -/
  integers : Int → Prop
  role_fresh : ∀ k, role (.fresh k) = .pitch
  not_asked_fresh : ∀ k, ¬ asked (.fresh k)
  values_of_ranges : ∀ (r : Role) n, r.Ranges space n → values r n
  integers_of_values : ∀ r n, values r n → integers n
  /-- The distances within an octave come from the qualities of chords. -/
  values_distance : ∀ n, 0 ≤ n → n ≤ 12 → values .distance n
  /-- A class in an octave is looked for even if it lies outside the space. -/
  integers_placed : ∀ (c : PitchClass) o, values .octave o → integers (c.toInt + 12 * (o + 1))

/-- The variable of a term joins a set of variables. -/
def Term.joins (t : Term) (V : Var → Prop) (x : Var) : Prop := t = .var x ∨ V x

@[simp] theorem Term.joins_val (v : Value) (V : Var → Prop) : (Term.val v).joins V = V :=
  funext fun _ => propext ⟨fun h => h.resolve_left nofun, .inr⟩

theorem Term.among_joins {I : Int → Prop} {t : Term} (h : t.Over I) (V : Var → Prop) :
    t.Among I (t.joins V) := by
  cases t with
  | var x => exact .inl rfl
  | val v => exact h

theorem Term.Among.joins {I : Int → Prop} {V : Var → Prop} {t : Term} (h : t.Among I V)
    (u : Term) : t.Among I (u.joins V) := by
  cases t with
  | var x => exact .inr h
  | val v => exact h

theorem Term.eval_numbered (t : Term) (ρ : Assignment) : t.numbered.eval ρ = t.eval ρ := by
  cases t with
  | var x => rfl
  | val v => cases v <;> rfl

namespace Setting

variable (σ : Setting)

/-- The variable stands for a class. -/
def Classes (x : Var) : Prop := σ.role x = .pitchClass

/-- A variable that a later goal may mention: one that is asked for, or one that is not made
yet. -/
def Spare (k : Nat) (x : Var) : Prop := σ.asked x ∨ ∃ j, k ≤ j ∧ x = .fresh j

/-- The term is a variable of the role that is asked for, or a value that the role admits. -/
def Plays (r : Role) : Term → Prop
  | .var x => σ.role x = r ∧ σ.asked x
  | .val v =>
    match r with
    | .pitchClass => ∃ c, v = .pitchClass c
    | r => ∃ n, v = .int n ∧ σ.values r n

/-- A state between two goals of a search.  Goals have met the variables of `V`, and the
variables from number `k` on are not made yet. -/
structure Poised (V : Var → Prop) (k : Nat) (s : State) : Prop where
  space : s.space = σ.space
  sorted : s.Sorted σ.Classes
  ready : s.numbered.Ready σ.integers V
  encloses : s.numbered.Encloses V
  asked : ∀ x, V x → σ.asked x
  /-- The variables that goals have met keep the ranges of their roles. -/
  ranges : ∀ x, V x → ∀ ρ, s.numbered.Fits ρ → (σ.role x).Ranges σ.space (ρ x)
  untouched : ∀ x, ¬ V x → σ.Spare k x → s.numbered.Untouched x

/-- The state has a solution that agrees with the assignment on the variables asked for. -/
def Has (s : State) (ρ : Assignment) : Prop :=
  ∃ ρ', (∀ x, σ.asked x → ρ' x = ρ x) ∧ s.numbered.Solution ρ'

/-- The property depends on the variables asked for only. -/
def Visible (P : Assignment → Prop) : Prop :=
  ∀ ρ ρ', (∀ x, σ.asked x → ρ' x = ρ x) → (P ρ' ↔ P ρ)

/-- The outcome of an operation on a poised state: a poised state that has exactly the
solutions with a property, or a failure of the branch when there are none. -/
def Outcome (W : Var → Prop) (k : Nat) (s : State) (P : Assignment → Prop) :
    Except Failure State → Prop
  | .ok t => σ.Poised W k t ∧ State.Advances σ.integers s.numbered t.numbered ∧
      ∀ ρ, t.numbered.Solution ρ ↔ s.numbered.Solution ρ ∧ P ρ
  | .error f => f.Blocked (Derived σ.integers) ∧ ∀ ρ, s.numbered.Solution ρ → ¬ P ρ

variable {σ} {V W : Var → Prop} {k j : Nat} {s t : State} {r : Role} {n : Int}
  {P : Assignment → Prop}

theorem integers_of_ranges (h : r.Ranges σ.space n) : σ.integers n :=
  σ.integers_of_values r n (σ.values_of_ranges r n h)

/-- An open pitch ranges over the space. -/
theorem mem_spaceDomain (hs : s.space = σ.space) :
    n ∈ s.spaceDomain ↔ Role.pitch.Ranges σ.space n := by
  rw [State.spaceDomain, Domain.mem_interval, hs]
  exact Iff.rfl

/-! ## Terms -/

/-- A constant of another role than that of a class is an integer. -/
theorem Plays.exists_int {v : Value} (h : σ.Plays r (.val v)) (hr : r ≠ .pitchClass) :
    ∃ n, v = .int n ∧ σ.values r n := by
  cases r with
  | pitchClass => exact absurd rfl hr
  | octave => exact h
  | pitch => exact h
  | distance => exact h

theorem Plays.numeric {a : Term} (h : σ.Plays r a) (hr : r ≠ .pitchClass) :
    a.Numeric σ.Classes := by
  cases a with
  | var x =>
      intro hx
      exact hr (h.1.symm.trans hx)
  | val v => exact (h.exists_int hr).imp fun n hn => ⟨hn.1, trivial⟩

theorem Plays.classed {a : Term} (h : σ.Plays .pitchClass a) : a.Classed σ.Classes := by
  cases a with
  | var x => exact h.1
  | val v => exact h

theorem Plays.isOver {a : Term} (h : σ.Plays r a) : a.numbered.Over σ.integers := by
  cases a with
  | var x => trivial
  | val v =>
      by_cases hr : r = .pitchClass
      · subst hr
        obtain ⟨c, rfl⟩ := h
        exact Term.over_int (integers_of_ranges (r := .pitchClass) ⟨c.toInt_nonneg, c.toInt_lt⟩)
      · obtain ⟨n, rfl, hn⟩ := h.exists_int hr
        exact Term.over_int (σ.integers_of_values _ n hn)

theorem Plays.eval_congr {a : Term} (h : σ.Plays r a) {ρ ρ' : Assignment}
    (hρ : ∀ x, σ.asked x → ρ' x = ρ x) : a.eval ρ' = a.eval ρ := by
  cases a with
  | var x => exact hρ x h.2
  | val v => rfl

/-! ## Operations -/

/-- An operation that posts a constraint keeps a state poised.  The variables that it mentions
are among those that goals have met, or are no longer to come. -/
theorem Poised.post (hs : σ.Poised V k s) {c : Constraint} {o : Except Failure State}
    (halike : Alike (State.NumberedAs σ.Classes) o (c.post s.numbered)) {X : Var → Prop}
    (hc : c.Among σ.integers X)
    (henters : s.numbered.Enters σ.integers c (c.enter s.numbered))
    (hposts : s.numbered.Posts σ.integers W (.posting c) (c.post s.numbered))
    (hencloses : ∀ t, c.post s.numbered = .ok t → t.Encloses W)
    (hasked : ∀ x, W x → σ.asked x)
    (hranges : ∀ x, W x → ∀ ρ, s.numbered.Fits ρ → (c.posted = [] → c.Holds ρ) →
      (σ.role x).Ranges σ.space (ρ x))
    (hspare : ∀ x, ¬ W x → σ.Spare j x → ¬ V x ∧ σ.Spare k x ∧ .var x ∉ c.terms) :
    σ.Outcome W j s (fun ρ => c.Holds ρ) o := by
  generalize hr : c.post s.numbered = r at halike hposts hencloses
  cases halike with
  | error f => exact hposts
  | deadEnd cause cause' => exact ⟨.deadEnd cause, hposts.2⟩
  | @ok t n related =>
      obtain ⟨hsorted, rfl⟩ := related
      refine ⟨⟨?_, hsorted, hposts.ready rfl, hencloses _ rfl, hasked, ?_, ?_⟩, ?_, ?_⟩
      · exact hposts.advances.space.trans hs.space
      · intro x hx ρ hρ
        obtain ⟨hfits, hholds⟩ := henters.fits hr hρ
        exact hranges x hx ρ hfits fun hnone => (hc.asks_iff _ ρ).mp (hholds hnone)
      · intro x hx hspare'
        obtain ⟨hV, hk, hterms⟩ := hspare x hx hspare'
        refine State.post_untouched hs.ready.wellFormed hc henters hr (hs.untouched x hV hk)
          hterms ?_
        exact fun d hd hmem => hV (hs.ready.among d hd _ hmem)
      · exact State.Reaches.advances hposts
      · exact State.Reaches.solution hposts

/-- Equating a term with an integer, or with a variable that goals have met. -/
theorem Poised.equate (hs : σ.Poised V k s) {a b : Term} {o : Except Failure State}
    (halike : Alike (State.NumberedAs σ.Classes) o (s.numbered.bind a b))
    (ha : a.Over σ.integers) (hb : b.Among σ.integers V)
    (hjoins : ∀ x, a = .var x → σ.asked x ∧
      ∀ ρ, s.numbered.Fits ρ → (σ.role x).Ranges σ.space (b.eval ρ)) :
    σ.Outcome (a.joins V) k s (fun ρ => a.eval ρ = b.eval ρ) o := by
  have henters := State.equate_enters hs.ready.wellFormed ha hb.isOver
  have haV := Term.among_joins ha V
  have hposts : s.numbered.Posts σ.integers (a.joins V) (.posting (.equal a b))
      (s.numbered.bind a b) ∧ ∀ t, s.numbered.bind a b = .ok t → t.Encloses (a.joins V) := by
    cases a with
    | var x => exact hs.ready.equate hs.encloses hb fun y => or_congr (by simp [eq_comm]) Iff.rfl
    | val v =>
        rw [Term.joins_val] at *
        have hpost := hs.ready.post (c := .equal (.val v) b) ⟨haV, hb⟩
        exact ⟨hpost, fun t => hpost.encloses hs.encloses⟩
  refine hs.post (c := .equal a b) halike ⟨haV, hb.joins a⟩ henters hposts.1 hposts.2 ?_ ?_ ?_
  · rintro x (rfl | hx)
    · exact (hjoins x rfl).1
    · exact hs.asked x hx
  · rintro x (rfl | hx) ρ hρ hholds
    · have heq : ρ x = b.eval ρ := hholds rfl
      rw [heq]
      exact (hjoins x rfl).2 ρ hρ
    · exact hs.ranges x hx ρ hρ
  · intro x hx hspare
    refine ⟨fun h => hx (.inr h), hspare, fun hmem => ?_⟩
    simp only [Constraint.terms, List.mem_cons, List.not_mem_nil, or_false] at hmem
    rcases hmem with rfl | rfl
    · exact hx (.inl rfl)
    · exact hx (.inr hb)

/-- A term is given an integer of its role where the integer itself is given. -/
theorem Poised.give_numbered (hs : σ.Poised V k s) {a : Term} (ha : σ.Plays r a)
    (hn : r.Ranges σ.space n) :
    Alike (State.NumberedAs σ.Classes) (s.bind a (.val (r.value n)))
      (s.numbered.bind a.numbered (.int n)) := by
  by_cases hr : r = .pitchClass
  · subst hr
    have hclass := State.bind_class_numbered hs.sorted ha.classed (.ofInt n)
    rwa [PitchClass.toInt_ofInt, Int.emod_eq_of_lt hn.1 hn.2] at hclass
  · rw [Role.value_of_ne hr, (ha.numeric hr).numbered]
    exact State.bind_numbered hs.sorted (ha.numeric hr) (Term.numeric_int _ n)

/-- Giving a term an integer of its role. -/
theorem Poised.give (hs : σ.Poised V k s) {a : Term} (ha : σ.Plays r a)
    (hn : r.Ranges σ.space n) :
    σ.Outcome (a.joins V) k s (fun ρ => a.eval ρ = n) (s.bind a (.val (r.value n))) := by
  have hjoins : a.numbered.joins V = a.joins V := by
    cases a with
    | var x => rfl
    | val v => rw [Term.joins_val, Term.numbered, Term.joins_val]
  have hrange : ∀ x, a.numbered = .var x → σ.asked x ∧
      ∀ ρ, s.numbered.Fits ρ → (σ.role x).Ranges σ.space ((Term.int n).eval ρ) := by
    intro x hx
    cases a with
    | val v => cases hx
    | var y =>
        cases hx
        exact ⟨ha.2, fun ρ _ => ha.1.symm ▸ hn⟩
  have hequate := hs.equate (hs.give_numbered ha hn) ha.isOver
    ⟨n, rfl, integers_of_ranges hn⟩ hrange
  simp only [hjoins, Term.eval_numbered, Term.eval_int] at hequate
  exact hequate

/-- Restricting a term to integers of its role. -/
theorem Poised.within (hs : σ.Poised V k s) {a : Term} (ha : σ.Plays r a) (hr : r ≠ .pitchClass)
    {d : Domain} (hd : d.Integral) (hrange : ∀ n : Int, n ∈ d → r.Ranges σ.space n) :
    σ.Outcome (a.joins V) k s (fun ρ => a.eval ρ ∈ d) (s.restrict a (.domain d)) := by
  have hover : (Allowed.domain d).Over σ.integers :=
    ⟨hd, fun n hn => integers_of_ranges (hrange n hn)⟩
  have hnumbered := (ha.numeric hr).numbered
  have haover : a.Over σ.integers := hnumbered ▸ ha.isOver
  have haV := Term.among_joins haover V
  have hscoped : (Constraint.restricted a (.domain d)).Scoped σ.integers s.numbered :=
    ⟨haover, hover, nofun⟩
  have hposts : s.numbered.Posts σ.integers (a.joins V) (.posting (.restricted a (.domain d)))
      (s.numbered.restrict a (.domain d)) ∧
      ∀ t, s.numbered.restrict a (.domain d) = .ok t → t.Encloses (a.joins V) := by
    cases a with
    | var x =>
        exact hs.ready.restrict hs.encloses hover id fun y => or_congr (by simp [eq_comm]) Iff.rfl
    | val v =>
        rw [Term.joins_val] at *
        have hpost := hs.ready.post (c := .restricted (.val v) (.domain d)) ⟨haV, hover, id⟩
        exact ⟨hpost, fun t => hpost.encloses hs.encloses⟩
  refine hs.post (c := .restricted a (.domain d))
    (State.restrict_numbered hs.sorted (ha.numeric hr) hd) ⟨haV, hover, id⟩
    (State.enter_spec hs.ready.wellFormed hscoped) hposts.1 hposts.2 ?_ ?_ ?_
  · rintro x (rfl | hx)
    · exact ha.2
    · exact hs.asked x hx
  · rintro x (rfl | hx) ρ hρ hholds
    · rw [ha.1]
      exact hrange _ (hholds rfl)
    · exact hs.ranges x hx ρ hρ
  · intro x hx hspare
    refine ⟨fun h => hx (.inr h), hspare, fun hmem => hx (.inl ?_)⟩
    exact (List.mem_singleton.mp hmem).symm

/-- Posting a difference of terms that goals have met. -/
theorem Poised.difference (hs : σ.Poised V k s) {a b d : Term}
    (hnumeric : ∀ t ∈ [a, b, d], t.Numeric σ.Classes)
    (hamong : ∀ t ∈ [a, b, d], t.Among σ.integers V) :
    σ.Outcome V k s (fun ρ => a.eval ρ - b.eval ρ = d.eval ρ) (s.assertDifference a b d) := by
  obtain ⟨ha, hb, hd, -⟩ : _ ∧ _ ∧ _ ∧ _ := by simpa only [List.forall_mem_cons] using hnumeric
  have hc : (Constraint.apart a b d).Among σ.integers V := by
    obtain ⟨ha, hb, hd, -⟩ : _ ∧ _ ∧ _ ∧ _ := by simpa only [List.forall_mem_cons] using hamong
    exact ⟨ha, hb, hd⟩
  have hpost := hs.ready.post hc
  have hscoped : (Constraint.apart a b d).Scoped σ.integers s.numbered :=
    ⟨hs.ready.scoped hc.1, hs.ready.scoped hc.2.1, hs.ready.scoped hc.2.2⟩
  refine hs.post (c := .apart a b d) (State.assertDifference_numbered hs.sorted ha hb hd) hc
    (State.enter_spec hs.ready.wellFormed hscoped) hpost (fun t => hpost.encloses hs.encloses)
    hs.asked ?_ ?_
  · exact fun x hx ρ hρ _ => hs.ranges x hx ρ hρ
  · exact fun x hx hspare => ⟨hx, hspare, fun hmem => hx (hamong _ hmem)⟩

/-! ## Assignments of the variables asked for -/

variable (σ) in
/-- The goal finds the assignments of the variables asked for as often as its weight says. -/
abbrev Weighs (S : State → Prop) (g : Goal) (T : State → Prop) (m : Assignment → Nat) : Prop :=
  g.Weighs (Derived σ.integers) σ.Has S T m

variable (σ) in
/-- Goals have met the variables of `H`, and the variables from number `k` on are not made
yet. -/
def Meets (H : Var → Prop) (k : Nat) (s : State) : Prop :=
  ∃ V, (∀ x, H x → V x) ∧ σ.Poised V k s

theorem Meets.space {H : Var → Prop} (h : σ.Meets H k s) : s.space = σ.space :=
  h.elim fun _ hV => hV.2.space

theorem Meets.mono {H K : Var → Prop} (h : σ.Meets H k s) (hK : ∀ x, K x → H x) :
    σ.Meets K k s :=
  h.imp fun _ hV => ⟨fun x hx => hV.1 x (hK x hx), hV.2⟩

theorem Outcome.finds {o : Except Failure State} (h : σ.Outcome W k s P o) (hP : σ.Visible P)
    {T : State → Prop} (hT : ∀ t, o = .ok t → σ.Poised W k t →
      State.Advances σ.integers s.numbered t.numbered → T t) :
    s.Finds (Derived σ.integers) σ.Has P T o := by
  cases o with
  | ok t =>
      obtain ⟨hpoised, hadvances, hsolution⟩ := h
      refine ⟨hT t rfl hpoised hadvances, fun ρ => ⟨?_, ?_⟩⟩
      · rintro ⟨ρ', hagree, hρ'⟩
        obtain ⟨hs, hholds⟩ := (hsolution ρ').mp hρ'
        exact ⟨⟨ρ', hagree, hs⟩, (hP ρ ρ' hagree).mp hholds⟩
      · rintro ⟨⟨ρ', hagree, hs⟩, hholds⟩
        exact ⟨ρ', hagree, (hsolution ρ').mpr ⟨hs, (hP ρ ρ' hagree).mpr hholds⟩⟩
  | error f =>
      refine ⟨h.1, fun ρ hρ hholds => ?_⟩
      obtain ⟨ρ', hagree, hs⟩ := hρ
      exact h.2 ρ' hs ((hP ρ ρ' hagree).mpr hholds)

/-! ## A root that is made for a chord -/

theorem Poised.fresh_unmet (hs : σ.Poised V k s) : ¬ V (.fresh k) :=
  fun h => σ.not_asked_fresh k (hs.asked _ h)

/-- Whatever a voice is, the root can be the same. -/
theorem Poised.extends_fresh (hs : σ.Poised V k s) {b : Term} (hb : b.Among σ.integers V)
    {ρ : Assignment} (hρ : s.numbered.Solution ρ) :
    s.numbered.Solution (Function.update ρ (.fresh k) (b.eval ρ)) ∧
      Function.update ρ (.fresh k) (b.eval ρ) (.fresh k) =
        b.eval (Function.update ρ (.fresh k) (b.eval ρ)) := by
  have hV := hs.fresh_unmet
  have hne : b ≠ .var (.fresh k) := fun heq => hV (by rw [heq] at hb; exact hb)
  have huntouched := hs.untouched (.fresh k) hV (.inr ⟨k, Nat.le_refl k, rfl⟩)
  refine ⟨huntouched.solution hs.ready.wellFormed.coherent (fun d hd hmem => ?_) hρ _, ?_⟩
  · exact hV (hs.ready.among d hd _ hmem)
  · rw [Function.update_self, Term.eval_update hne]

/-- Equating the root with a voice. -/
theorem Poised.equate_fresh (hs : σ.Poised V k s) {b : Term} (hb : b.Among σ.integers V)
    (hnumeric : b.Numeric σ.Classes) :
    σ.Outcome V (k + 1) s (fun ρ => ρ (.fresh k) = b.eval ρ) (s.bind (.var (.fresh k)) b) := by
  have hroot : (Term.var (.fresh k)).Numeric σ.Classes := by
    intro hclass
    rw [Classes, σ.role_fresh] at hclass
    cases hclass
  have halike := State.bind_numbered hs.sorted hroot hnumeric
  have henters := State.equate_enters (a := .var (.fresh k)) hs.ready.wellFormed trivial hb.isOver
  obtain ⟨hposts, -⟩ := hs.ready.equate hs.encloses hb (x := .fresh k) fun _ => Iff.rfl
  have hkeep := hposts.keep hs.ready hs.encloses nofun
  refine hs.post (c := .equal (.var (.fresh k)) b) (X := fun x => x = .fresh k ∨ V x) halike
    ⟨.inl rfl, ?_⟩ henters hkeep (fun t => hkeep.encloses hs.encloses) hs.asked ?_ ?_
  · cases b with
    | var y => exact .inr hb
    | val v => exact hb
  · exact fun x hx ρ hρ _ => hs.ranges x hx ρ hρ
  · intro x hx hspare
    refine ⟨hx, hspare.imp id fun ⟨j, hj, heq⟩ => ⟨j, by omega, heq⟩, fun hmem => ?_⟩
    simp only [Constraint.terms, List.mem_cons, List.not_mem_nil, or_false] at hmem
    rcases hmem with heq | heq
    · cases heq
      rcases hspare with hasked | ⟨j, hj, heq⟩
      · exact σ.not_asked_fresh k hasked
      · cases heq
        omega
    · exact hx (by rw [← heq] at hb; exact hb)

/-- The root is one of the voices, which excludes no assignment. -/
theorem Poised.fresh (hs : σ.Poised V k s) {b : Term} (hb : b.Among σ.integers V)
    (hnumeric : b.Numeric σ.Classes) :
    s.Finds (Derived σ.integers) σ.Has (fun _ => True) (σ.Poised V (k + 1))
      (s.bind (.var (.fresh k)) b) := by
  have houtcome := hs.equate_fresh hb hnumeric
  cases hr : s.bind (.var (.fresh k)) b with
  | ok t =>
      rw [hr] at houtcome
      obtain ⟨hpoised, -, hsolution⟩ := houtcome
      refine ⟨hpoised, fun ρ => ⟨?_, ?_⟩⟩
      · rintro ⟨ρ', hagree, hρ'⟩
        exact ⟨⟨ρ', hagree, ((hsolution ρ').mp hρ').1⟩, trivial⟩
      · rintro ⟨⟨ρ', hagree, hρ'⟩, -⟩
        refine ⟨_, fun x hx => ?_, (hsolution _).mpr (hs.extends_fresh hb hρ')⟩
        have hx' : x ≠ .fresh k := fun heq => σ.not_asked_fresh k (heq ▸ hx)
        rw [Function.update_of_ne hx', hagree x hx]
  | error f =>
      rw [hr] at houtcome
      refine ⟨houtcome.1, fun ρ hρ _ => ?_⟩
      obtain ⟨ρ', -, hρ'⟩ := hρ
      obtain ⟨hsolution, heq⟩ := hs.extends_fresh hb hρ'
      exact houtcome.2 _ hsolution heq

end Setting

end Consonance
