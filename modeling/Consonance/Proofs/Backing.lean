import Consonance.Proofs.Enumeration
import Consonance.Proofs.Splitting

/-!
# Queries that leave variables out

A search labels the queried terms only.  Differences between other variables may still
be suspended when a row is given, and nothing looks at them afterwards.  So a row need
not belong to an assignment that satisfies the formula.

It does exactly when the differences that are left in a final state with this row can be
met inside the domains of the state (`State.Final`).  A query for all but one of the open
terms of each difference leaves none, and then every row belongs to a satisfying
assignment.

The states of the search are bounded (`State.Bounded`), and labelling terms that have domains
keeps to the same integers (`Bounded.arises_labelling`).  So a search that fails has met an
integer of too many digits within as many rounds of sums and differences as there are
variables, and one more.
-/

namespace Consonance

open State Formula

/-- The states in which a search ends. -/
def finalStates (goal : Goal) (query : List Term) (space : PitchSpace) : Answers State :=
  Goal.conjoin [goal, .label query] (.empty space)

/-- The term is an integer or queried. -/
def Term.Asked (query : List Term) (t : Term) : Prop := ∀ x, t = .var x → t ∈ query

/-- All terms but one are integers or queried. -/
def Difference.Asked (query : List Term) (c : Difference) : Prop :=
  (c.minuend.Asked query ∧ c.subtrahend.Asked query) ∨
    (c.minuend.Asked query ∧ c.distance.Asked query) ∨
      (c.subtrahend.Asked query ∧ c.distance.Asked query)

/-- The row belongs to an assignment that satisfies the formula. -/
def Formula.Backs (f : Formula) (query : List Term) (row : Row) : Prop :=
  ∃ ρ, f.Holds ρ ∧ row = query.map fun t => .int (t.eval ρ)

namespace State

/-- What a final state holds: the assignments that satisfy a branch and have its row.  It
leaves no differences but those of the branch. -/
structure Final (f : Formula) (query : List Term) (u : State) (b : List Formula) (row : List Int) :
    Prop where
  branch : b ∈ f.branches
  ready : u.Ready (fun _ => True) fun _ => True
  known : query.map u.walk = row.map Term.int
  /-- The solutions are those of the branch with the row. -/
  solution : ∀ ρ, u.Solution ρ ↔ Together b ρ ∧ query.map (Term.eval ρ) = row
  suspended : ∀ c ∈ u.differences, .difference c.minuend c.subtrahend c.distance ∈ b

variable {f : Formula} {query : List Term} {u : State} {b : List Formula} {row : List Int}

theorem Final.row_eq (h : u.Final f query b row) {ρ : Assignment} (hρ : u.Solution ρ) :
    query.map u.walk = query.map fun t => .int (t.eval ρ) := by
  rw [h.known, ← ((h.solution ρ).mp hρ).2, List.map_map]
  rfl

/-- A solution of a final state backs its row. -/
theorem Final.backs (h : u.Final f query b row) {I : Int → Prop} {V : Var → Prop}
    (hf : f.Arithmetic I V) {ρ : Assignment} (hρ : u.Solution ρ) :
    f.Backs query (query.map u.walk) :=
  ⟨ρ, hf.holds_iff.mpr ⟨b, h.branch, ((h.solution ρ).mp hρ).1⟩, h.row_eq hρ⟩

/-- A term that is asked for is known in the end. -/
theorem Final.walk_asked (h : u.Final f query b row) {t : Term} (ht : t.Asked query) :
    (u.walk t).isVar = false := by
  cases t with
  | val v => rw [State.walk, Substitution.walk_val, Term.isVar]
  | var x =>
      have hmem : u.walk (.var x) ∈ row.map Term.int :=
        h.known ▸ List.mem_map.mpr ⟨_, ht x rfl, rfl⟩
      obtain ⟨n, -, hn⟩ := List.mem_map.mp hmem
      rw [← hn, Term.isVar]

/-- A difference with one open term at most is not left. -/
theorem Final.not_asked (h : u.Final f query b row) {c : Difference} (hc : c ∈ u.differences) :
    ¬ c.Asked query := by
  have htwo := h.ready.settled c hc
  rw [State.openTerms_eq] at htwo
  have hone : ∀ t, (u.walk t).isVar.toNat ≤ 1 := fun t => Bool.toNat_le _
  rintro (⟨h₁, h₂⟩ | ⟨h₁, h₂⟩ | ⟨h₁, h₂⟩)
  · rw [h.walk_asked h₁, h.walk_asked h₂, Bool.toNat_false] at htwo
    have := hone c.distance
    omega
  · rw [h.walk_asked h₁, h.walk_asked h₂, Bool.toNat_false] at htwo
    have := hone c.subtrahend
    omega
  · rw [h.walk_asked h₁, h.walk_asked h₂, Bool.toNat_false] at htwo
    have := hone c.minuend
    omega

/-- A final state without differences has a solution. -/
theorem Final.exists_solution (h : u.Final f query b row) (hnone : u.differences = []) :
    ∃ ρ, u.Solution ρ := by
  obtain ⟨ρ, hρ⟩ := h.ready.wellFormed.coherent.exists_fits
  exact ⟨ρ, hρ, by simp [hnone]⟩

end State

/-- Every branch restricts every variable that is queried. -/
def Formula.Restricts (f : Formula) (query : List Term) : Prop :=
  ∀ b ∈ f.branches, ∀ x, .var x ∈ query → ∃ a, .inDomain (.var x) a ∈ b

namespace State

variable {f : Formula} {query : List Term} {t u : State} {b : List Formula} {row : List Int}
  {space : PitchSpace}

/-- Labelling a state that was reached for a branch ends in a final state of the branch. -/
theorem Labelled.final (hb : b ∈ f.branches)
    (ht : (empty space).Reaches (fun _ => True) (fun _ => True) (alternative b) t)
    (hu : t.Labelled (fun _ => True) (fun _ => True) query u row) : u.Final f query b row := by
  refine ⟨hb, hu.reaches.ready, hu.known, fun ρ => ?_, fun c hc => ?_⟩
  · refine (hu.reaches.solution ρ).trans (and_congr_left' ?_)
    exact (ht.solution ρ).trans (and_iff_right (empty_solution space ρ))
  · have hct := (hu.reaches.suspended c hc).resolve_right id
    exact (ht.suspended c hct).resolve_left nofun

/-- A branch that restricts the queried variables leaves none of them without a domain. -/
theorem Reaches.confined_query
    (ht : (empty space).Reaches (fun _ => True) (fun _ => True) (alternative b) t)
    (hrestricts : ∀ x, .var x ∈ query → ∃ a, .inDomain (.var x) a ∈ b) :
    ∀ a ∈ query, t.Confined a := by
  intro a ha
  cases a with
  | val v => exact fun y hy => nomatch (Substitution.walk_val _ _).symm.trans hy
  | var x => exact ht.confined x (hrestricts x ha)

/-! ## Integers that arise -/

variable {I : Int → Prop} {xs : List Var} {s : State} {a : Term} {ts : List Term} {k : Nat}
  {n : Int}

/-- A term that is known or has a domain is tried with integers of the state. -/
theorem Coherent.mem_of_candidates (hs : s.Coherent I) (ha : a.Over I) (hconfined : s.Confined a)
    {values : List Value} (h : s.candidates a = .ok values) (hn : .int n ∈ values) : I n := by
  cases hw : s.walk a with
  | val v =>
      obtain ⟨m, rfl, hm⟩ := hs.walk_int (fun _ h => h) ha hw
      simp only [candidates, hw] at h
      cases h
      cases List.mem_singleton.mp hn
      exact hm
  | var x =>
      obtain ⟨d, hd⟩ := hconfined x hw
      have hover := hs.domains x d hd
      simp only [candidates, hw, hd, Option.getD_some, hover.integral.toList] at h
      cases h
      exact hover.mem n hn

/-- So what is tried posts a constraint over integers of the state. -/
theorem Bounded.tried (hs : s.Bounded I xs k) (hts : ∀ b ∈ a :: ts, b.Among I (· ∈ xs))
    (hconfined : ∀ b ∈ a :: ts, s.Confined b) {values : List Value}
    (h : s.candidates a = .ok values) (hn : .int n ∈ values) :
    (Constraint.equal a (.int n)).Among (Rounds I k) (· ∈ xs) := by
  have ha := (List.forall_mem_cons.mp hts).1.rounds k
  have hconf := (List.forall_mem_cons.mp hconfined).1
  exact ⟨ha, n, rfl, hs.coherent.mem_of_candidates ha.isOver hconf h hn⟩

/-- Labelling terms that are known or have domains makes no integers but those of propagation. -/
theorem Bounded.arises_labelling (hs : s.Bounded I xs k) (hts : ∀ a ∈ ts, a.Among I (· ∈ xs))
    (hconfined : ∀ a ∈ ts, s.Confined a) (h : s.Arises ts n) : Rounds I (xs.length + 1) n := by
  induction h generalizing k with
  | occurs occurs => exact .same ((hs.occurs occurs).le hs.le)
  | listed =>
      obtain ⟨m, hm, hI⟩ := (List.forall_mem_cons.mp hts).1
      cases hm
      exact Rounds.le (j := 0) hI (Nat.zero_le _)
  | tried candidates mem =>
      have htried := hs.tried hts hconfined candidates mem
      exact hs.arises htried (.listed (List.mem_cons_of_mem _ (List.mem_singleton_self _)))
  | involved candidates mem entered involves =>
      exact hs.arises (hs.tried hts hconfined candidates mem) (.involved entered involves)
  | @later s u t ts m n values candidates mem taken _ ih =>
      have htried := hs.tried hts hconfined candidates mem
      obtain ⟨j, -, hu⟩ := hs.post htried taken
      have htakes := post_takes hs.wellFormed (htried.integral.scoped s)
      rw [Constraint.post, taken] at htakes
      refine ih hu (List.forall_mem_cons.mp hts).2 fun b hb => ?_
      exact htakes.2.1.confined ((List.forall_mem_cons.mp hconfined).2 b hb)

end State

/-- The final states of a search hold the satisfying assignments: each belongs to a branch, and
no assignment is left out. -/
theorem Formula.final_gives {I : Int → Prop} {xs : List Var} {f : Formula}
    (hf : f.Arithmetic I (· ∈ xs)) {query : List Term} (hquery : ∀ t ∈ query, t.Among I (· ∈ xs))
    (hrestricts : f.Restricts query) :
    ∃ goal : Goal, f.goal = .ok goal ∧ ∀ space : PitchSpace,
      (finalStates goal query space).Gives (Failure.Unwritable (Rounds I (xs.length + 1)))
        (fun u => u.Ready (fun _ => True) fun _ => True)
        fun us =>
          (∀ u ∈ us, ∃ b row, u.Final f query b row) ∧
          ∀ ρ, f.Holds ρ → ∃ u ∈ us, u.Solution ρ ∧
            query.map u.walk = query.map fun t => .int (t.eval ρ) := by
  let K : State → Prop := fun s => ∃ k, s.Bounded I xs k
  obtain ⟨goal, hbuild, hfollows⟩ :=
    hf.builds (J := Rounds I (xs.length + 1)) (K := K) (I := fun _ => True) (V := fun _ => True)
      (fun c hc => hc.mono (fun _ _ => trivial) fun _ _ => trivial)
      fun c hc s _ hs => Bounded.kept hs hc
  refine ⟨goal, ?_, fun space => ?_⟩
  · show (f.build 0 >>= fun r => pure r.1) = _
    rw [hbuild 0]
    rfl
  · have hamong : ∀ t ∈ query, t.Among (fun _ => True) fun _ => True := fun t ht =>
      (hquery t ht).mono (fun _ _ => trivial) fun _ _ => trivial
    have hempty : (State.empty space).Ready (fun _ => True) fun _ => True :=
      empty_ready space (.inl fun _ => trivial)
    have hfirst := hfollows _ hempty ⟨0, bounded_empty I xs space⟩
    have hlabel : ∀ t,
        (State.empty space).ReachesSome K (fun _ => True) (fun _ => True) f.branches t →
        (Goal.label query t).Gives (Failure.Unwritable (Rounds I (xs.length + 1)))
          (State.Ready (fun _ => True) fun _ => True)
          fun us => ∃ rows, t.Labels (fun _ => True) (fun _ => True) query us rows := by
      rintro t ⟨⟨k, hk⟩, b, hb, ht⟩
      have hgives := Goal.label_gives ht.ready hamong
      refine ⟨hgives.each, hgives.together, fun e he => ?_⟩
      have hconfined := ht.confined_query (hrestricts b hb)
      exact (Goal.label_failure ht.ready hamong he).mono fun n hn =>
        hk.arises_labelling hquery hconfined hn
    rw [finalStates, Goal.conjoin_cons]
    refine (hfirst.bind hlabel).mono fun us hus => ?_
    obtain ⟨ts, uss, hts, huss, rfl⟩ := hus
    refine ⟨fun u hu => ?_, fun ρ hρ => ?_⟩
    · obtain ⟨us, hus, hu⟩ := List.mem_flatten.mp hu
      obtain ⟨t, ht, rows, hlabels⟩ := exists_of_forall₂ huss hus
      obtain ⟨A, hA, hreaches⟩ := hts.exists_alternative ht
      obtain ⟨b, hb, rfl⟩ := List.mem_map.mp hA
      obtain ⟨row, -, hlabelled⟩ := exists_of_forall₂ hlabels.labelled.flip hu
      exact ⟨b, row, hlabelled.final hb hreaches⟩
    · obtain ⟨b, hb, hbρ⟩ := hf.holds_iff.mp hρ
      obtain ⟨t, ht, hreaches⟩ := hts.exists_state (List.mem_map.mpr ⟨b, hb, rfl⟩)
        (empty_solution space ρ) hbρ
      obtain ⟨us, hus, rows, hlabels⟩ := exists_of_forall₂ huss.flip ht
      have htρ : t.Solution ρ := (hreaches.solution ρ).mpr ⟨empty_solution space ρ, hbρ⟩
      have hpitched : t.Pitched query ρ := fun a ha hbare =>
        absurd (hreaches.confined_query (hrestricts b hb) a ha) hbare
      obtain ⟨u, hu, hlabelled⟩ := exists_of_forall₂ hlabels.labelled
        (hlabels.complete ρ htρ hpitched)
      refine ⟨u, List.mem_flatten.mpr ⟨us, hus, hu⟩, ?_, ?_⟩
      · exact (hlabelled.reaches.solution ρ).mpr ⟨htρ, rfl⟩
      · rw [hlabelled.known, List.map_map]
        rfl

/-- A row of a query belongs to a satisfying assignment when the differences that are left in
some final state with this row can be met inside the domains of the state.  Every satisfying
assignment has its row.  If the query asks for all but one term of each difference, no
difference is left, and every row belongs to a satisfying assignment.

The query fails only if an integer of too many digits would have to be written.  A difference
can be posted before its variables are restricted, so sums of sums come up: `a - b = d` and
`c - a = a` with `b = d = n` make `c` the integer `4 * n`.  But there are no more rounds of them
than there are variables, and one for the failure. -/
theorem Formula.run_backed_iff {I : Int → Prop} {xs : List Var} {f : Formula}
    (hf : f.Arithmetic I (· ∈ xs)) {query : List Term} (hquery : ∀ t ∈ query, t.Among I (· ∈ xs))
    (hrestricts : f.Restricts query) (space : PitchSpace) :
    (f.run query .nothing space = .error (.invalid .unwritable) ∧
        ∃ n, Rounds I (xs.length + 1) n ∧ Number.isWritable n = false) ∨
      ∃ goal us, f.goal = .ok goal ∧ us = (finalStates goal query space).items ∧
        f.run query .nothing space = .ok (us.map fun u => query.map u.walk) ∧
        (∀ row, f.Backs query row ↔ ∃ u ∈ us, query.map u.walk = row ∧
          ∃ ρ, u.Fits ρ ∧ ∀ c ∈ u.differences, c.Holds ρ) ∧
        ((∀ b ∈ f.branches, ∀ c : Difference,
            .difference c.minuend c.subtrahend c.distance ∈ b → c.Asked query) →
          ∀ u ∈ us, u.differences = [] ∧ f.Backs query (query.map u.walk)) := by
  obtain ⟨goal, hgoal, hgives⟩ := final_gives hf hquery hrestricts
  have hrun : f.run query .nothing space =
      ((finalStates goal query space).map fun u => query.map u.walk).all := by
    simp only [Formula.run, hgoal]
    rfl
  have hsearch := hgives space
  rw [hrun, Answers.all_eq, Answers.ending_map, Answers.items_map]
  cases hend : (finalStates goal query space).ending with
  | some e =>
      obtain ⟨rfl, hlong⟩ := hsearch.failure e hend
      exact .inl ⟨rfl, hlong⟩
  | none =>
      obtain ⟨hfinal, hcomplete⟩ := hsearch.together hend
      refine .inr ⟨goal, _, hgoal, rfl, rfl, fun row => ⟨?_, ?_⟩, fun hasked u hu => ?_⟩
      · rintro ⟨ρ, hρ, rfl⟩
        obtain ⟨u, hu, huρ, hrow⟩ := hcomplete ρ hρ
        exact ⟨u, hu, hrow, ρ, huρ.fits, huρ.differences⟩
      · rintro ⟨u, hu, rfl, ρ, hfits, hdiffs⟩
        obtain ⟨b, row, hfin⟩ := hfinal u hu
        exact hfin.backs hf ⟨hfits, hdiffs⟩
      · obtain ⟨b, row, hfin⟩ := hfinal u hu
        have hnone : u.differences = [] := by
          refine List.eq_nil_iff_forall_not_mem.mpr fun c hc => hfin.not_asked hc ?_
          exact hasked b hfin.branch c (hfin.suspended c hc)
        obtain ⟨ρ, hρ⟩ := hfin.exists_solution hnone
        exact ⟨hnone, hfin.backs hf hρ⟩

/-- Two variables that are never five apart, and a third one that has nothing to do with them. -/
def Formula.farApart : Formula :=
  .conjoin [.inDomain (.var (.named "x")) (.values [.int 0, .int 1]),
    .inDomain (.var (.named "y")) (.values [.int 0, .int 1]),
    .inDomain (.var (.named "d")) (.values [.int 5, .int 6]),
    .inDomain (.var (.named "z")) (.values [.int 1, .int 2]),
    .difference (.var (.named "x")) (.var (.named "y")) (.var (.named "d"))]

/-- The state in which all parts are posted. -/
def State.farApart : State :=
  ⟨[], [(.named "x", ⟨[.int 0, .int 1]⟩), (.named "y", ⟨[.int 0, .int 1]⟩),
      (.named "d", ⟨[.int 5, .int 6]⟩), (.named "z", ⟨[.int 1, .int 2]⟩)],
    [⟨.var (.named "x"), .var (.named "y"), .var (.named "d")⟩], .midi⟩

theorem Formula.goal_farApart :
    ∃ goal : Goal, farApart.goal = .ok goal ∧ goal (.empty .midi) = .one .farApart := by
  let x : Term := .var (.named "x")
  let y : Term := .var (.named "y")
  let d : Term := .var (.named "d")
  let z : Term := .var (.named "z")
  let s₁ : State := (State.empty .midi).put (.named "x") ⟨[.int 0, .int 1]⟩
  let s₂ : State := s₁.put (.named "y") ⟨[.int 0, .int 1]⟩
  let s₃ : State := s₂.put (.named "d") ⟨[.int 5, .int 6]⟩
  let s₄ : State := s₃.put (.named "z") ⟨[.int 1, .int 2]⟩
  have h₁ : Goal.inDomain x (.values [.int 0, .int 1]) (.empty .midi) = .one s₁ :=
    Goal.lift_of_ok (State.propagate_of_open (s := s₁) nofun)
  have h₂ : Goal.inDomain y (.values [.int 0, .int 1]) s₁ = .one s₂ :=
    Goal.lift_of_ok (State.propagate_of_open (s := s₂) nofun)
  have h₃ : Goal.inDomain d (.values [.int 5, .int 6]) s₂ = .one s₃ :=
    Goal.lift_of_ok (State.propagate_of_open (s := s₃) nofun)
  have h₄ : Goal.inDomain z (.values [.int 1, .int 2]) s₃ = .one s₄ :=
    Goal.lift_of_ok (State.propagate_of_open (s := s₄) nofun)
  -- No term of the difference is known, so it waits.
  have h₅ : Goal.difference x y d s₄ = .one .farApart :=
    Goal.lift_of_ok (State.propagate_of_open (s := .farApart) (by decide))
  refine ⟨Goal.conjoin [.inDomain x (.values [.int 0, .int 1]),
    .inDomain y (.values [.int 0, .int 1]), .inDomain d (.values [.int 5, .int 6]),
    .inDomain z (.values [.int 1, .int 2]), .difference x y d], rfl, ?_⟩
  rw [Goal.conjoin_cons, h₁, Answers.one_bind, Goal.conjoin_cons, h₂, Answers.one_bind,
    Goal.conjoin_cons, h₃, Answers.one_bind, Goal.conjoin_cons, h₄, Answers.one_bind]
  exact h₅

/-- The third variable takes both of its values, and the difference waits still. -/
theorem State.eq_farApart {n : Int} (hn : n = 1 ∨ n = 2) :
    Goal.eq (.var (.named "z")) (.int n) farApart =
      .one (farApart.addBinding (.named "z") (.int n)) := by
  have hcontains : (Domain.mk [.int 1, .int 2]).contains (.int n) = .ok true := by
    rcases hn with rfl | rfl <;> simp [Domain.contains, Value.requireMember]
  have hvalue : farApart.bindValue (.named "z") (.int n) =
      .ok (farApart.addBinding (.named "z") (.int n)) := by
    have hstored : farApart.stored? (.named "z") = some ⟨[.int 1, .int 2]⟩ := rfl
    simp only [bindValue, hstored, hcontains]
    rfl
  refine Goal.lift_of_ok ?_
  show (farApart.bindValue (.named "z") (.int n) >>= propagate) = _
  rw [hvalue]
  refine propagate_of_open ?_
  rcases hn with rfl | rfl <;> decide

theorem Formula.run_farApart :
    farApart.run [.var (.named "z")] .nothing .midi = .ok [[.int 1], [.int 2]] := by
  obtain ⟨goal, hgoal, hstate⟩ := goal_farApart
  have hvalue : ∀ n : Int, n = 1 ∨ n = 2 →
      Goal.both (Goal.eq (.var (.named "z")) (.int n)) (Goal.label []) .farApart =
        .one (State.farApart.addBinding (.named "z") (.int n)) := by
    intro n hn
    rw [Goal.both, State.eq_farApart hn, Answers.one_bind]
    rfl
  have hlabel : Goal.label [.var (.named "z")] .farApart =
      .next (State.farApart.addBinding (.named "z") (.int 1)) fun _ =>
        .one (State.farApart.addBinding (.named "z") (.int 2)) := by
    have hcandidates : State.farApart.candidates (.var (.named "z")) = .ok [.int 1, .int 2] := rfl
    have hspread : Goal.label [.var (.named "z")] .farApart =
        (Goal.both (Goal.eq (.var (.named "z")) (.int 1)) (Goal.label []) .farApart).append fun _ =>
          (Goal.both (Goal.eq (.var (.named "z")) (.int 2)) (Goal.label []) .farApart).append
            fun _ => .done := by
      simp only [Goal.label, hcandidates, Answers.ofList, Answers.bind_next, Answers.bind_done]
    rw [hspread, hvalue 1 (.inl rfl), hvalue 2 (.inr rfl)]
    rfl
  rw [Formula.run, hgoal]
  show (solutions _ _ _).all = _
  rw [solutions, Goal.conjoin_cons, hstate, Answers.one_bind]
  show ((Goal.label [.var (.named "z")] .farApart).map _).all = _
  rw [hlabel]
  rfl

/-- A query for the third variable gives two rows, and they belong to no assignment. -/
theorem Formula.run_backed_iff_farApart :
    let I : Int → Prop := fun n => 0 ≤ n ∧ n ≤ 6
    let xs : List Var := [.named "x", .named "y", .named "d", .named "z"]
    let query : List Term := [.var (.named "z")]
    farApart.Arithmetic I (· ∈ xs) ∧ (∀ t ∈ query, t.Among I (· ∈ xs)) ∧
      farApart.Restricts query ∧
      ∃ us : List State,
        farApart.run query .nothing .midi = .ok (us.map fun u => query.map u.walk) ∧
        (us.map fun u => query.map u.walk) = [[.int 1], [.int 2]] ∧
        ∀ u ∈ us, ¬ ∃ ρ, u.Fits ρ ∧ ∀ c ∈ u.differences, c.Holds ρ := by
  intro I xs query
  have hvalues : ∀ m n : Int, I m → I n → (Admission.values [.int m, .int n]).Over I :=
    fun m n hm hn => ⟨[m, n], rfl, List.forall_mem_cons.mpr ⟨hm, List.forall_mem_singleton.mpr hn⟩⟩
  have hx : .named "x" ∈ xs := by simp [xs]
  have hy : .named "y" ∈ xs := by simp [xs]
  have hd : .named "d" ∈ xs := by simp [xs]
  have hz : .named "z" ∈ xs := by simp [xs]
  have hf : farApart.Arithmetic I (· ∈ xs) := by
    refine .conjoin fun f hf => ?_
    simp only [List.mem_cons, List.not_mem_nil, or_false] at hf
    rcases hf with rfl | rfl | rfl | rfl | rfl
    · exact .inDomain hx (hvalues 0 1 (by decide) (by decide))
    · exact .inDomain hy (hvalues 0 1 (by decide) (by decide))
    · exact .inDomain hd (hvalues 5 6 (by decide) (by decide))
    · exact .inDomain hz (hvalues 1 2 (by decide) (by decide))
    · exact .difference hx hy hd
  have hquery : ∀ t ∈ query, t.Among I (· ∈ xs) := List.forall_mem_singleton.mpr hz
  have hrestricts : farApart.Restricts query := by
    intro b hb x hx
    cases List.mem_singleton.mp hx
    rcases List.mem_singleton.mp hb with rfl
    exact ⟨.values [.int 1, .int 2], by simp⟩
  have hunbacked : ∀ row, ¬ farApart.Backs query row := by
    rintro row ⟨ρ, hρ, -⟩
    simp only [farApart, Holds, HoldsAll, Admission.Admits, Term.eval_var, List.mem_cons,
      List.not_mem_nil, Value.int.injEq, or_false, and_true] at hρ
    omega
  rcases run_backed_iff hf hquery hrestricts .midi with ⟨herror, -⟩ | hok
  · cases herror.symm.trans run_farApart
  · obtain ⟨goal, us, -, -, hrun, hbacks, -⟩ := hok
    refine ⟨hf, hquery, hrestricts, us, hrun, Except.ok.inj (hrun.symm.trans run_farApart), ?_⟩
    exact fun u hu hmet => hunbacked _ ((hbacks _).mpr ⟨u, hu, rfl, hmet⟩)

end Consonance
