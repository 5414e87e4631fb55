import Consonance.Formula
import Consonance.Proofs.Posting

/-!
# Disjunctive expansion

An *arithmetic* formula is made of equations, restrictions to given integers and
differences (`Formula.Arithmetic`).  It has a meaning of its own, apart from any
search: `Formula.Holds` says which assignments satisfy it.

Its *branches* are the ways to choose one alternative of every disjunction, in
depth-first order of the declarations (`Formula.branches`).  A formula holds when all
formulas of one of its branches do (`Arithmetic.holds_iff`).

From a ready state the goal of the formula reaches one state for each branch that has
solutions, in the order of the branches (`Goal.Follows`).  Whatever each post keeps is kept
by the whole goal, and a failure comes from one of the posts (`Arithmetic.builds`).
-/

namespace Consonance

/-! ## Arithmetic formulas -/

/-- The integer is admitted. -/
def Admission.Admits (n : Int) : Admission → Prop
  | .interval lowest highest => ∃ a b : Int, lowest = .int a ∧ highest = .int b ∧ a ≤ n ∧ n ≤ b
  | .domain vs => Value.int n ∈ vs
  | .values vs => Value.int n ∈ vs
  | .passing c => c.test (.int n) = .ok true

/-- The admission is by finitely many integers, all of a set. -/
def Admission.Over (I : Int → Prop) : Admission → Prop
  | .interval lowest highest =>
    ∃ a b : Int, lowest = .int a ∧ highest = .int b ∧ ∀ n, a ≤ n → n ≤ b → I n
  | .domain vs => ∃ ns : List Int, vs = ns.map Value.int ∧ ∀ n ∈ ns, I n
  | .values vs => ∃ ns : List Int, vs = ns.map Value.int ∧ ∀ n ∈ ns, I n
  | .passing _ => False

theorem Admission.Over.allowed {I : Int → Prop} {a : Admission} (ha : a.Over I) :
    ∃ allowed, a.allowed = .ok allowed ∧ allowed.Over I ∧ ¬ allowed.IsTest ∧
      ∀ n, allowed.Allows n ↔ a.Admits n := by
  cases a with
  | interval lowest highest =>
      obtain ⟨lo, hi, rfl, rfl, hI⟩ := ha
      have hmem : ∀ n : Int, n ∈ Domain.interval lo (hi + 1 - 1) ↔ lo ≤ n ∧ n ≤ hi := fun n => by
        rw [Domain.mem_interval, Int.add_sub_cancel]
      refine ⟨.domain (.interval lo (hi + 1 - 1)), rfl, ⟨Domain.integral_interval _ _, ?_⟩, ?_, ?_⟩
      · exact fun n hn => hI n ((hmem n).mp hn).1 ((hmem n).mp hn).2
      · intro htest
        cases htest
      · refine fun n => (hmem n).trans ⟨fun h => ⟨lo, hi, rfl, rfl, h.1, h.2⟩, ?_⟩
        rintro ⟨lo', hi', hlo, hhi, h⟩
        cases hlo
        cases hhi
        exact h
  | domain vs =>
      obtain ⟨ns, rfl, hI⟩ := ha
      obtain ⟨d, hd, hint, hmem⟩ := Domain.ofList_ints ns
      have hallowed : (Admission.domain (ns.map Value.int)).allowed = .ok (.domain d) := by
        simp only [Admission.allowed, hd]
        rfl
      refine ⟨.domain d, hallowed, ⟨hint, fun n hn => hI n ((hmem n).mp hn)⟩, ?_, fun n => ?_⟩
      · intro htest
        cases htest
      · exact (hmem n).trans (by simp [Admits])
  | values vs =>
      obtain ⟨ns, rfl, hI⟩ := ha
      refine ⟨.values (ns.map Value.int), rfl, ⟨ns, rfl, hI⟩, ?_, fun n => Iff.rfl⟩
      intro htest
      cases htest
  | passing c => exact ha.elim

namespace Formula

/-- The formula is made of equations, restrictions and differences over some variables and
integers. -/
inductive Arithmetic (I : Int → Prop) (V : Var → Prop) : Formula → Prop where
  | succeed : Arithmetic I V .succeed
  | fail : Arithmetic I V .fail
  | eq {a b : Term} (left : a.Among I V) (right : b.Among I V) : Arithmetic I V (.eq a b)
  | inDomain {t : Term} {a : Admission} (term : t.Among I V) (admission : a.Over I) :
      Arithmetic I V (.inDomain t a)
  | difference {a b d : Term} (minuend : a.Among I V) (subtrahend : b.Among I V)
      (distance : d.Among I V) : Arithmetic I V (.difference a b d)
  | conjoin {parts : List Formula} (each : ∀ f ∈ parts, Arithmetic I V f) :
      Arithmetic I V (.conjoin parts)
  | disjoin {parts : List Formula} (each : ∀ f ∈ parts, Arithmetic I V f) :
      Arithmetic I V (.disjoin parts)
  | conde {clauses : List (List Formula)} (each : ∀ c ∈ clauses, ∀ f ∈ c, Arithmetic I V f) :
      Arithmetic I V (.conde clauses)

mutual

/-- The formula is satisfied by an assignment.  This is said of arithmetic formulas only. -/
def Holds (ρ : Assignment) : Formula → Prop
  | .succeed => True
  | .eq a b => a.eval ρ = b.eval ρ
  | .inDomain t a => a.Admits (t.eval ρ)
  | .difference a b d => a.eval ρ - b.eval ρ = d.eval ρ
  | .conjoin parts => HoldsAll ρ parts
  | .disjoin parts => HoldsAny ρ parts
  | .conde clauses => HoldsClause ρ clauses
  | _ => False

/-- All formulas are satisfied. -/
def HoldsAll (ρ : Assignment) : List Formula → Prop
  | [] => True
  | f :: rest => Holds ρ f ∧ HoldsAll ρ rest

/-- Some formula is satisfied. -/
def HoldsAny (ρ : Assignment) : List Formula → Prop
  | [] => False
  | f :: rest => Holds ρ f ∨ HoldsAny ρ rest

/-- All formulas of some clause are satisfied. -/
def HoldsClause (ρ : Assignment) : List (List Formula) → Prop
  | [] => False
  | c :: rest => HoldsAll ρ c ∨ HoldsClause ρ rest

end

mutual

/-- The branches of a formula, each with the formulas that it takes together. -/
def branches : Formula → List (List Formula)
  | .succeed => [[]]
  | .fail => []
  | .conjoin parts => branchesOfAll parts
  | .disjoin parts => branchesOfAny parts
  | .conde clauses => branchesOfClauses clauses
  | f => [[f]]

/-- A branch of each formula.  Those of the first one change slowest. -/
def branchesOfAll : List Formula → List (List Formula)
  | [] => [[]]
  | f :: rest => (branches f).flatMap fun b => (branchesOfAll rest).map (b ++ ·)

/-- The branches of all formulas. -/
def branchesOfAny : List Formula → List (List Formula)
  | [] => []
  | f :: rest => branches f ++ branchesOfAny rest

/-- The branches of all clauses. -/
def branchesOfClauses : List (List Formula) → List (List Formula)
  | [] => []
  | c :: rest => branchesOfAll c ++ branchesOfClauses rest

end

/-- All formulas of a branch are satisfied. -/
def Together (b : List Formula) (ρ : Assignment) : Prop := ∀ f ∈ b, f.Holds ρ

/-! ## A formula and its branches -/

section Branches

variable {ρ : Assignment}

theorem holdsAll_iff_branches {parts : List Formula}
    (h : ∀ f ∈ parts, f.Holds ρ ↔ ∃ b ∈ f.branches, Together b ρ) :
    HoldsAll ρ parts ↔ ∃ b ∈ branchesOfAll parts, Together b ρ := by
  induction parts with
  | nil => simp [HoldsAll, branchesOfAll, Together]
  | cons f rest ih =>
      obtain ⟨hf, hrest⟩ := List.forall_mem_cons.mp h
      rw [HoldsAll, hf, ih hrest, branchesOfAll]
      constructor
      · rintro ⟨⟨b, hb, hbρ⟩, c, hc, hcρ⟩
        refine ⟨b ++ c, ?_, List.forall_mem_append.mpr ⟨hbρ, hcρ⟩⟩
        exact List.mem_flatMap.mpr ⟨b, hb, List.mem_map.mpr ⟨c, hc, rfl⟩⟩
      · rintro ⟨e, he, heρ⟩
        obtain ⟨b, hb, he⟩ := List.mem_flatMap.mp he
        obtain ⟨c, hc, rfl⟩ := List.mem_map.mp he
        obtain ⟨hbρ, hcρ⟩ := List.forall_mem_append.mp heρ
        exact ⟨⟨b, hb, hbρ⟩, c, hc, hcρ⟩

theorem holdsAny_iff_branches {parts : List Formula}
    (h : ∀ f ∈ parts, f.Holds ρ ↔ ∃ b ∈ f.branches, Together b ρ) :
    HoldsAny ρ parts ↔ ∃ b ∈ branchesOfAny parts, Together b ρ := by
  induction parts with
  | nil => simp [HoldsAny, branchesOfAny]
  | cons f rest ih =>
      obtain ⟨hf, hrest⟩ := List.forall_mem_cons.mp h
      rw [HoldsAny, hf, ih hrest, branchesOfAny]
      simp only [List.mem_append, or_and_right, exists_or]

theorem holdsClause_iff_branches {clauses : List (List Formula)}
    (h : ∀ c ∈ clauses, ∀ f ∈ c, f.Holds ρ ↔ ∃ b ∈ f.branches, Together b ρ) :
    HoldsClause ρ clauses ↔ ∃ b ∈ branchesOfClauses clauses, Together b ρ := by
  induction clauses with
  | nil => simp [HoldsClause, branchesOfClauses]
  | cons c rest ih =>
      obtain ⟨hc, hrest⟩ := List.forall_mem_cons.mp h
      rw [HoldsClause, holdsAll_iff_branches hc, ih hrest, branchesOfClauses]
      simp only [List.mem_append, or_and_right, exists_or]

/-- A formula is satisfied when one of its branches is. -/
theorem Arithmetic.holds_iff {I : Int → Prop} {V : Var → Prop} {f : Formula}
    (h : f.Arithmetic I V) : f.Holds ρ ↔ ∃ b ∈ f.branches, Together b ρ := by
  induction h with
  | succeed => simp [Holds, branches, Together]
  | fail => simp [Holds, branches]
  | eq => simp [branches, Together]
  | inDomain => simp [branches, Together]
  | difference => simp [branches, Together]
  | conjoin _ ih =>
      rw [Holds, branches]
      exact holdsAll_iff_branches ih
  | disjoin _ ih =>
      rw [Holds, branches]
      exact holdsAny_iff_branches ih
  | conde _ ih =>
      rw [Holds, branches]
      exact holdsClause_iff_branches ih

end Branches

/-- What a search asks for on a branch. -/
def alternative (b : List Formula) : Alternative where
  holds := Together b
  suspends c := .difference c.minuend c.subtrahend c.distance ∈ b
  confines x := ∃ a, .inDomain (.var x) a ∈ b

theorem alternative_append (b c : List Formula) :
    alternative (b ++ c) = (alternative b).both (alternative c) := by
  have hholds : ∀ ρ, Together (b ++ c) ρ = (Together b ρ ∧ Together c ρ) := fun ρ =>
    propext List.forall_mem_append
  simp only [alternative, Alternative.both, List.mem_append, exists_or, Alternative.mk.injEq,
    and_self, and_true]
  exact funext hholds

/-- The formula writes down a constraint. -/
inductive Writes : Formula → Constraint → Prop where
  | eq {a b : Term} : Writes (.eq a b) (.equal a b)
  | inDomain {t : Term} {a : Admission} {allowed : Allowed}
      (allows : ∀ n, allowed.Allows n ↔ a.Admits n) : Writes (.inDomain t a) (.restricted t allowed)
  | difference {a b d : Term} : Writes (.difference a b d) (.apart a b d)

theorem Writes.holds_iff {f : Formula} {c : Constraint} (h : f.Writes c) (ρ : Assignment) :
    c.Holds ρ ↔ f.Holds ρ := by
  cases h with
  | eq => exact Iff.rfl
  | inDomain allows => exact allows _
  | difference => exact Iff.rfl

end Formula

open Formula

/-! ## A goal and the branches of its formula -/

section Goals

variable {I J : Int → Prop} {V : Var → Prop} {K : State → Prop}

/-- What is posted for a constraint is posted for the formula that writes it. -/
theorem State.Posts.writes {s : State} {f : Formula} {c : Constraint} {r : Except Failure State}
    (h : s.Posts I V (.posting c) r) (hf : f.Writes c) :
    s.Posts I V (Formula.alternative [f]) r := by
  have hholds : ∀ ρ, c.Holds ρ ↔ (Formula.alternative [f]).holds ρ := by
    intro ρ
    show c.Holds ρ ↔ ∀ g ∈ [f], g.Holds ρ
    rw [List.forall_mem_singleton, hf.holds_iff]
  cases r with
  | error e => exact ⟨h.1, fun ρ hρ hA => h.2 ρ hρ ((hholds ρ).mpr hA)⟩
  | ok t =>
      refine State.Reaches.congr h (fun ρ _ => hholds ρ) ?_ ?_
      · rintro d rfl
        cases hf
        exact List.mem_singleton.mpr rfl
      · rintro x ⟨a, ha⟩
        cases List.mem_singleton.mp ha
        cases hf
        exact ⟨_, rfl⟩

/-- The state has the property and is reached for one of the branches. -/
structure State.ReachesSome (K : State → Prop) (I : Int → Prop) (V : Var → Prop) (s : State)
    (bs : List (List Formula)) (t : State) : Prop where
  keeps : K t
  reaches : ∃ b ∈ bs, s.Reaches I V (Formula.alternative b) t

theorem State.ReachesSome.ready {s t : State} {bs : List (List Formula)}
    (h : s.ReachesSome K I V bs t) : t.Ready I V := by
  obtain ⟨_, -, hreaches⟩ := h.reaches
  exact hreaches.ready

theorem State.ReachesSome.mono {s t : State} {bs cs : List (List Formula)}
    (h : s.ReachesSome K I V bs t) (hsub : bs ⊆ cs) : s.ReachesSome K I V cs t :=
  ⟨h.keeps, h.reaches.imp fun _ hb => ⟨hsub hb.1, hb.2⟩⟩

/-- From a ready state that has a property the goal reaches the states of some branches.  They
have the property too, and a failure shows an integer of a set. -/
def Goal.Follows (J : Int → Prop) (K : State → Prop) (I : Int → Prop) (V : Var → Prop) (g : Goal)
    (bs : List (List Formula)) : Prop :=
  ∀ s : State, s.Ready I V → K s →
    (g s).Gives (Failure.Unwritable J) (s.ReachesSome K I V bs)
      (s.Expands I V (bs.map Formula.alternative))

theorem Goal.succeed_follows : Goal.succeed.Follows J K I V [[]] := by
  intro s hs hK
  have hreaches : s.Reaches I V (Formula.alternative []) s := by
    refine hs.reaches_self (fun _ => nofun) ?_
    rintro x ⟨a, ha⟩
    cases ha
  exact Answers.gives_one ⟨hK, [], List.mem_singleton_self _, hreaches⟩ (.live hreaches .nil)

theorem Goal.fail_follows : Goal.fail.Follows J K I V [] := fun _ _ _ => Answers.gives_done .nil

/-- The goal of a primitive formula posts its constraint. -/
theorem Goal.post_follows {c : Constraint} (hc : c.Among I V) {f : Formula} (hf : f.Writes c)
    (hkept : ∀ s : State, s.Ready I V → K s → State.Kept J K (c.post s)) :
    (Goal.lift c.post).Follows J K I V [[f]] := by
  intro s hs hK
  have hpost := (hs.post hc).writes hf
  exact (Goal.lift_gives hpost (hkept s hs hK)).imp fun t ht =>
    ⟨ht.1, [f], List.mem_singleton_self _, ht.2⟩

theorem Goal.Follows.both {g h : Goal} {bs cs : List (List Formula)} (hg : g.Follows J K I V bs)
    (hh : h.Follows J K I V cs) :
    Goal.Follows J K I V (fun s => (g s).bind h) (bs.flatMap fun b => cs.map (b ++ ·)) := by
  intro s hs hK
  have hsecond : ∀ t, s.ReachesSome K I V bs t →
      (h t).Gives (Failure.Unwritable J)
        (s.ReachesSome K I V (bs.flatMap fun b => cs.map (b ++ ·)))
        (t.Expands I V (cs.map Formula.alternative)) := by
    rintro t ⟨hKt, b, hb, ht⟩
    refine (hh t ht.ready hKt).imp fun u hu => ?_
    obtain ⟨hKu, c, hc, hu⟩ := hu
    refine ⟨hKu, b ++ c, List.mem_flatMap.mpr ⟨b, hb, List.mem_map_of_mem hc⟩, ?_⟩
    rw [alternative_append]
    exact ht.trans hu
  refine ((hg s hs hK).bind hsecond).mono fun l hl => ?_
  obtain ⟨ts, uss, hts, huss, rfl⟩ := hl
  have hproduct := hts.product huss
  rw [List.flatMap_map] at hproduct
  rw [List.map_flatMap]
  simp only [List.map_map, Function.comp_def, alternative_append] at hproduct ⊢
  exact hproduct

theorem Goal.conjoin_follows {gs : List Goal} {parts : List Formula}
    (h : List.Forall₂ (fun g f => g.Follows J K I V f.branches) gs parts) :
    (Goal.conjoin gs).Follows J K I V (branchesOfAll parts) := by
  induction h with
  | nil => exact Goal.succeed_follows
  | @cons g f gs parts hg _ ih =>
      have hcons : Goal.conjoin (g :: gs) = fun s => (g s).bind (Goal.conjoin gs) :=
        funext fun s => Goal.conjoin_cons g gs s
      rw [hcons, branchesOfAll]
      exact hg.both ih

theorem Goal.Follows.append {g h : Goal} {bs cs : List (List Formula)} (hg : g.Follows J K I V bs)
    (hh : h.Follows J K I V cs) :
    Goal.Follows J K I V (fun s => (g s).append fun _ => h s) (bs ++ cs) := by
  intro s hs hK
  have hfirst := (hg s hs hK).imp fun t ht => ht.mono (List.subset_append_left bs cs)
  have hsecond := (hh s hs hK).imp fun t ht => ht.mono (List.subset_append_right bs cs)
  refine (hfirst.append hsecond).mono fun l hl => ?_
  obtain ⟨ts, us, hts, hus, rfl⟩ := hl
  rw [List.map_append]
  exact hts.append hus

theorem Goal.disjoin_follows {gs : List Goal} {parts : List Formula}
    (h : List.Forall₂ (fun g f => g.Follows J K I V f.branches) gs parts) :
    (Goal.disjoin gs).Follows J K I V (branchesOfAny parts) := by
  induction h with
  | nil => exact Goal.fail_follows
  | cons hg _ ih => exact hg.append ih

theorem Goal.conde_follows {gss : List (List Goal)} {clauses : List (List Formula)}
    (h : List.Forall₂ (List.Forall₂ fun g f => Goal.Follows J K I V g f.branches) gss clauses) :
    (Goal.conde gss).Follows J K I V (branchesOfClauses clauses) := by
  induction h with
  | nil => exact Goal.fail_follows
  | cons hgs _ ih => exact (Goal.conjoin_follows hgs).append ih

end Goals

/-! ## Building the goal -/

section Building

variable {I J : Int → Prop} {V : Var → Prop} {K : State → Prop}

/-- The formula builds a goal that follows its branches, and makes no variable. -/
def Formula.Builds (J : Int → Prop) (K : State → Prop) (I : Int → Prop) (V : Var → Prop)
    (f : Formula) : Prop :=
  ∃ g : Goal, (∀ n, f.build n = .ok (g, n)) ∧ g.Follows J K I V f.branches

theorem Formula.buildAll_ok {gs : List Goal} {parts : List Formula}
    (h : List.Forall₂ (fun g f => ∀ n, f.build n = .ok (g, n)) gs parts) (n : Nat) :
    buildAll parts n = .ok (gs, n) := by
  induction h with
  | nil => rfl
  | @cons g f gs rest hg _ ih =>
      show (f.build n >>= fun r => buildAll rest r.2 >>= fun q => pure (r.1 :: q.1, q.2)) = _
      rw [hg n]
      show (buildAll rest n >>= fun q => pure (g :: q.1, q.2)) = _
      rw [ih]
      rfl

theorem Formula.build_conjoin {gs : List Goal} {parts : List Formula}
    (h : List.Forall₂ (fun g f => ∀ n, f.build n = .ok (g, n)) gs parts) (n : Nat) :
    (Formula.conjoin parts).build n = .ok (Goal.conjoin gs, n) := by
  show (buildAll parts n >>= fun r => pure (Goal.conjoin r.1, r.2)) = _
  rw [buildAll_ok h n]
  rfl

theorem Formula.builds_all {parts : List Formula} (h : ∀ f ∈ parts, f.Builds J K I V) :
    ∃ gs : List Goal, List.Forall₂ (fun g f => ∀ n, f.build n = .ok (g, n)) gs parts ∧
      List.Forall₂ (fun g f => g.Follows J K I V f.branches) gs parts := by
  induction parts with
  | nil => exact ⟨[], .nil, .nil⟩
  | cons f rest ih =>
      obtain ⟨⟨g, hbuild, hg⟩, hrest⟩ := List.forall_mem_cons.mp h
      obtain ⟨gs, hbuilds, hgs⟩ := ih hrest
      exact ⟨g :: gs, .cons hbuild hbuilds, .cons hg hgs⟩

theorem Formula.builds_clauses {clauses : List (List Formula)}
    (h : ∀ c ∈ clauses, ∀ f ∈ c, f.Builds J K I V) :
    ∃ gss : List (List Goal), (∀ n, buildClauses clauses n = .ok (gss, n)) ∧
      List.Forall₂ (List.Forall₂ fun g f => Goal.Follows J K I V g f.branches) gss clauses := by
  induction clauses with
  | nil => exact ⟨[], fun _ => rfl, .nil⟩
  | cons c rest ih =>
      obtain ⟨hc, hrest⟩ := List.forall_mem_cons.mp h
      obtain ⟨gs, hbuild, hgs⟩ := builds_all hc
      obtain ⟨gss, hbuilds, hgss⟩ := ih hrest
      refine ⟨gs :: gss, fun n => ?_, .cons hgs hgss⟩
      show (buildAll c n >>= fun r =>
        buildClauses rest r.2 >>= fun q => pure (r.1 :: q.1, q.2)) = _
      rw [buildAll_ok hbuild n]
      show (buildClauses rest n >>= fun q => pure (gs :: q.1, q.2)) = _
      rw [hbuilds n]
      rfl

/-- An arithmetic formula builds a goal that follows its branches, and keeps what each of its
constraints keeps. -/
theorem Formula.Arithmetic.builds {I' : Int → Prop} {V' : Var → Prop} {f : Formula}
    (h : f.Arithmetic I' V') (hamong : ∀ c : Constraint, c.Among I' V' → c.Among I V)
    (hkept : ∀ c : Constraint, c.Among I' V' → ∀ s : State, s.Ready I V → K s →
      State.Kept J K (c.post s)) :
    f.Builds J K I V := by
  have hpost : ∀ {c : Constraint} {f : Formula}, c.Among I' V' → f.Writes c →
      (Goal.lift c.post).Follows J K I V [[f]] := fun hc hf =>
    Goal.post_follows (hamong _ hc) hf (hkept _ hc)
  induction h with
  | succeed => exact ⟨_, fun _ => rfl, Goal.succeed_follows⟩
  | fail => exact ⟨_, fun _ => rfl, Goal.fail_follows⟩
  | @eq a b left right =>
      refine ⟨_, fun _ => rfl, ?_⟩
      exact hpost (c := .equal a b) ⟨left, right⟩ .eq
  | @inDomain t a term admission =>
      obtain ⟨allowed, hallowed, hover, htest, hmem⟩ := admission.allowed
      refine ⟨.inDomain t allowed, fun n => ?_, ?_⟩
      · simp only [build, hallowed]
        rfl
      · exact hpost (c := .restricted t allowed) ⟨term, hover, htest⟩ (.inDomain hmem)
  | @difference a b d minuend subtrahend distance =>
      refine ⟨_, fun _ => rfl, ?_⟩
      exact hpost (c := .apart a b d) ⟨minuend, subtrahend, distance⟩ .difference
  | @conjoin parts _ ih =>
      obtain ⟨gs, hbuild, hgs⟩ := builds_all ih
      exact ⟨Goal.conjoin gs, build_conjoin hbuild, Goal.conjoin_follows hgs⟩
  | @disjoin parts _ ih =>
      obtain ⟨gs, hbuild, hgs⟩ := builds_all ih
      refine ⟨Goal.disjoin gs, fun n => ?_, Goal.disjoin_follows hgs⟩
      show (buildAll parts n >>= fun r => pure (Goal.disjoin r.1, r.2)) = _
      rw [buildAll_ok hbuild n]
      rfl
  | @conde clauses _ ih =>
      obtain ⟨gss, hbuild, hgss⟩ := builds_clauses ih
      refine ⟨Goal.conde gss, fun n => ?_, Goal.conde_follows hgss⟩
      show (buildClauses clauses n >>= fun r => pure (Goal.conde r.1, r.2)) = _
      rw [hbuild n]
      rfl

end Building

end Consonance
