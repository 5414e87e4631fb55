import Consonance.Proofs.Introduction
import Consonance.Proofs.Reordering

/-!
# Networks of intervals

Any number of intervals between pitches may be put together, over shared variables.  A query for
the variables finds exactly the pitches and distances that fit all of them, each once
(`Formula.run_network`).

An interval holds in two *ways*: the second pitch lies above the first one or below it.  The two
exclude each other, since the one upwards takes a distance of at least one, and together they say
that the pitches lie the distance apart (`Formula.IsInterval.partition`).  So the ways of all
intervals, one chosen for each, exclude each other as well.
-/

namespace Consonance

/-- The set has the pitches of a space and the distances between them. -/
structure PitchSpace.Provides (space : PitchSpace) (I : Int → Prop) : Prop where
  pitch : ∀ n, space.Has n → I n
  distance : ∀ n, 0 ≤ n → n ≤ space.span → I n

theorem Builder.openOr_over {I : Int → Prop} {t : Term} (h : t.Over I) : openOr t = pure t := by
  cases t with
  | var x => rfl
  | val v =>
      obtain ⟨n, rfl, -⟩ := h
      rfl

theorem Builder.distance_over {t : Term} (h : t.Over (0 ≤ ·)) : distance t = pure t := by
  cases t with
  | var x => rfl
  | val v =>
      obtain ⟨n, rfl, hn⟩ := h
      simp only [distance, resolveDistance, if_neg (Int.not_lt.mpr hn)]
      rfl

/-! ## Intervals introduce their arguments -/

section Intervals

open Goal Setting

variable {I : Int → Prop} {V : Var → Prop} {space : PitchSpace} {s : State} {a b d : Term}

theorem Relation.withinSpace_introduces (hI : space.Provides I) (hs : s.space = space)
    (ha : a.Over I) (hb : b.Over I) :
    (Relation.withinSpace s [a, b]).Introduces I space V (b.joins (a.joins V))
      [fun ρ => space.Has (a.eval ρ) ∧ space.Has (b.eval ρ)] := by
  have hmem : ∀ n : Int, n ∈ s.spaceDomain ↔ space.Has n := fun n => by
    rw [State.spaceDomain, Domain.mem_interval, hs]
    exact Iff.rfl
  have hd : s.spaceDomain.Over I :=
    ⟨s.integral_spaceDomain, fun n hn => hI.pitch n ((hmem n).mp hn)⟩
  refine (conjoin_cons_introduces (inDomain_introduces ha hd)
    (conjoin_cons_introduces (inDomain_introduces hb hd) conjoin_nil_introduces)).congr_single
      fun ρ => ?_
  simp only [hmem, and_true]

theorem Relation.isDistance_introduces (hI : space.Provides I) (hs : s.space = space)
    (hd : d.Over I) {least : Int} (hleast : 0 ≤ least) :
    (Relation.isDistance s least d).Introduces I space V (d.joins V)
      [fun ρ => least ≤ d.eval ρ ∧ d.eval ρ ≤ space.span] := by
  have hover : (Domain.interval least s.space.span).Over I := by
    refine ⟨Domain.integral_interval _ _, fun n hn => ?_⟩
    rw [Domain.mem_interval, hs] at hn
    exact hI.distance n (Int.le_trans hleast hn.1) hn.2
  refine (inDomain_introduces hd hover).congr_single fun ρ => ?_
  rw [Domain.mem_interval, hs]

/-- One pitch above another one is found in one way. -/
theorem Relation.above_introduces {low high : Term} (hI : space.Provides I) (hd : d.Over I)
    (hlow : low.Over I) (hhigh : high.Over I) :
    (Relation.above d low high).Introduces I space V (withInterval d low high V)
      [fun ρ => space.Above (d.eval ρ) (low.eval ρ) (high.eval ρ)] := by
  refine project_introduces fun s hs => ⟨_, rfl, ?_⟩
  have hdifference : (Goal.difference high low d).Introduces I space _ _ _ :=
    difference_introduces ((Term.among_joins hhigh (low.joins V)).joins d)
      (((Term.among_joins hlow V).joins high).joins d) (Term.among_joins hd _)
  refine (conjoin_cons_introduces (withinSpace_introduces hI hs hlow hhigh)
    (conjoin_cons_introduces (isDistance_introduces hI hs hd (Int.le_refl 0))
      (conjoin_cons_introduces hdifference conjoin_nil_introduces))).congr_single fun ρ => ?_
  simp only [PitchSpace.Above, PitchSpace.Has, PitchSpace.span, and_true]
  omega

/-- Two pitches that lie apart are found in two ways: the first one above the second one, or
below it at a distance of at least one. -/
theorem Relation.interval_introduces (hI : space.Provides I) (hd : d.Over I) (ha : a.Over I)
    (hb : b.Over I) :
    (Relation.interval d a b).Introduces I space V (withInterval d a b V)
      [fun ρ => space.Above (d.eval ρ) (b.eval ρ) (a.eval ρ),
        fun ρ => 1 ≤ d.eval ρ ∧ space.Above (d.eval ρ) (a.eval ρ) (b.eval ρ)] := by
  refine project_introduces fun s hs => ⟨_, rfl, ?_⟩
  have hamong : a.Among I (withInterval d a b V) := ((Term.among_joins ha V).joins b).joins d
  have hbmong : b.Among I (withInterval d a b V) := (Term.among_joins hb _).joins d
  have hdmong : d.Among I (withInterval d a b V) := Term.among_joins hd _
  have hpositive := isDistance_introduces (V := withInterval d a b V) hI hs hd
    (show (0 : Int) ≤ 1 by decide)
  rw [Term.joins_of_mem fun x hx => .inl hx] at hpositive
  have hfirst : (Goal.difference a b d).Introduces I space _ _ _ :=
    difference_introduces hamong hbmong hdmong
  have hways := disjoin_cons_introduces hfirst
    (disjoin_cons_introduces (conjoin_cons_introduces hpositive
      (conjoin_cons_introduces (difference_introduces hbmong hamong hdmong)
        conjoin_nil_introduces)) disjoin_nil_introduces)
  have hall := conjoin_cons_introduces (withinSpace_introduces (V := V) hI hs ha hb)
    (conjoin_cons_introduces (isDistance_introduces hI hs hd (Int.le_refl 0))
      (conjoin_cons_introduces hways conjoin_nil_introduces))
  refine hall.congr (.cons (fun ρ => ?_) (.cons (fun ρ => ?_) .nil))
  · simp only [PitchSpace.Above, PitchSpace.Has, PitchSpace.span, and_true]
    omega
  · simp only [PitchSpace.Above, PitchSpace.Has, PitchSpace.span, and_true]
    omega

end Intervals

namespace Formula

/-! ## Intervals as formulas -/

/-- The formula relates two pitches, which are integers or variables, by a distance, which is a
variable or an integer that is not negative. -/
inductive IsInterval : Formula → Prop where
  | interval {d a b : Term} (distance : d.Over (0 ≤ ·)) (first : a.Over fun _ => True)
      (second : b.Over fun _ => True) : IsInterval (.interval d a b)
  | above {d low high : Term} (distance : d.Over (0 ≤ ·)) (lower : low.Over fun _ => True)
      (higher : high.Over fun _ => True) : IsInterval (.above d low high)

/-- The pitches lie in the space, the distance is one that the space has room for, and the
pitches lie it apart.  This is said of intervals only. -/
def Spaced (space : PitchSpace) (ρ : Assignment) : Formula → Prop
  | .interval d a b =>
    (space.Has (a.eval ρ) ∧ space.Has (b.eval ρ)) ∧ (0 ≤ d.eval ρ ∧ d.eval ρ ≤ space.span) ∧
      ((a.eval ρ - b.eval ρ).natAbs : Int) = d.eval ρ
  | .above d low high =>
    (space.Has (low.eval ρ) ∧ space.Has (high.eval ρ)) ∧
      (0 ≤ d.eval ρ ∧ d.eval ρ ≤ space.span) ∧ high.eval ρ - low.eval ρ = d.eval ρ
  | _ => False

/-- The integers that a search for some intervals starts from: the pitches of the space, their
distances and the constants of the intervals. -/
def Spans (space : PitchSpace) (fs : List Formula) (n : Int) : Prop :=
  space.Has n ∨ (0 ≤ n ∧ n ≤ space.span) ∨ ∃ f ∈ fs, ∃ p ∈ f.places, p.2 = .int n

/-- The second formula is the first one, or the first one with its two pitches swapped. -/
inductive Swaps : Formula → Formula → Prop where
  | same (f : Formula) : Swaps f f
  | swapped (d a b : Term) : Swaps (.interval d a b) (.interval d b a)

/-- The ways in which an interval can hold. -/
def ways (space : PitchSpace) : Formula → List (Assignment → Prop)
  | .interval d a b =>
    [fun ρ => space.Above (d.eval ρ) (b.eval ρ) (a.eval ρ),
      fun ρ => 1 ≤ d.eval ρ ∧ space.Above (d.eval ρ) (a.eval ρ) (b.eval ρ)]
  | .above d low high => [fun ρ => space.Above (d.eval ρ) (low.eval ρ) (high.eval ρ)]
  | _ => []

/-- The ways in which intervals can hold together. -/
def waysOfAll (space : PitchSpace) : List Formula → List (Assignment → Prop)
  | [] => [fun _ => True]
  | f :: rest => waysOfBoth (f.ways space) (waysOfAll space rest)

variable {I : Int → Prop} {space : PitchSpace} {f g : Formula} {fs gs : List Formula}

theorem IsInterval.over (hf : f.IsInterval) : ∀ p ∈ f.places, p.2.Over fun n => p.2 = .int n := by
  have hterm : ∀ {J : Int → Prop} {t : Term}, t.Over J → t.Over fun n => t = .int n := by
    intro J t ht
    cases t with
    | var x => trivial
    | val v => exact ht.imp fun n hn => ⟨hn.1, congrArg Term.val hn.1⟩
  cases hf with
  | interval distance first second =>
      simp only [places, List.forall_mem_cons]
      exact ⟨hterm distance, hterm first, hterm second, List.forall_mem_nil _⟩
  | above distance lower higher =>
      simp only [places, List.forall_mem_cons]
      exact ⟨hterm distance, hterm lower, hterm higher, List.forall_mem_nil _⟩

theorem provides_spans (space : PitchSpace) (fs : List Formula) :
    space.Provides (Spans space fs) where
  pitch _ h := .inl h
  distance _ hlow hhigh := .inr (.inl ⟨hlow, hhigh⟩)

/-- The integers of a search for intervals are among those of a search for relations. -/
theorem Spans.arises {n : Int} (h : Spans space fs n) : Arises space fs n := by
  rcases h with hpitch | hdistance | ⟨f, hf, ⟨r, t⟩, hp, rfl⟩
  · exact .inl ⟨.pitch, .inl hpitch⟩
  · exact .inl ⟨.distance, .inl hdistance⟩
  · exact .inl ⟨r, .inr (.inl ⟨f, hf, hp⟩)⟩

/-! ## The arguments of an interval -/

section Arguments

variable {d a b : Term} (hplaces : f.places = [(.distance, d), (.pitch, a), (.pitch, b)])

include hplaces

theorem mentions_interval (V : Var → Prop) :
    (fun x => f.Mentions x ∨ V x) = Setting.withInterval d a b V := by
  funext x
  simp only [Mentions, hplaces, Setting.withInterval, Term.joins, List.exists_mem_cons_iff,
    List.not_mem_nil, false_and, exists_false, or_false, eq_iff_iff]
  tauto

/-- A property of the three arguments is about the variables of the interval. -/
theorem visible_interval (P : Int → Int → Int → Prop) {ρ ρ' : Assignment}
    (h : ∀ x, f.Mentions x → ρ x = ρ' x) (hP : P (d.eval ρ) (a.eval ρ) (b.eval ρ)) :
    P (d.eval ρ') (a.eval ρ') (b.eval ρ') := by
  have heval : ∀ p ∈ f.places, p.2.eval ρ = p.2.eval ρ' := by
    rintro ⟨r, t⟩ hp
    cases t with
    | var x => exact h x ⟨_, hp, rfl⟩
    | val v => rfl
  simp only [hplaces, List.forall_mem_cons] at heval
  obtain ⟨hd, ha, hb, -⟩ := heval
  rwa [← hd, ← ha, ← hb]

end Arguments

/-! ## The ways of intervals -/

/-- The ways of an interval exclude each other, and one of them holds when the pitches lie the
distance apart. -/
theorem IsInterval.partition (hf : f.IsInterval) :
    Partition f.Mentions (f.ways space) fun ρ => f.Spaced space ρ := by
  cases hf with
  | @interval d a b =>
      refine ⟨fun ρ => ?_, List.pairwise_pair.mpr fun ρ => ?_, ?_⟩
      · simp only [ways, Spaced, List.exists_mem_cons_iff, List.not_mem_nil, false_and,
          exists_false, or_false, PitchSpace.Above, PitchSpace.Has, PitchSpace.span]
        omega
      · -- Upwards the distance is at least one, so the pitches cannot lie downwards as well.
        simp only [PitchSpace.Above]
        omega
      · simp only [ways, List.forall_mem_cons]
        refine ⟨fun ρ ρ' h => ?_, fun ρ ρ' h => ?_, List.forall_mem_nil _⟩
        · exact visible_interval rfl (fun d a b => space.Above d b a) h
        · exact visible_interval rfl (fun d a b => 1 ≤ d ∧ space.Above d a b) h
  | @above d low high =>
      have hways : Partition (Formula.above d low high).Mentions
          ((Formula.above d low high).ways space)
          fun ρ => space.Above (d.eval ρ) (low.eval ρ) (high.eval ρ) :=
        .single fun ρ ρ' h => visible_interval rfl space.Above h
      refine hways.congr fun ρ => ?_
      simp only [Spaced, PitchSpace.Above, PitchSpace.Has, PitchSpace.span]
      omega

theorem partition_all (hfs : ∀ f ∈ fs, f.IsInterval) :
    Partition (fun x => ∃ f ∈ fs, f.Mentions x) (waysOfAll space fs)
      fun ρ => ∀ f ∈ fs, f.Spaced space ρ := by
  induction fs with
  | nil => exact (Partition.single fun _ _ _ => id).congr fun ρ => by simp
  | cons f rest ih =>
      obtain ⟨hf, hrest⟩ := List.forall_mem_cons.mp hfs
      have hfirst : Partition f.Mentions (f.ways space) _ := hf.partition
      refine ((hfirst.mono fun x hx => ⟨f, List.mem_cons_self .., hx⟩).both
        ((ih hrest).mono fun x hx => ?_)).congr fun ρ => List.forall_mem_cons.symm
      exact hx.imp fun g hg => ⟨List.mem_cons_of_mem _ hg.1, hg.2⟩

/-! ## The goals of intervals -/

/-- An interval makes no variable, and its goal introduces its arguments. -/
theorem IsInterval.build (hf : f.IsInterval) (hI : space.Provides I)
    (hconstants : ∀ p ∈ f.places, p.2.Over I) :
    ∃ g : Goal, (∀ n, f.build n = .ok (g, n)) ∧
      ∀ V, g.Introduces I space V (fun x => f.Mentions x ∨ V x) (f.ways space) := by
  cases hf with
  | @interval d a b distance first second =>
      simp only [places, List.forall_mem_cons] at hconstants
      obtain ⟨hd, ha, hb, -⟩ := hconstants
      refine ⟨Relation.interval d a b, fun n => ?_, fun V => ?_⟩
      · simp only [Formula.build, Builder.interval, Builder.distance_over distance,
          Builder.openOr_over first, Builder.openOr_over second]
        rfl
      · rw [mentions_interval rfl]
        exact Relation.interval_introduces hI hd ha hb
  | @above d low high distance lower higher =>
      simp only [places, List.forall_mem_cons] at hconstants
      obtain ⟨hd, hlow, hhigh, -⟩ := hconstants
      refine ⟨Relation.above d low high, fun n => ?_, fun V => ?_⟩
      · simp only [Formula.build, Builder.above, Builder.distance_over distance,
          Builder.openOr_over lower, Builder.openOr_over higher]
        rfl
      · rw [mentions_interval rfl]
        exact Relation.above_introduces hI hd hlow hhigh

/-- The goals of intervals introduce the variables of all. -/
theorem build_intervals (hfs : ∀ f ∈ fs, f.IsInterval) (hI : space.Provides I)
    (hconstants : ∀ f ∈ fs, ∀ p ∈ f.places, p.2.Over I) :
    ∃ goals : List Goal, List.Forall₂ (fun g f => ∀ n, Formula.build f n = .ok (g, n)) goals fs ∧
      ∀ V, (Goal.conjoin goals).Introduces I space V (fun x => (∃ f ∈ fs, f.Mentions x) ∨ V x)
        (waysOfAll space fs) := by
  induction fs with
  | nil =>
      refine ⟨[], .nil, fun V => ?_⟩
      have hV : (fun x => (∃ f ∈ [], Formula.Mentions f x) ∨ V x) = V := by simp
      rw [hV]
      exact Goal.conjoin_nil_introduces
  | cons f rest ih =>
      obtain ⟨hf, hrest⟩ := List.forall_mem_cons.mp hfs
      obtain ⟨hconst, hconsts⟩ := List.forall_mem_cons.mp hconstants
      obtain ⟨g, hbuild, hg⟩ := hf.build hI hconst
      obtain ⟨goals, hbuilds, hgoals⟩ := ih hrest hconsts
      refine ⟨g :: goals, .cons hbuild hbuilds, fun V => ?_⟩
      have hW : (fun x => (∃ h ∈ f :: rest, h.Mentions x) ∨ V x) =
          fun x => (∃ h ∈ rest, h.Mentions x) ∨ (f.Mentions x ∨ V x) := by
        funext x
        rw [List.exists_mem_cons_iff, or_assoc, or_left_comm]
      rw [hW]
      exact Goal.conjoin_cons_introduces (hg V) (hgoals _)

/-! ## Swapped pitches -/

theorem Swaps.symm (h : f.Swaps g) : g.Swaps f := by
  cases h with
  | same => exact .same f
  | swapped d a b => exact .swapped d b a

theorem Swaps.isInterval (h : f.Swaps g) (hf : f.IsInterval) : g.IsInterval := by
  cases h with
  | same => exact hf
  | swapped d a b =>
      cases hf with
      | interval distance first second => exact .interval distance second first

theorem Swaps.spaced_iff (h : f.Swaps g) (ρ : Assignment) :
    g.Spaced space ρ ↔ f.Spaced space ρ := by
  cases h with
  | same => exact Iff.rfl
  | swapped d a b =>
      simp only [Spaced, PitchSpace.Has]
      omega

/-- Swapping the pitches keeps the arguments. -/
theorem Swaps.exists_places (h : f.Swaps g) (P : Term → Prop) :
    (∃ p ∈ g.places, P p.2) ↔ ∃ p ∈ f.places, P p.2 := by
  cases h with
  | same => exact Iff.rfl
  | swapped d a b =>
      simp only [places, List.exists_mem_cons_iff]
      tauto

/-! ## Queries -/

/-- The rows of a query for the variables of intervals are those of the assignments that fit all
intervals. -/
theorem run_intervals (hfs : ∀ f ∈ fs, f.IsInterval) {xs : List Var}
    (hxs : ∀ x, x ∈ xs ↔ ∃ f ∈ fs, f.Mentions x)
    (hwritable : ∀ n, Derived (Spans space fs) n → Number.isWritable n = true) :
    ∃ rows : List (List Int),
      (conjoin fs).run (xs.map .var) .nothing space = .ok (rows.map fun row => row.map Term.int) ∧
      rows.Nodup ∧ ∀ row, row ∈ rows ↔ ∃ ρ : Assignment, (∀ f ∈ fs, f.Spaced space ρ) ∧
        xs.map ρ = row := by
  have hconstants : ∀ f ∈ fs, ∀ p ∈ f.places, p.2.Over (Spans space fs) := fun f hf p hp =>
    ((hfs f hf).over p hp).mono fun n hn => .inr (.inr ⟨f, hf, p, hp, hn⟩)
  obtain ⟨goals, hbuilds, hgoals⟩ := build_intervals hfs (provides_spans space fs) hconstants
  have hgoal : (conjoin fs).goal = .ok (Goal.conjoin goals) := by
    show ((conjoin fs).build 0 >>= fun r => pure r.1) = _
    rw [build_conjoin hbuilds 0]
    rfl
  have hpartition : Partition (fun x => (∃ f ∈ fs, f.Mentions x) ∨ False) (waysOfAll space fs) _ :=
    (partition_all hfs).mono fun x => .inl
  have hrows := (hgoals fun _ => False).run_nodup hpartition
    (show ∀ t ∈ xs.map Term.var, t.Among _ _ from fun t ht => ?_) (fun x hx => ?_) hwritable
  · simp only [List.map_map] at hrows
    simp only [run, hgoal]
    exact hrows
  · obtain ⟨x, hx, rfl⟩ := List.mem_map.mp ht
    exact .inl ((hxs x).mp hx)
  · exact List.mem_map_of_mem ((hxs x).mpr (hx.resolve_right id))

section Lists

variable (hswaps : List.Forall₂ Swaps fs gs) {P : Formula → Prop}
  (hP : ∀ f g, f.Swaps g → (P g ↔ P f))

include hswaps hP

theorem Swaps.exists_iff : (∃ g ∈ gs, P g) ↔ ∃ f ∈ fs, P f := by
  induction hswaps with
  | nil => exact Iff.rfl
  | cons hfg _ ih => simp only [List.exists_mem_cons_iff, hP _ _ hfg, ih]

theorem Swaps.forall_iff : (∀ g ∈ gs, P g) ↔ ∀ f ∈ fs, P f := by
  induction hswaps with
  | nil => exact Iff.rfl
  | cons hfg _ ih => simp only [List.forall_mem_cons, hP _ _ hfg, ih]

end Lists

/-- Networks of intervals are solved exactly.  A query for the variables of some intervals gives
the row of each assignment that fits all of them, once.  So swapping the pitches of intervals
gives the same rows. -/
theorem run_network (hfs : ∀ f ∈ fs, f.IsInterval) {xs : List Var}
    (hxs : ∀ x, x ∈ xs ↔ ∃ f ∈ fs, f.Mentions x)
    (hwritable : ∀ n, Derived (Spans space fs) n → Number.isWritable n = true) :
    ∃ rows : List (List Int),
      (conjoin fs).run (xs.map .var) .nothing space = .ok (rows.map fun row => row.map Term.int) ∧
      rows.Nodup ∧
      (∀ row, row ∈ rows ↔ ∃ ρ : Assignment, (∀ f ∈ fs, f.Spaced space ρ) ∧ xs.map ρ = row) ∧
      ∀ gs, List.Forall₂ Swaps fs gs → ∃ rows' : List (List Int),
        (conjoin gs).run (xs.map .var) .nothing space =
          .ok (rows'.map fun row => row.map Term.int) ∧ rows'.Perm rows := by
  obtain ⟨rows, hrun, hnodup, hmem⟩ := run_intervals hfs hxs hwritable
  refine ⟨rows, hrun, hnodup, hmem, fun gs hgs => ?_⟩
  have hmentions : ∀ x, (∃ g ∈ gs, g.Mentions x) ↔ ∃ f ∈ fs, f.Mentions x := fun x =>
    Swaps.exists_iff hgs fun f g hfg => hfg.exists_places (· = .var x)
  have hspans : ∀ n, Spans space gs n → Spans space fs n := fun n =>
    Or.imp_right (Or.imp_right (Swaps.exists_iff hgs fun f g hfg =>
      hfg.exists_places (· = .int n)).mp)
  have hspaced : ∀ ρ, (∀ g ∈ gs, g.Spaced space ρ) ↔ ∀ f ∈ fs, f.Spaced space ρ := fun ρ =>
    Swaps.forall_iff hgs fun f g hfg => hfg.spaced_iff ρ
  have hgs' : ∀ g ∈ gs, g.IsInterval :=
    (Swaps.forall_iff hgs fun f g hfg => ⟨hfg.symm.isInterval, hfg.isInterval⟩).mpr hfs
  obtain ⟨rows', hrun', hnodup', hmem'⟩ := run_intervals hgs'
    (fun x => (hxs x).trans (hmentions x).symm)
    (fun n hn => hwritable n (hn.mono hspans))
  refine ⟨rows', hrun', (List.perm_ext_iff_of_nodup hnodup' hnodup).mpr fun row => ?_⟩
  rw [hmem' row, hmem row]
  simp only [hspaced]

/-- A pitch a fifth above another one, which lies apart from a `C`.  The lower pitch may be the
`C` itself. -/
theorem run_network_fifth :
    let fs : List Formula :=
      [.interval (.var (.named "distance")) (.var (.named "low")) (.int 60),
        .above (.int 7) (.var (.named "low")) (.var (.named "high"))]
    let xs : List Var := [.named "low", .named "high", .named "distance"]
    (∀ f ∈ fs, f.IsInterval) ∧ (∀ x, x ∈ xs ↔ ∃ f ∈ fs, f.Mentions x) ∧
      (∀ n, Derived (Spans .midi fs) n → Number.isWritable n = true) ∧
      ∃ rows : List (List Int),
        (conjoin fs).run (xs.map .var) .nothing .midi =
          .ok (rows.map fun row => row.map Term.int) ∧ rows.Nodup ∧ [60, 67, 0] ∈ rows := by
  intro fs xs
  have hfs : ∀ f ∈ fs, f.IsInterval := by
    simp only [fs, List.forall_mem_cons]
    refine ⟨.interval trivial trivial ⟨60, rfl, trivial⟩,
      .above ⟨7, rfl, by decide⟩ trivial trivial, List.forall_mem_nil _⟩
  have hxs : ∀ x, x ∈ xs ↔ ∃ f ∈ fs, f.Mentions x := by
    simp only [fs, xs, Mentions, places, List.exists_mem_cons_iff]
    grind
  have hwritable : ∀ n, Derived (Spans .midi fs) n → Number.isWritable n = true := by
    refine fun n hn => writable_midi ?_ n (hn.mono fun m => Spans.arises)
    simp only [fs, places, List.forall_mem_cons]
    simp
  obtain ⟨rows, hrun, hnodup, hmem, -⟩ := run_network hfs hxs hwritable
  refine ⟨hfs, hxs, hwritable, rows, hrun, hnodup, (hmem _).mpr ?_⟩
  -- The lower pitch is the `C`, at the distance of zero.
  let ρ : Assignment := fun x =>
    if x = .named "low" then 60 else if x = .named "high" then 67 else 0
  refine ⟨ρ, ?_, by simp [xs, ρ]⟩
  simp only [fs, List.forall_mem_cons, Spaced, Term.eval_var, Term.eval_int, PitchSpace.Has]
  simp [ρ, PitchSpace.midi, PitchSpace.span]

end Formula

end Consonance
