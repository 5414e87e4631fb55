import Consonance.Proofs.Confluence

/-!
# States at rest

Propagation stops when a pass changes nothing.  What it leaves behind is a fixpoint: another
propagation gives the same state.

*Quiet differences.*  A difference that still waits has two open terms at least.  If its third
term is known, the domains of the other two mirror each other, or neither has one
(`State.Quiet`).  The stable box of propagation says this of assignments (`Stable.quiet`), and
settling a quiet difference does nothing (`settle_of_quiet`).

*Known distances.*  Two variables at a known distance have domains of the same shape, one of
them moved.  So the first values of all domains go together, and so do the second ones, and so
on, however the differences are linked.  Hence every value that is left in a domain belongs to
a solution (`Reachable.exists_solution_of_known`).
-/

namespace Consonance

namespace State

variable {I : Int → Prop} {s t : State} {c : Difference}

/-! ## Mirrored domains -/

/-- Neither variable has a domain, or the domain of the first one is that of the second one,
moved. -/
def Mirrors (s : State) (x y : Var) (move : Domain → Except Failure Domain) : Prop :=
  s.stored? x = none ∧ s.stored? y = none ∨
    ∃ d e, s.stored? x = some d ∧ s.stored? y = some e ∧ move e = .ok d

/-- Variables that may be the same up to a move have mirrored domains. -/
theorem mirrors_of_lets (hs : s.Coherent I) {x y : Var} (hx : s.walk (.var x) = .var x)
    (hy : s.walk (.var y) = .var y) {move : Domain → Except Failure Domain} {f : Int → Int}
    (hmove : Domain.Moves I move f) (h : ∀ n, s.Lets (.var x) n ↔ s.Lets (.var y) (f n)) :
    s.Mirrors x y move := by
  simp only [lets_of_var hx, lets_of_var hy] at h
  cases hd : s.stored? x with
  | none =>
      cases he : s.stored? y with
      | none => exact .inl ⟨hd, he⟩
      | some e =>
          obtain ⟨m, -, -, hmem⟩ := hmove e (hs.domains y e he)
          obtain ⟨n, hn⟩ := m.exists_not_mem
          have hlets := (h n).mp (by simp [hd]) e he
          exact absurd ((hmem n).mpr hlets) hn
  | some d =>
      cases he : s.stored? y with
      | none =>
          obtain ⟨n, hn⟩ := d.exists_not_mem
          exact absurd ((h n).mpr (by simp [he]) d hd) hn
      | some e =>
          obtain ⟨m, hm, hover, hmem⟩ := hmove e (hs.domains y e he)
          have hdm : d = m := by
            refine (hs.domains x d hd).integral.ext hover.integral fun n => ?_
            rw [hmem n]
            simpa [hd, he] using h n
          exact .inr ⟨d, e, hd, he, hdm ▸ hm⟩

/-- Mirrors work both ways. -/
theorem Mirrors.symm (hs : s.Coherent I) {x y : Var} {move move' : Domain → Except Failure Domain}
    {f g : Int → Int} (hmove : Domain.Moves I move f) (hmove' : Domain.Moves I move' g)
    (hfg : ∀ n, f (g n) = n) (h : s.Mirrors x y move) : s.Mirrors y x move' := by
  rcases h with ⟨hx, hy⟩ | ⟨d, e, hd, he, hm⟩
  · exact .inl ⟨hy, hx⟩
  · obtain ⟨m, hm', -, hmem⟩ := hmove e (hs.domains y e he)
    cases hm.symm.trans hm'
    obtain ⟨e', he', hover, hmem'⟩ := hmove' d (hs.domains x d hd)
    have hee : e = e' := by
      refine (hs.domains y e he).integral.ext hover.integral fun n => ?_
      rw [hmem' n, hmem (g n), hfg]
    exact .inr ⟨e, d, he, hd, hee ▸ he'⟩

/-- Narrowing a variable to the mirror of its domain does nothing. -/
theorem narrowTo_of_mirrors (hs : s.Coherent I) {x y : Var} (hx : s.walk (.var x) = .var x)
    (hy : s.walk (.var y) = .var y) {move : Domain → Except Failure Domain}
    (h : s.Mirrors x y move) : s.narrowTo (.var x) (s.domain? (.var y)) move = .ok s := by
  rcases h with ⟨-, hnone⟩ | ⟨d, e, hd, he, hm⟩
  · simp only [domain?, hy, hnone, narrowTo]
  · have hint := (hs.domains x d hd).integral
    obtain ⟨hmeet, hmem⟩ := Domain.intersect_spec hint hint
    have hself : d.intersect d = d := hmeet.ext hint fun n => by rw [hmem n, and_self]
    obtain ⟨n, hn⟩ := hs.occupied x d hd
    have hoccupied : d.isEmpty = false := by
      rw [← Bool.not_eq_true, Domain.isEmpty_iff hint]
      exact fun hnone => hnone n hn
    have hsame : d.same d = true := by
      obtain ⟨ns, -, rfl⟩ := hint
      exact (Domain.sameItems_ints ns ns).mpr rfl
    simp only [domain?, hy, he, narrowTo, hm]
    show s.narrow (.var x) (.domain d) = .ok s
    simp only [narrow, hx, narrowVar, hd, Allowed.toDomain]
    show (if (!(d.intersect d).isEmpty && (d.intersect d).same d) = true then Except.ok s
      else narrowVar.settleDomain s x (d.intersect d)) = .ok s
    rw [hself, hoccupied, hsame]
    rfl

/-- Two variables with mirrored domains have nothing to narrow in each other. -/
theorem narrowBoth_of_mirrors (hs : s.Coherent I) {x y : Var} (hx : s.walk (.var x) = .var x)
    (hy : s.walk (.var y) = .var y) {move move' : Domain → Except Failure Domain} {f g : Int → Int}
    (hmove : Domain.Moves I move f) (hmove' : Domain.Moves I move' g) (hfg : ∀ n, f (g n) = n)
    (h : s.Mirrors x y move) :
    (s.narrowTo (.var x) (s.domain? (.var y)) move >>= fun t =>
      t.narrowTo (.var y) (s.domain? (.var x)) move' >>= fun t => pure (t, false)) =
        .ok (s, false) := by
  refine bind_eq_ok.mpr ⟨s, narrowTo_of_mirrors hs hx hy h, ?_⟩
  exact bind_eq_ok.mpr ⟨s, narrowTo_of_mirrors hs hy hx (h.symm hs hmove hmove' hfg), rfl⟩

/-! ## Quiet differences -/

/-- There is nothing to work out about a difference.  Two of its terms are open at least, and if
the third one is known, their domains mirror each other. -/
structure Quiet (s : State) (c : Difference) : Prop where
  isOpen : 2 ≤ s.openTerms c
  distance : ∀ x y k, s.walk c.minuend = .var x → s.walk c.subtrahend = .var y →
    s.walk c.distance = .int k → s.Mirrors x y fun e => e.shift (.int k)
  minuend : ∀ m y z, s.walk c.minuend = .int m → s.walk c.subtrahend = .var y →
    s.walk c.distance = .var z → s.Mirrors y z fun e => e.reflect (.int m)
  subtrahend : ∀ x n z, s.walk c.minuend = .var x → s.walk c.subtrahend = .int n →
    s.walk c.distance = .var z → s.Mirrors x z fun e => e.shift (.int n)

/-- Terms that support each other may be the same up to a move. -/
theorem mirrors_of_supports (hs : s.Coherent I) {a b : Term} (ha : a.Over I) (hb : b.Over I)
    {x y : Var} (hx : s.walk a = .var x) (hy : s.walk b = .var y)
    {move : Domain → Except Failure Domain} {f g : Int → Int} (hmove : Domain.Moves I move f)
    (hgf : ∀ n, g (f n) = n)
    (hab : ∀ ρ, s.Fits ρ → s.Lets b (f (a.eval ρ)) ∧ s.Lets a (g (b.eval ρ))) :
    s.Mirrors x y move := by
  refine mirrors_of_lets hs (hs.walk_var hx) (hs.walk_var hy) hmove fun n => ?_
  rw [lets_var_walked hs hx, lets_var_walked hs hy]
  constructor
  · intro hn
    obtain ⟨ρ, hρ, rfl⟩ := (hs.lets_iff ha).mp hn
    exact (hab ρ hρ).1
  · intro hn
    obtain ⟨ρ, hρ, heq⟩ := (hs.lets_iff hb).mp hn
    have hlets := (hab ρ hρ).2
    rwa [heq, hgf] at hlets

/-- A difference that supports all that fits is quiet, if it has two open terms. -/
theorem Stable.quiet (hs : s.Coherent I) (hc : s.ScopedDifference I c)
    (hopen : 2 ≤ s.openTerms c) (h : s.Stable c) : s.Quiet c := by
  obtain ⟨ha, hb, hd⟩ := Difference.forall_terms.mp fun t ht => (hc t ht).isOver
  refine ⟨hopen, ?_, ?_, ?_⟩
  · intro x y k hx hy hk
    have hknows : s.Knows c := ⟨_, c.distance_mem, by rw [hk]; rfl⟩
    have hI : I k := hs.mem_of_walk (fun _ h => h) hd hk
    refine mirrors_of_supports hs ha hb hx hy (Domain.moves_shift hI) (g := fun n => n + k)
      (fun n => Int.sub_add_cancel ..) fun ρ hρ => ?_
    exact (hρ.supports_of_distance hs hc hk).mp (h ρ hρ hknows)
  · intro m y z hm hy hz
    have hknows : s.Knows c := ⟨_, c.minuend_mem, by rw [hm]; rfl⟩
    have hI : I m := hs.mem_of_walk (fun _ h => h) ha hm
    refine mirrors_of_supports hs hb hd hy hz (Domain.moves_reflect hI) (g := fun n => m - n)
      (fun n => Int.sub_sub_self ..) fun ρ hρ => ?_
    exact (hρ.supports_of_minuend hs hc hm).mp (h ρ hρ hknows)
  · intro x n z hx hn hz
    have hknows : s.Knows c := ⟨_, c.subtrahend_mem, by rw [hn]; rfl⟩
    have hI : I n := hs.mem_of_walk (fun _ h => h) hb hn
    refine mirrors_of_supports hs ha hd hx hz (Domain.moves_shift hI) (g := fun k => k + n)
      (fun k => Int.sub_add_cancel ..) fun ρ hρ => ?_
    exact (hρ.supports_of_subtrahend hs hc hn).mp (h ρ hρ hknows)

/-- Settling a quiet difference does nothing. -/
theorem settle_of_quiet (hs : s.Coherent I) (hc : s.ScopedDifference I c) (h : s.Quiet c) :
    s.settle c = .ok (s, false) := by
  have hcases := hc.cases hs
  have hcount := h.isOpen
  rw [openTerms_eq] at hcount
  generalize s.settle c = r at hcases ⊢
  cases hcases with
  | allKnown hm hn hk => simp [hm, hn, hk, Term.isVar] at hcount
  | openMinuend hx hn hk => simp [hx, hn, hk, Term.isVar] at hcount
  | openSubtrahend hm hy hk => simp [hm, hy, hk, Term.isVar] at hcount
  | openDistance hm hn hz => simp [hm, hn, hz, Term.isVar] at hcount
  | @knownMinuend m y z hm hy hz left =>
      exact narrowBoth_of_mirrors hs (hs.walk_var hy) (hs.walk_var hz) (Domain.moves_reflect left)
        (Domain.moves_reflect left) (fun n => Int.sub_sub_self ..) (h.minuend m y z hm hy hz)
  | @knownSubtrahend x z n hx hn hz right =>
      exact narrowBoth_of_mirrors hs (hs.walk_var hx) (hs.walk_var hz) (Domain.moves_shift right)
        (Domain.moves_unshift right) (fun k => Int.add_sub_cancel ..) (h.subtrahend x n z hx hn hz)
  | @knownDistance x y k hx hy hk apart =>
      exact narrowBoth_of_mirrors hs (hs.walk_var hx) (hs.walk_var hy) (Domain.moves_shift apart)
        (Domain.moves_unshift apart) (fun n => Int.add_sub_cancel ..) (h.distance x y k hx hy hk)
  | allOpen => rfl

theorem settleAll_of_quiet (hs : s.Coherent I) {cs : List Difference}
    (hcs : ∀ c ∈ cs, s.ScopedDifference I c) (h : ∀ c ∈ cs, s.Quiet c) :
    s.settleAll cs = .ok (s, cs) := by
  induction cs with
  | nil => rfl
  | cons c rest ih =>
      obtain ⟨hc, hrest⟩ := List.forall_mem_cons.mp hcs
      obtain ⟨hquiet, hothers⟩ := List.forall_mem_cons.mp h
      refine bind_eq_ok.mpr ⟨(s, false), settle_of_quiet hs hc hquiet, ?_⟩
      exact bind_eq_ok.mpr ⟨(s, rest), ih hrest hothers, rfl⟩

/-- A pass that changes nothing is the last one. -/
theorem propagate_of_pass (h : s.pass = .ok s) : s.propagate = .ok s := by
  rw [propagate, h]
  exact dif_neg Rank.not_below_self

/-- Propagation starts with a pass. -/
theorem propagate_of_passes (h : s.pass = .ok t) (ht : t.pass = .ok t) : s.propagate = .ok t := by
  rw [propagate, h]
  show (if _ : t.rank.Below s.rank then t.propagate else .ok t) = .ok t
  split
  · exact propagate_of_pass ht
  · rfl

/-- Where all differences are quiet, there is nothing to propagate. -/
theorem propagate_of_quiet (hs : s.WellFormed I) (h : ∀ c ∈ s.differences, s.Quiet c) :
    s.propagate = .ok s :=
  propagate_of_pass
    (bind_eq_ok.mpr ⟨(s, s.differences), settleAll_of_quiet hs.coherent hs.differences h, rfl⟩)

/-- Propagation leaves only quiet differences. -/
theorem propagate_quiet (hs : s.WellFormed I) (h : s.propagate = .ok t) :
    ∀ e ∈ t.differences, t.Quiet e := by
  have htakes := propagate_takes hs
  rw [h] at htakes
  obtain ⟨hwf, -, hsettled, -⟩ := htakes
  intro e he
  exact (propagate_stable hs h e he).quiet hwf.coherent (hwf.differences e he) (hsettled e he)

end State

/-! ## Levels of the domains -/

/-- The value at a position of the domain, or the least one if the domain has fewer. -/
def Domain.nth (d : Domain) (i : Nat) : Int :=
  ((d.values[i]?.or d.values.head?).bind Value.whole?).getD 0

namespace Domain

theorem nth_ofInts (ns : List Int) (i : Nat) : (ofInts ns).nth i = (ns[i]?.or ns.head?).getD 0 := by
  have hvalue : (ns.map Value.int)[i]?.or (ns.map Value.int).head? =
      (ns[i]?.or ns.head?).map Value.int := by
    rw [List.getElem?_map, List.head?_map, Option.map_or]
  rw [nth, ofInts, hvalue]
  cases ns[i]?.or ns.head? <;> rfl

theorem nth_mem {d : Domain} (hd : d.Integral) (hoccupied : ∃ n : Int, n ∈ d) (i : Nat) :
    d.nth i ∈ d := by
  obtain ⟨ns, -, rfl⟩ := hd
  obtain ⟨n, hn⟩ := hoccupied
  cases ns with
  | nil => exact absurd (mem_ofInts.mp hn) List.not_mem_nil
  | cons m rest =>
      rw [nth_ofInts, mem_ofInts]
      cases h : (m :: rest)[i]? with
      | none => exact List.mem_cons_self ..
      | some k => exact List.mem_of_getElem? h

/-- Every value of a domain is at some position. -/
theorem exists_nth {d : Domain} (hd : d.Integral) {v : Value} (hv : v ∈ d.values) :
    ∃ i, v = .int (d.nth i) := by
  obtain ⟨ns, -, rfl⟩ := hd
  obtain ⟨n, hn, rfl⟩ := List.mem_map.mp hv
  obtain ⟨i, hi⟩ := List.getElem?_of_mem hn
  exact ⟨i, by rw [nth_ofInts, hi]; rfl⟩

/-- Moving a domain moves each of its positions. -/
theorem nth_shift {d e : Domain} (he : e.Integral) (hoccupied : ∃ n : Int, n ∈ e) {k : Int}
    (h : e.shift (.int k) = .ok d) (i : Nat) : d.nth i = e.nth i + k := by
  obtain ⟨d', hd', hint, hmem⟩ := shift_spec he k
  cases hd'.symm.trans h
  obtain ⟨ns, hns, rfl⟩ := he
  have hmoved : (ns.map (· + k)).Pairwise (· < ·) :=
    List.pairwise_map.mpr (hns.imp fun hlt => Int.add_lt_add_right hlt k)
  have hd : d = ofInts (ns.map (· + k)) := by
    refine hint.ext (integral_ofInts hmoved) fun n => ?_
    rw [hmem n, mem_ofInts, mem_ofInts, List.mem_map]
    exact ⟨fun hn => ⟨n - k, hn, Int.sub_add_cancel ..⟩,
      fun ⟨m, hm, heq⟩ => by rwa [← heq, Int.add_sub_cancel]⟩
  obtain ⟨n, hn⟩ := hoccupied
  cases ns with
  | nil => exact absurd (mem_ofInts.mp hn) List.not_mem_nil
  | cons m rest =>
      rw [hd, nth_ofInts, nth_ofInts, List.getElem?_map, List.head?_map, ← Option.map_or]
      cases (m :: rest)[i]? <;> rfl

end Domain

namespace State

variable {I : Int → Prop} {s t : State} {c : Difference}

/-- Every open variable has the value at one position of its domain, and the others follow. -/
def level (s : State) (i : Nat) : Assignment :=
  s.following fun y => ((s.stored? y).map fun d => d.nth i).getD 0

theorem level_of_var (i : Nat) {a : Term} {x : Var} {d : Domain} (hw : s.walk a = .var x)
    (hd : s.stored? x = some d) : a.eval (s.level i) = d.nth i := by
  rw [level, eval_following, hw, Term.eval_var, hd]
  rfl

/-- Where all distances are known, all differences are quiet and all their terms have domains,
each level of the domains is a solution. -/
theorem solution_level (hs : s.WellFormed I) (hquiet : ∀ c ∈ s.differences, s.Quiet c)
    (hknown : ∀ c ∈ s.differences, (s.walk c.distance).isVar = false)
    (hconfined : ∀ c ∈ s.differences, ∀ a ∈ c.terms, s.Confined a) (i : Nat) :
    s.Solution (s.level i) := by
  refine ⟨hs.coherent.fits_following fun x d hd => ?_, fun c hc => ?_⟩
  · rw [hd]
    exact Domain.nth_mem (hs.coherent.domains x d hd).integral (hs.coherent.occupied x d hd) i
  · have hq := hquiet c hc
    have hcount := hq.isOpen
    rw [openTerms_eq, hknown c hc] at hcount
    -- The distance is known, so the other two terms are open.
    cases hwa : s.walk c.minuend with
    | val u => cases hwb : s.walk c.subtrahend <;> simp [hwa, hwb, Term.isVar] at hcount
    | var x =>
        cases hwb : s.walk c.subtrahend with
        | val v => simp [hwa, hwb, Term.isVar] at hcount
        | var y =>
            cases hwd : s.walk c.distance with
            | var z => exact absurd (hknown c hc) (by simp [hwd, Term.isVar])
            | val w =>
                have hover := (hs.differences c hc _ c.distance_mem).isOver
                obtain ⟨k, rfl, -⟩ := hs.coherent.walk_int (fun _ h => h) hover hwd
                obtain ⟨d, hd⟩ := hconfined c hc _ c.minuend_mem x hwa
                rcases hq.distance x y k hwa hwb hwd with ⟨hnone, -⟩ | ⟨d', e, hd', he, hshift⟩
                · cases hd.symm.trans hnone
                · have hnth := Domain.nth_shift (hs.coherent.domains y e he).integral
                    (hs.coherent.occupied y e he) hshift i
                  have hdistance : c.distance.eval (s.level i) = k := by
                    rw [level, eval_following, hwd, Term.eval_int]
                  rw [Difference.Holds, level_of_var i hwa hd', level_of_var i hwb he, hdistance,
                    hnth, Int.add_comm, Int.add_sub_cancel]

end State

/-! ## Reachable states -/

open State

section Reachable

variable {space : PitchSpace} {s t : State} {c : Constraint}

theorem Reachable.quiet (hs : Reachable space s) : ∀ e ∈ s.differences, s.Quiet e := by
  cases hs with
  | empty => exact nofun
  | @post u _ c earlier integral taken =>
      obtain ⟨w, hw, hprop⟩ := bind_eq_ok.mp ((c.post_eq u).symm.trans taken)
      have henters := enter_spec earlier.wellFormed (integral.scoped u)
      rw [hw] at henters
      exact propagate_quiet henters.1 hprop

/-- An operation leaves a fixpoint of propagation, with quiet differences only. -/
theorem Reachable.post_quiet (hs : Reachable space s) (hc : c.Integral) (ht : c.post s = .ok t) :
    t.propagate = .ok t ∧ ∀ e ∈ t.differences, t.Quiet e := by
  have hreached := Reachable.post hs hc ht
  exact ⟨propagate_of_quiet hreached.wellFormed hreached.quiet, hreached.quiet⟩

/-- Two variables at a distance of two are left with four values each. -/
theorem Reachable.post_quiet_two :
    let x := Var.named "x"
    let y := Var.named "y"
    let s : State := ⟨[], [(x, .interval 1 5), (y, .interval 0 3)], [], .midi⟩
    let e : Difference := ⟨.var x, .var y, .int 2⟩
    let t : State := ⟨[], [(x, .interval 2 5), (y, .interval 0 3)], [e], .midi⟩
    Reachable .midi s ∧ (Constraint.apart (.var x) (.var y) (.int 2)).post s = .ok t ∧
      t.propagate = .ok t ∧ t.Quiet e := by
  intro x y s e t
  have hinterval : ∀ a b : Int, (Allowed.domain (.interval a b)).Over fun _ => True :=
    fun a b => ⟨Domain.integral_interval a b, fun _ _ => trivial⟩
  have hx : Reachable .midi ⟨[], [(x, .interval 1 5)], [], .midi⟩ :=
    .post (c := .restricted (.var x) (.domain (.interval 1 5))) .empty ⟨trivial, hinterval 1 5⟩
      (propagate_of_open (List.forall_mem_nil _))
  have hs : Reachable .midi s :=
    .post (c := .restricted (.var y) (.domain (.interval 0 3))) hx ⟨trivial, hinterval 0 3⟩
      (propagate_of_open (List.forall_mem_nil _))
  have hc : (Constraint.apart (.var x) (.var y) (.int 2)).Integral :=
    ⟨trivial, trivial, Term.over_int trivial⟩
  have hpost : (Constraint.apart (.var x) (.var y) (.int 2)).post s = .ok t :=
    propagate_of_passes (by with_unfolding_all rfl) (by with_unfolding_all rfl)
  obtain ⟨hfixed, hquiet⟩ := hs.post_quiet hc hpost
  exact ⟨hs, hpost, hfixed, hquiet e (List.mem_singleton_self e)⟩

/-- If all suspended differences have known distances and terms with domains, every value that
is left in the domain of an open variable belongs to a solution. -/
theorem Reachable.exists_solution_of_known (hs : Reachable space s)
    (hknown : ∀ e ∈ s.differences, (s.walk e.distance).isVar = false)
    (hconfined : ∀ e ∈ s.differences, ∀ a ∈ e.terms, s.Confined a) :
    (∃ ρ, s.Solution ρ) ∧ ∀ x d, s.walk (.var x) = .var x → s.stored? x = some d →
      ∀ v ∈ d.values, ∃ ρ, s.Solution ρ ∧ v = .int (ρ x) := by
  have hlevel := solution_level hs.wellFormed hs.quiet hknown hconfined
  refine ⟨⟨s.level 0, hlevel 0⟩, fun x d hx hd v hv => ?_⟩
  obtain ⟨i, hi⟩ := Domain.exists_nth (hs.wellFormed.coherent.domains x d hd).integral hv
  exact ⟨s.level i, hlevel i, by rw [hi, ← level_of_var i hx hd, Term.eval_var]⟩

/-- Three variables whose distances go around a triangle.  The first one can be five. -/
theorem Reachable.exists_solution_of_known_five :
    let x := Var.named "x"
    let y := Var.named "y"
    let z := Var.named "z"
    let s : State :=
      ⟨[], [(x, .ofInts [4, 5, 7]), (y, .ofInts [3, 4, 6]), (z, .ofInts [1, 2, 4])],
        [⟨.var x, .var y, .int 1⟩, ⟨.var y, .var z, .int 2⟩, ⟨.var x, .var z, .int 3⟩], .midi⟩
    Reachable .midi s ∧ (∀ e ∈ s.differences, (s.walk e.distance).isVar = false) ∧
      (∀ e ∈ s.differences, ∀ a ∈ e.terms, s.Confined a) ∧
        ∃ ρ, s.Solution ρ ∧ Value.int 5 = .int (ρ x) := by
  intro x y z s
  let domains : List (Var × Domain) :=
    [(x, .ofInts [4, 5, 7]), (y, .ofInts [3, 4, 6]), (z, .ofInts [1, 2, 4])]
  have hvalues : ∀ a b c : Int, (Allowed.values [.int a, .int b, .int c]).Over fun _ => True :=
    fun a b c => ⟨[a, b, c], rfl, fun _ _ => trivial⟩
  have happart : ∀ (a b : Var) (k : Int), (Constraint.apart (.var a) (.var b) (.int k)).Integral :=
    fun a b k => ⟨trivial, trivial, Term.over_int trivial⟩
  have hx : Reachable .midi ⟨[], [(x, .ofInts [4, 5, 7])], [], .midi⟩ :=
    .post (c := .restricted (.var x) (.values [.int 4, .int 5, .int 7])) .empty
      ⟨trivial, hvalues 4 5 7⟩ (propagate_of_open (List.forall_mem_nil _))
  have hy : Reachable .midi ⟨[], [(x, .ofInts [4, 5, 7]), (y, .ofInts [3, 4, 6])], [], .midi⟩ :=
    .post (c := .restricted (.var y) (.values [.int 3, .int 4, .int 6])) hx
      ⟨trivial, hvalues 3 4 6⟩ (propagate_of_open (List.forall_mem_nil _))
  have hz : Reachable .midi ⟨[], domains, [], .midi⟩ :=
    .post (c := .restricted (.var z) (.values [.int 1, .int 2, .int 4])) hy
      ⟨trivial, hvalues 1 2 4⟩ (propagate_of_open (List.forall_mem_nil _))
  have hxy : Reachable .midi ⟨[], domains, [⟨.var x, .var y, .int 1⟩], .midi⟩ :=
    .post hz (happart x y 1) (propagate_of_pass (by with_unfolding_all rfl))
  have hyz : Reachable .midi
      ⟨[], domains, [⟨.var x, .var y, .int 1⟩, ⟨.var y, .var z, .int 2⟩], .midi⟩ :=
    .post hxy (happart y z 2) (propagate_of_pass (by with_unfolding_all rfl))
  have hs : Reachable .midi s :=
    .post hyz (happart x z 3) (propagate_of_pass (by with_unfolding_all rfl))
  have hknown : ∀ e ∈ s.differences, (s.walk e.distance).isVar = false := by decide
  have hpair : ∀ {a b : Var} {d e : Domain} (k : Int), s.stored? a = some d →
      s.stored? b = some e → ∀ u ∈ (Difference.mk (.var a) (.var b) (.int k)).terms,
        s.Confined u := by
    intro a b d e k ha hb
    refine Difference.forall_terms.mpr ⟨fun v hv => ?_, fun v hv => ?_, fun v hv => ?_⟩
    · exact ⟨d, Term.var.inj hv ▸ ha⟩
    · exact ⟨e, Term.var.inj hv ▸ hb⟩
    · cases hv
  have hconfined : ∀ e ∈ s.differences, ∀ a ∈ e.terms, s.Confined a :=
    List.forall_mem_cons.mpr ⟨hpair 1 rfl rfl, List.forall_mem_cons.mpr ⟨hpair 2 rfl rfl,
      List.forall_mem_singleton.mpr (hpair 3 rfl rfl)⟩⟩
  refine ⟨hs, hknown, hconfined, ?_⟩
  exact (hs.exists_solution_of_known hknown hconfined).2 x (.ofInts [4, 5, 7]) rfl rfl (.int 5)
    (by simp [Domain.ofInts])

end Reachable

end Consonance
