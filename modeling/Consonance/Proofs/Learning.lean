import Consonance.Proofs.Progress
import Mathlib.Data.List.Flatten

/-!
# What propagation learns

Whatever is learnt of a variable lowers the rank of the terms that it stands for
(`Progress.eq_or_below`).  Settling differences learns of such variables only, so a pass that
learns anything lowers the rank of the state.  Hence the pass after which propagation stops has
learnt nothing (`propagate_last`).
-/

namespace Consonance

namespace State

variable {I : Int → Prop} {s t u : State}

/-! ## Rank -/

/-- The rank of some terms. -/
def rankAmong (s : State) (terms : List Term) : Rank :=
  terms.foldr (fun a r => (s.rankOfTerm a).add r) .zero

theorem rank_eq_rankAmong (s : State) :
    s.rank = s.rankAmong (s.differences.flatMap Difference.terms) := by
  unfold rank
  generalize s.differences = cs
  induction cs with
  | nil => rfl
  | cons c rest ih =>
      rw [List.foldr_cons, ih]
      simp only [List.flatMap_cons, rankAmong, Difference.terms, List.cons_append, List.nil_append,
        List.foldr_cons, rankOfDifference, Rank.add, Nat.add_assoc]

end State

namespace Rank

variable {r q r' q' : Rank}

/-- The rank is lower, or it is the same. -/
def AtMost (r q : Rank) : Prop := r.Below q ∨ r = q

theorem AtMost.refl (r : Rank) : r.AtMost r := .inr rfl

theorem Below.trans (h : r.Below q) (h' : q.Below q') : r.Below q' := by
  simp only [Below] at *
  omega

theorem not_below_self : ¬ r.Below r := by
  simp only [Below]
  omega

theorem AtMost.below (h : r.AtMost q) (h' : q.Below q') : r.Below q' := by
  rcases h with h | rfl
  · exact h.trans h'
  · exact h'

theorem AtMost.trans (h : r.AtMost q) (h' : q.AtMost q') : r.AtMost q' := by
  rcases h' with h' | rfl
  · exact .inl (h.below h')
  · exact h

theorem Below.add_atMost (h : r.Below q) (h' : r'.AtMost q') : (r.add r').Below (q.add q') := by
  rcases h' with h' | rfl
  · simp only [Below, add] at *
    omega
  · simp only [Below, add] at *
    omega

theorem AtMost.add_below (h : r.AtMost q) (h' : r'.Below q') : (r.add r').Below (q.add q') := by
  rcases h with h | rfl
  · exact h.add_atMost (.inl h')
  · simp only [Below, add] at *
    omega

theorem AtMost.add (h : r.AtMost q) (h' : r'.AtMost q') : (r.add r').AtMost (q.add q') := by
  rcases h' with h' | rfl
  · exact .inl (h.add_below h')
  · rcases h with h | rfl
    · exact .inl (h.add_atMost (.refl r'))
    · exact .refl _

theorem atMost_add_left (r q : Rank) : q.AtMost (r.add q) := by
  have hzero : q = zero.add q := by simp [zero, add]
  have hle : zero.AtMost r := by
    obtain ⟨positions, bare, values⟩ := r
    simp only [AtMost, Below, zero, mk.injEq]
    omega
  have := hle.add (.refl q)
  rwa [← hzero] at this

end Rank

namespace State

variable {I : Int → Prop} {s t u : State}

/-- What is learnt of a variable lowers the rank of the terms that it stands for. -/
theorem Learns.rankOfTerm_below {x : Var} (h : Learns s x t) {a : Term} (ha : s.walk a = .var x) :
    (t.rankOfTerm a).Below (s.rankOfTerm a) := by
  have hvalue : ∀ {w : State} {n : Int}, w.walk a = .int n →
      (w.rankOfTerm a).Below (s.rankOfTerm a) := by
    intro w n hw
    simp only [rankOfTerm, hw, ha]
    cases s.stored? x with
    | none => exact .inl Nat.zero_lt_one
    | some d => exact .inl Nat.zero_lt_one
  cases h with
  | value => exact hvalue (Substitution.walk_cons_self _ ha)
  | only => exact hvalue (Substitution.walk_cons_self _ ha)
  | @several d several smaller =>
      simp only [rankOfTerm, walk_put, ha, stored?_put_self]
      cases hd : s.stored? x with
      | none => exact .inr ⟨rfl, .inl Nat.zero_lt_one⟩
      | some c => exact .inr ⟨rfl, .inr ⟨rfl, smaller c hd⟩⟩

/-- The other terms keep their rank. -/
theorem Learns.rankOfTerm_eq {x : Var} (h : Learns s x t) {a : Term} (ha : s.walk a ≠ .var x) :
    t.rankOfTerm a = s.rankOfTerm a := by
  have hput : ∀ d, (s.put x d).rankOfTerm a = s.rankOfTerm a := by
    intro d
    rw [rankOfTerm, rankOfTerm, walk_put]
    cases hw : s.walk a with
    | val v => rfl
    | var y =>
        have hyx : y ≠ x := fun heq => ha (by rw [hw, heq])
        simp only [stored?_put_ne s d hyx]
  have hbound : ∀ {w : State} {n : Int}, w.walk a ≠ .var x →
      (w.addBinding x (.int n)).rankOfTerm a = w.rankOfTerm a := by
    intro w n hw
    have hwalk : (w.addBinding x (.int n)).walk a = w.walk a := Substitution.walk_cons_ne _ hw
    simp only [rankOfTerm, hwalk, stored?_addBinding]
  cases h with
  | value => exact hbound ha
  | only =>
      refine Eq.trans (hbound ?_) (hput _)
      exact ha
  | several => exact hput _

theorem Learns.rankOfTerm_atMost {x : Var} (h : Learns s x t) (a : Term) :
    (t.rankOfTerm a).AtMost (s.rankOfTerm a) := by
  by_cases ha : s.walk a = .var x
  · exact .inl (h.rankOfTerm_below ha)
  · exact .inr (h.rankOfTerm_eq ha)

theorem Learns.rankAmong_atMost {x : Var} (h : Learns s x t) (terms : List Term) :
    (t.rankAmong terms).AtMost (s.rankAmong terms) := by
  induction terms with
  | nil => exact .refl _
  | cons a rest ih => exact (h.rankOfTerm_atMost a).add ih

theorem Learnt.rankAmong_below {terms : List Term} (h : Learnt terms s t) :
    (t.rankAmong terms).Below (s.rankAmong terms) := by
  obtain ⟨a, ha, x, hx, hlearns⟩ := h
  induction terms with
  | nil => cases ha
  | cons b rest ih =>
      rcases List.mem_cons.mp ha with rfl | ha
      · exact (hlearns.rankOfTerm_below hx).add_atMost (hlearns.rankAmong_atMost rest)
      · exact (hlearns.rankOfTerm_atMost b).add_below (ih ha)

/-- Progress lowers the rank of its terms, unless nothing was learnt. -/
theorem Progress.eq_or_below {terms : List Term} (h : Progress terms s t) :
    s = t ∨ (t.rankAmong terms).Below (s.rankAmong terms) := by
  induction h with
  | refl => exact .inl rfl
  | tail _ learnt ih =>
      rcases ih with rfl | hbelow
      · exact .inr learnt.rankAmong_below
      · exact .inr (learnt.rankAmong_below.trans hbelow)

theorem Progress.antisymm {terms : List Term} (h : Progress terms s t) (h' : Progress terms t s) :
    s = t := by
  rcases h.eq_or_below with heq | hbelow
  · exact heq
  · rcases h'.eq_or_below with heq | hbelow'
    · exact heq.symm
    · exact absurd (hbelow.trans hbelow') Rank.not_below_self

/-- Fewer terms have a lower rank, or the same. -/
theorem rankAmong_sublist {terms others : List Term} (h : terms.Sublist others) :
    (s.rankAmong terms).AtMost (s.rankAmong others) := by
  induction h with
  | slnil => exact .refl _
  | cons a _ ih => exact ih.trans (Rank.atMost_add_left ..)
  | cons_cons a _ ih => exact (Rank.AtMost.refl _).add ih

/-! ## Passes -/

theorem rankAmong_append (s : State) (terms others : List Term) :
    s.rankAmong (terms ++ others) = (s.rankAmong terms).add (s.rankAmong others) := by
  induction terms with
  | nil => simp [rankAmong, Rank.add, Rank.zero]
  | cons a rest ih =>
      simp only [rankAmong, List.cons_append, List.foldr_cons] at ih ⊢
      rw [ih]
      simp only [Rank.add, Nat.add_assoc]

/-- Known terms have no rank. -/
theorem rankAmong_known {terms : List Term} (h : ∀ a ∈ terms, (s.walk a).isVar = false) :
    s.rankAmong terms = .zero := by
  induction terms with
  | nil => rfl
  | cons a rest ih =>
      obtain ⟨ha, hrest⟩ := List.forall_mem_cons.mp h
      have hzero : s.rankOfTerm a = .zero := by
        unfold rankOfTerm
        split
        · rfl
        next x hx =>
          rw [hx] at ha
          cases ha
      rw [rankAmong, List.foldr_cons, hzero]
      exact (congrArg (Rank.add .zero) (ih hrest)).trans rfl

/-- Settling some differences learns only of variables that their terms stand for.  The ones
that are done have no rank any more. -/
theorem settleAll_works (hs : s.Elementary fun _ => True) {cs : List Difference}
    (hcs : ∀ c ∈ cs, ∀ a ∈ c.terms, a.Over fun _ => True) {pending : List Difference}
    (h : s.settleAll cs = .ok (t, pending)) :
    (t.Elementary fun _ => True) ∧ Progress (cs.flatMap Difference.terms) s t ∧
      t.rankAmong (pending.flatMap Difference.terms) =
        t.rankAmong (cs.flatMap Difference.terms) := by
  induction cs generalizing s pending with
  | nil =>
      cases h
      exact ⟨hs, .refl, rfl⟩
  | cons c rest ih =>
      obtain ⟨hc, hrest⟩ := List.forall_mem_cons.mp hcs
      obtain ⟨⟨u, done⟩, hu, h⟩ := bind_eq_ok.mp h
      obtain ⟨⟨w, waiting⟩, hw, h⟩ := bind_eq_ok.mp h
      cases h
      have hworks := settle_works hs hc
      rw [hu] at hworks
      obtain ⟨helementary, hfirst, hdone⟩ := hworks
      obtain ⟨hlast, hothers, hrank⟩ := ih (helementary.mono fun _ _ => trivial) hrest hw
      refine ⟨hlast, (hfirst.mono (List.subset_append_left ..)).trans
        (hothers.mono (List.subset_append_right ..)), ?_⟩
      rw [List.flatMap_cons, rankAmong_append, ← hrank]
      cases done with
      | false => exact rankAmong_append ..
      | true =>
          have hknown : ∀ a ∈ c.terms, (t.walk a).isVar = false := by
            intro a ha
            have hua := hdone rfl a ha
            cases hv : u.walk a with
            | var x =>
                rw [hv] at hua
                cases hua
            | val v =>
                rw [hothers.walk_val hv]
                rfl
          rw [rankAmong_known hknown]
          simp [Rank.add, Rank.zero]

theorem settleAll_progress (hs : s.Coherent I) {cs : List Difference}
    (hcs : ∀ c ∈ cs, s.ScopedDifference I c) {pending : List Difference}
    (h : s.settleAll cs = .ok (t, pending)) : Progress (cs.flatMap Difference.terms) s t :=
  (settleAll_works (hs.elementary.mono fun _ _ => trivial)
    (fun c hc a ha => (hcs c hc a ha).isOver.mono fun _ _ => trivial) h).2.1

theorem settle_progress (hs : s.Coherent I) {c : Difference} (hc : s.ScopedDifference I c)
    {done : Bool} (h : s.settle c = .ok (t, done)) : Progress c.terms s t := by
  have hworks := settle_works hs.elementary fun a ha => (hc a ha).isOver
  rw [h] at hworks
  exact hworks.2.1

/-! ## The last pass -/

theorem WellFormed.pass (hs : s.WellFormed I) {pending : List Difference}
    (h : s.settleAll s.differences = .ok (u, pending)) :
    WellFormed I { u with differences := pending } := by
  have hall := settleAll_spec hs.coherent hs.differences
  rw [h] at hall
  obtain ⟨hsteps, hsub, -⟩ := hall
  refine ⟨(hsteps.coherent hs.coherent).withDifferences pending, fun c hc a ha => ?_⟩
  exact ((hs.differences c (hsub.subset hc) a ha).steps hsteps).withDifferences pending

/-- What every pass keeps is kept by propagation. -/
theorem propagate_keeps {P : State → Prop} (hs : s.WellFormed I) (h : s.propagate = .ok t)
    (hpass : ∀ w u pending, w.WellFormed I → w.settleAll w.differences = .ok (u, pending) → P w →
      P { u with differences := pending }) (hP : P s) : P t := by
  induction s using propagate.induct with
  | case1 s ih =>
      rw [propagate] at h
      obtain ⟨next, hnext, h⟩ := bind_eq_ok.mp h
      obtain ⟨⟨u, pending⟩, hr, hu⟩ := bind_eq_ok.mp hnext
      cases hu
      split at h
      next hbelow => exact ih _ hbelow (hs.pass hr) h (hpass s u pending hs hr hP)
      next =>
        cases h
        exact hpass s u pending hs hr hP

/-- Settling differences again and again comes to a pass that learns nothing. -/
theorem propagate_last (hs : s.WellFormed I) (h : s.propagate = .ok t) :
    ∃ u : State, u.WellFormed I ∧ u.settleAll u.differences = .ok (u, t.differences) ∧
      t = { u with differences := t.differences } := by
  induction s using propagate.induct with
  | case1 s ih =>
      rw [propagate] at h
      obtain ⟨next, hnext, h⟩ := bind_eq_ok.mp h
      obtain ⟨⟨u, pending⟩, hr, hu⟩ := bind_eq_ok.mp hnext
      cases hu
      split at h
      next hbelow => exact ih _ hbelow (hs.pass hr) h
      next hstill =>
        cases h
        have hprogress := settleAll_progress hs.coherent hs.differences hr
        rcases hprogress.eq_or_below with rfl | hbelow
        · exact ⟨s, hs, hr, rfl⟩
        · refine absurd ?_ hstill
          rw [rank_eq_rankAmong, rank_eq_rankAmong]
          exact (rankAmong_sublist ((settleAll_sublist hr).flatMap _)).below hbelow

/-- Where a pass learns nothing, settling one of its differences learns nothing. -/
theorem settle_of_settleAll (hs : s.Coherent I) {cs : List Difference}
    (hcs : ∀ c ∈ cs, s.ScopedDifference I c) {pending : List Difference}
    (h : s.settleAll cs = .ok (s, pending)) :
    ∀ c ∈ cs, ∃ done, s.settle c = .ok (s, done) := by
  induction cs generalizing pending with
  | nil => exact fun c hc => nomatch hc
  | cons c rest ih =>
      obtain ⟨hc, hrest⟩ := List.forall_mem_cons.mp hcs
      obtain ⟨⟨u, done⟩, hu, h⟩ := bind_eq_ok.mp h
      obtain ⟨⟨w, waiting⟩, hw, h⟩ := bind_eq_ok.mp h
      cases h
      have hsettles := settle_spec hs hc
      rw [hu] at hsettles
      have hsteps := hsettles.1
      have hthere : Progress ((c :: rest).flatMap Difference.terms) s u :=
        (settle_progress hs hc hu).mono (List.subset_append_left ..)
      have hback : Progress ((c :: rest).flatMap Difference.terms) u s :=
        (settleAll_progress (hsteps.coherent hs)
          (fun c' hc' => (hrest c' hc').steps hsteps) hw).mono (List.subset_append_right ..)
      cases hthere.antisymm hback
      exact List.forall_mem_cons.mpr ⟨⟨done, hu⟩, ih hrest hw⟩

end State

end Consonance
