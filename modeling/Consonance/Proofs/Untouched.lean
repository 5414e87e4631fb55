import Consonance.Proofs.Labelling
import Consonance.Proofs.Learning

/-!
# Untouched variables

A variable is *untouched* while a state says nothing of it: it is open, has no domain, and
stands for nothing but itself (`State.Untouched`).  An operation that does not mention an
untouched variable leaves it untouched, since bindings and domains are only ever given to
what a term of a constraint or of a suspended difference stands for (`post_untouched`).

What such a variable is under an assignment is of no account (`Untouched.solution`).
-/

namespace Consonance

theorem Substitution.respects_iff_walk {σ : Substitution} (h : σ.Triangular) {ρ : Assignment} :
    σ.Respects ρ ↔ ∀ t, (walk σ t).eval ρ = t.eval ρ := by
  constructor
  · exact fun hρ t => eval_walk hρ t
  · rintro hwalk ⟨x, t⟩ hb
    have hx := hwalk (.var x)
    rw [walk_bound h hb, hwalk t] at hx
    exact hx.symm

/-- What a variable is matters only to terms that mention it. -/
theorem Term.eval_update {t : Term} {x : Var} (h : t ≠ .var x) (ρ : Assignment) (n : Int) :
    t.eval (Function.update ρ x n) = t.eval ρ := by
  cases t with
  | var y =>
      have hne : y ≠ x := fun heq => h (heq ▸ rfl)
      exact Function.update_of_ne hne n ρ
  | val v => rfl

namespace State

variable {I : Int → Prop} {s t u : State} {x y : Var}

/-- Nothing is known of the variable. -/
structure Untouched (s : State) (x : Var) : Prop where
  isOpen : s.walk (.var x) = .var x
  bare : s.stored? x = none
  /-- No other term stands for the variable. -/
  alone : ∀ a, a ≠ .var x → s.walk a ≠ .var x

theorem untouched_empty (space : PitchSpace) (x : Var) : (empty space).Untouched x :=
  ⟨rfl, rfl, fun _ h => h⟩

theorem Untouched.withDifferences (hx : s.Untouched x) (cs : List Difference) :
    Untouched { s with differences := cs } x :=
  ⟨hx.isOpen, hx.bare, hx.alone⟩

theorem Untouched.addBinding (hx : s.Untouched x) (hne : y ≠ x) {a : Term}
    (hover : a.Over fun _ => True) (ha : a ≠ .var x) : (s.addBinding y a).Untouched x := by
  have hopen : s.walk (.var x) ≠ .var y := by
    rw [hx.isOpen]
    exact fun h => hne (Term.var.inj h).symm
  refine ⟨(walk_addBinding_ne hover hopen).trans hx.isOpen, hx.bare, fun b hb => ?_⟩
  by_cases hw : s.walk b = .var y
  · rwa [walk_addBinding_self hover hw]
  · rw [walk_addBinding_ne hover hw]
    exact hx.alone b hb

theorem Untouched.put (hx : s.Untouched x) (hne : y ≠ x) (d : Domain) :
    (s.put y d).Untouched x :=
  ⟨hx.isOpen, (stored?_put_ne s d hne.symm).trans hx.bare, hx.alone⟩

/-! ## Operations -/

theorem Learns.untouched (h : Learns s y t) (hne : y ≠ x) (hx : s.Untouched x) :
    t.Untouched x := by
  cases h with
  | @value n => exact hx.addBinding hne (Term.over_int trivial) nofun
  | @only d n => exact (hx.put hne d).addBinding hne (Term.over_int trivial) nofun
  | @several d _ _ => exact hx.put hne d

theorem Progress.untouched {terms : List Term} (h : Progress terms s t)
    (hterms : .var x ∉ terms) (hx : s.Untouched x) : t.Untouched x := by
  induction h with
  | refl => exact hx
  | tail _ learnt ih =>
      obtain ⟨a, ha, y, hw, learns⟩ := learnt
      refine learns.untouched (fun heq => ?_) ih
      exact ih.alone a (fun h => hterms (h ▸ ha)) (heq ▸ hw)

theorem propagate_untouched (hs : s.WellFormed I) (h : s.propagate = .ok t)
    (hx : s.Untouched x) (hd : ∀ d ∈ s.differences, .var x ∉ d.terms) : t.Untouched x := by
  refine (propagate_keeps (P := fun w => w.Untouched x ∧ ∀ d ∈ w.differences, .var x ∉ d.terms)
    hs h (fun w u pending hw hr hP => ?_) ⟨hx, hd⟩).1
  have hterms : Term.var x ∉ w.differences.flatMap Difference.terms := by
    intro hmem
    obtain ⟨d, hd, hx⟩ := List.mem_flatMap.mp hmem
    exact hP.2 d hd hx
  have hu := (settleAll_progress hw.coherent hw.differences hr).untouched hterms hP.1
  exact ⟨hu.withDifferences pending, fun d hd => hP.2 d ((settleAll_sublist hr).subset hd)⟩

theorem equate_untouched (hs : s.Coherent I) {a b : Term} (ha : a.Over I) (hb : b.Over I)
    (hax : a ≠ .var x) (hbx : b ≠ .var x) (h : s.equate a b = .ok t) (hx : s.Untouched x) :
    t.Untouched x := by
  cases hwa : s.walk a with
  | val v =>
      have hprogress := (equate_proceeds_left hs.elementary ha hb (by rw [hwa]; rfl)).progress h
      exact hprogress.untouched (fun hmem => hbx (List.mem_singleton.mp hmem).symm) hx
  | var y =>
      cases hwb : s.walk b with
      | val v =>
          have hprogress := (equate_proceeds hs.elementary ha hb (by rw [hwb]; rfl)).progress h
          exact hprogress.untouched (fun hmem => hax (List.mem_singleton.mp hmem).symm) hx
      | var z =>
          have hy : y ≠ x := fun heq => hx.alone a hax (heq ▸ hwa)
          have hz : z ≠ x := fun heq => hx.alone b hbx (heq ▸ hwb)
          have hzx : Term.var z ≠ .var x := fun heq => hz (Term.var.inj heq)
          simp only [equate, hwa, hwb, Substitution.binding?] at h
          by_cases hyz : y = z
          · simp only [if_pos hyz] at h
            cases h
            exact hx
          · simp only [if_neg hyz] at h
            obtain ⟨r, hr, rfl⟩ := bindVar_eq h
            rcases hr with rfl | ⟨m, rfl⟩
            · exact hx.addBinding hy trivial hzx
            · exact (hx.put hz m).addBinding hy trivial hzx

/-- A constraint leaves what it does not mention untouched. -/
theorem post_untouched {W : Var → Prop} (hs : s.WellFormed I) {c : Constraint}
    (hc : c.Among I W) (henters : s.Enters I c (c.enter s)) (h : c.post s = .ok t)
    (hx : s.Untouched x) (hterms : .var x ∉ c.terms)
    (hd : ∀ d ∈ s.differences, .var x ∉ d.terms) : t.Untouched x := by
  obtain ⟨u, hu, hprop⟩ := bind_eq_ok.mp ((c.post_eq s).symm.trans h)
  rw [hu] at henters
  obtain ⟨hwf, -, hposted, -⟩ := henters
  have hux : u.Untouched x := by
    cases c with
    | equal a b =>
        refine equate_untouched hs.coherent hc.1.isOver hc.2.isOver (fun heq => ?_)
          (fun heq => ?_) hu hx
        · exact hterms (heq ▸ List.mem_cons_self ..)
        · exact hterms (heq ▸ by simp [Constraint.terms])
    | restricted a allowed =>
        have hnarrow := narrow_proceeds hs.coherent.elementary hc.1.isOver
          ⟨hc.2.1, fun htest => absurd htest hc.2.2⟩
        exact (hnarrow.progress hu).untouched hterms hx
    | apart a b d =>
        cases hu
        exact hx.withDifferences _
  refine propagate_untouched hwf hprop hux fun d hd' => ?_
  rw [hposted] at hd'
  rcases List.mem_append.mp hd' with hd' | hd'
  · exact hd d hd'
  · cases c with
    | equal a b => cases hd'
    | restricted a allowed => cases hd'
    | apart a b e =>
        cases List.mem_singleton.mp hd'
        exact hterms

/-! ## Assignments -/

theorem Untouched.fits (hx : s.Untouched x) (hs : s.Coherent I) {ρ : Assignment} (hρ : s.Fits ρ)
    (n : Int) : s.Fits (Function.update ρ x n) := by
  refine ⟨(Substitution.respects_iff_walk hs.triangular).mpr fun a => ?_, fun y d hd => ?_⟩
  · show (s.walk a).eval _ = a.eval _
    by_cases ha : a = .var x
    · rw [ha, hx.isOpen]
    · rw [Term.eval_update ha, Term.eval_update (hx.alone a ha)]
      exact eval_walk hρ a
  · have hne : y ≠ x := fun heq => by
      rw [heq, hx.bare] at hd
      cases hd
    rw [Function.update_of_ne hne]
    exact hρ.domains y d hd

/-- An untouched variable that no difference mentions may be any integer. -/
theorem Untouched.solution (hx : s.Untouched x) (hs : s.Coherent I)
    (hd : ∀ d ∈ s.differences, .var x ∉ d.terms) {ρ : Assignment} (hρ : s.Solution ρ) (n : Int) :
    s.Solution (Function.update ρ x n) := by
  refine ⟨hx.fits hs hρ.fits n, fun d hd' => ?_⟩
  have hterms : ∀ a ∈ d.terms, a ≠ .var x := fun a ha heq => hd d hd' (heq ▸ ha)
  obtain ⟨ha, hb, hdistance⟩ := Difference.forall_terms.mp hterms
  rw [Difference.Holds, Term.eval_update ha, Term.eval_update hb, Term.eval_update hdistance]
  exact hρ.differences d hd'

end State

end Consonance
