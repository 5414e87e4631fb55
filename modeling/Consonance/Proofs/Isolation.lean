import Consonance.Proofs.Learning

/-!
# Open variables with one value

A restriction that leaves a variable one value binds the variable to it.  Equating two open
variables does not.  It stores the values that both may take for one of them, and binds the
other one to it.  If both may take only one value, the variable stays open with a domain of
that value (`Constraint.Isolates`).

*Step.*  Posting a constraint leaves a variable open and alone in this way only.  What was so
before and is still open stays so (`post_lone_iff`).  Propagation is no way out.  A domain
that it finds unchanged is left alone, and one that it changes is a smaller one.

*Run.*  So an open variable ends with a domain of several values, or with none, unless an
equation of a run has isolated it (`State.postAll_several_iff`).
-/

namespace Consonance

namespace State

variable {I : Int → Prop} {s t u : State}

/-- The variable is open, and its domain has one value. -/
structure Lone (s : State) (x : Var) : Prop where
  isOpen : s.walk (.var x) = .var x
  single : ∃ d, s.stored? x = some d ∧ d.size = 1

/-- The values that a variable may take once another one with a domain is bound to it. -/
def merged (s : State) (x : Var) (d : Domain) : Domain :=
  match s.stored? x with
  | none => d
  | some e => d.intersect e

/-! ## Learning leaves no variable alone -/

theorem Learns.lone {x y : Var} (h : Learns s y t) (hx : t.Lone x) : s.Lone x := by
  obtain ⟨hopen, d, hd, hone⟩ := hx
  -- A variable that is open afterwards is not the one that was bound.
  have hbound : ∀ {w : State} {n : Int}, (w.addBinding y (.int n)).walk (.var x) = .var x →
      w.walk (.var x) = .var x ∧ x ≠ y := by
    intro w n hw
    have hne : w.walk (.var x) ≠ .var y := fun heq =>
      nomatch (Substitution.walk_cons_self (.int n) heq).symm.trans hw
    have hwalk : w.walk (.var x) = .var x :=
      (Substitution.walk_cons_ne (.int n) hne).symm.trans hw
    exact ⟨hwalk, fun heq => hne (heq ▸ hwalk)⟩
  cases h with
  | value => exact ⟨(hbound hopen).1, d, hd, hone⟩
  | only =>
      obtain ⟨hwalk, hne⟩ := hbound hopen
      exact ⟨hwalk, d, (stored?_put_ne s _ hne).symm.trans hd, hone⟩
  | @several e several smaller =>
      have hne : x ≠ y := by
        rintro rfl
        rw [stored?_put_self] at hd
        cases hd
        omega
      exact ⟨hopen, d, (stored?_put_ne s e hne).symm.trans hd, hone⟩

theorem Progress.lone {terms : List Term} {x : Var} (h : Progress terms s t) (hx : t.Lone x) :
    s.Lone x := by
  induction h with
  | refl => exact hx
  | tail _ learnt ih =>
      obtain ⟨_, -, y, -, hlearns⟩ := learnt
      exact ih (hlearns.lone hx)

theorem propagate_lone (hs : s.WellFormed I) (h : s.propagate = .ok t) {x : Var}
    (hx : t.Lone x) : s.Lone x := by
  refine propagate_keeps (P := fun w => w.Lone x → s.Lone x) hs h ?_ id hx
  intro w u pending hw hr hback hlone
  exact hback ((settleAll_progress hw.coherent hw.differences hr).lone ⟨hlone.isOpen, hlone.single⟩)

/-- A variable that is alone stays so while it is open. -/
theorem Lone.refines {x : Var} (h : s.Lone x) (hs : s.Coherent I) (ht : t.Coherent I)
    (hst : t.Refines s) (hopen : t.walk (.var x) = .var x) : t.Lone x := by
  obtain ⟨-, d, hd, hone⟩ := h
  obtain ⟨e, he, hsub⟩ := hst.domains x d hd
  refine ⟨hopen, e, he, ?_⟩
  by_cases hed : e = d
  · rw [hed, hone]
  · have hlt := (ht.domains x e he).integral.size_lt (hs.domains x d hd).integral hsub hed
    have hpos := Domain.one_le_size (ht.occupied x e he)
    omega

/-! ## Equations -/

/-- The walk of an open variable after another one was bound to a third. -/
theorem walk_addBinding_var {x y z : Var} (hx : s.walk (.var x) = .var x) (hxz : x ≠ z)
    (h : (s.addBinding z (.var x)).walk (.var y) = .var y) : s.walk (.var y) = .var y := by
  have hover : (Term.var x).Over fun _ => True := trivial
  by_cases hw : s.walk (.var y) = .var z
  · rw [walk_addBinding_self hover hw] at h
    cases h
    exact absurd (Term.var.inj (hx.symm.trans hw)) hxz
  · rwa [walk_addBinding_ne hover hw] at h

theorem bindVar_lone {x z : Var} (hx : s.walk (.var x) = .var x) (hxz : x ≠ z)
    (h : s.bindVar z x = .ok t) {y : Var} (hy : t.Lone y) :
    s.Lone y ∨ y = x ∧ ∃ d, s.stored? z = some d ∧ (s.merged x d).size = 1 := by
  obtain ⟨hopen, e, he, hone⟩ := hy
  cases hd : s.stored? z with
  | none =>
      simp only [bindVar, hd] at h
      cases h
      exact .inl ⟨walk_addBinding_var hx hxz hopen, e, he, hone⟩
  | some d =>
      simp only [bindVar, hd] at h
      change (if (s.merged x d).isEmpty = true then _
        else Except.ok ((s.put x (s.merged x d)).addBinding z (.var x))) = Except.ok t at h
      split at h
      next => cases h
      next =>
        cases h
        rw [stored?_addBinding] at he
        by_cases hyx : y = x
        · subst hyx
          rw [stored?_put_self] at he
          cases he
          exact .inr ⟨rfl, d, rfl, hone⟩
        · exact .inl ⟨walk_addBinding_var (s := s.put x (s.merged x d)) hx hxz hopen, e,
            (stored?_put_ne s _ hyx).symm.trans he, hone⟩

end State

/-- Posting the constraint binds another open variable with a domain to this one, and there
is one value that both may take. -/
def Constraint.Isolates (c : Constraint) (s : State) (x : Var) : Prop :=
  ∃ a b z d, c = .equal a b ∧ s.walk a = .var z ∧ s.walk b = .var x ∧ x ≠ z ∧
    s.stored? z = some d ∧ (s.merged x d).size = 1

namespace State

variable {I : Int → Prop} {s t u : State}

theorem equate_lone (hs : s.Coherent I) {a b : Term} (ha : a.Over (Derived I))
    (hb : b.Over (Derived I)) (h : s.equate a b = .ok t) {y : Var} (hy : t.Lone y) :
    s.Lone y ∨ (Constraint.equal a b).Isolates s y := by
  have helementary := hs.elementary.mono (J := Derived I) fun _ => .same
  cases hwb : s.walk b with
  | val w =>
      exact .inl (((equate_proceeds helementary ha hb (by rw [hwb]; rfl)).progress h).lone hy)
  | var x =>
      cases hwa : s.walk a with
      | val v =>
          have hequate := equate_proceeds_left helementary ha hb (by rw [hwa]; rfl)
          exact .inl ((hequate.progress h).lone hy)
      | var z =>
          by_cases hzx : z = x
          · simp only [equate, hwa, hwb, Substitution.binding?, if_pos hzx] at h
            cases h
            exact .inl hy
          · simp only [equate, hwa, hwb, Substitution.binding?, if_neg hzx] at h
            have hxz : x ≠ z := fun heq => hzx heq.symm
            refine (bindVar_lone (hs.walk_var hwb) hxz h hy).imp id ?_
            rintro ⟨rfl, d, hd, hone⟩
            exact ⟨a, b, z, d, rfl, hwa, hwb, hxz, hd, hone⟩

/-- An isolated variable is alone after the equation. -/
theorem equate_isolates (hs : s.Coherent I) {a b : Term} {x : Var}
    (hisolates : (Constraint.equal a b).Isolates s x) (h : s.equate a b = .ok t) : t.Lone x := by
  obtain ⟨a, b, z, d, heq, hwa, hwb, hxz, hd, hone⟩ := hisolates
  cases heq
  have hx := hs.walk_var hwb
  simp only [equate, hwa, hwb, Substitution.binding?, if_neg hxz.symm] at h
  replace h : s.bindVar z x = .ok t := h
  simp only [bindVar, hd] at h
  change (if (s.merged x d).isEmpty = true then _
    else Except.ok ((s.put x (s.merged x d)).addBinding z (.var x))) = Except.ok t at h
  split at h
  next => cases h
  next =>
    cases h
    have hover : (Term.var x).Over fun _ => True := trivial
    have hne : s.walk (.var x) ≠ .var z := fun heq => hxz (Term.var.inj (hx.symm.trans heq))
    refine ⟨(walk_addBinding_ne hover hne).trans hx, s.merged x d, ?_, hone⟩
    exact (stored?_addBinding _ z x (.var x)).trans (stored?_put_self s x _)

/-! ## One post -/

theorem enter_lone (hs : s.WellFormed fun _ => True) {c : Constraint} (hc : c.Integral)
    (h : c.enter s = .ok t) {x : Var} (hx : t.Lone x) : s.Lone x ∨ c.Isolates s x := by
  cases c with
  | equal a b =>
      exact equate_lone hs.coherent (hc.1.mono fun _ h => .same h) (hc.2.mono fun _ h => .same h)
        h hx
  | restricted a allowed =>
      have hnarrow := narrow_proceeds hs.coherent.elementary hc.1 ⟨hc.2, fun _ _ _ => trivial⟩
      exact .inl ((hnarrow.progress h).lone hx)
  | apart a b d =>
      cases h
      exact .inl ⟨hx.isOpen, hx.single⟩

/-- What a post leaves open and alone was so before, or the post has isolated it. -/
theorem post_lone_iff (hs : s.WellFormed fun _ => True) {c : Constraint} (hc : c.Integral)
    (h : c.post s = .ok t) {x : Var} (hopen : t.walk (.var x) = .var x) :
    t.Lone x ↔ s.Lone x ∨ c.Isolates s x := by
  obtain ⟨u, hu, hprop⟩ := bind_eq_ok.mp ((c.post_eq s).symm.trans h)
  have henters := enter_spec hs (hc.scoped s)
  rw [hu] at henters
  obtain ⟨hwf, hadv, -⟩ := henters
  have htakes := propagate_takes hwf
  rw [hprop] at htakes
  obtain ⟨ht, hlater, -⟩ := htakes
  constructor
  · exact fun hlone => enter_lone hs hc hu (propagate_lone hwf hprop hlone)
  · rintro (hlone | hisolates)
    · exact hlone.refines hs.coherent ht.coherent (hlater.refines.trans hadv.refines) hopen
    · have hlone : u.Lone x := by
        obtain ⟨a, b, z, d, rfl, hrest⟩ := hisolates
        exact equate_isolates hs.coherent ⟨a, b, z, d, rfl, hrest⟩ hu
      exact hlone.refines hwf.coherent ht.coherent hlater.refines hopen

/-! ## Runs -/

/-- Some constraint of a run isolates the variable, in the state that those before it give. -/
def Isolated (s : State) (cs : List Constraint) (x : Var) : Prop :=
  ∃ before c after u, cs = before ++ c :: after ∧ s.postAll before = .ok u ∧ c.Isolates u x

theorem not_isolated_nil (s : State) (x : Var) : ¬ s.Isolated [] x := by
  rintro ⟨before, c, after, u, heq, -⟩
  exact List.append_ne_nil_of_right_ne_nil before (List.cons_ne_nil c after) heq.symm

theorem isolated_cons {c : Constraint} {rest : List Constraint} (h : c.post s = .ok u) (x : Var) :
    s.Isolated (c :: rest) x ↔ c.Isolates s x ∨ u.Isolated rest x := by
  constructor
  · rintro ⟨before, c', after, w, heq, hbefore, hisolates⟩
    cases before with
    | nil =>
        cases heq
        cases hbefore
        exact .inl hisolates
    | cons c₁ before =>
        cases heq
        obtain ⟨u', hu', hbefore⟩ := bind_eq_ok.mp hbefore
        cases h.symm.trans hu'
        exact .inr ⟨before, c', after, w, rfl, hbefore, hisolates⟩
  · rintro (hisolates | ⟨before, c', after, w, rfl, hbefore, hisolates⟩)
    · exact ⟨[], c, rest, s, rfl, rfl, hisolates⟩
    · exact ⟨c :: before, c', after, w, rfl, bind_eq_ok.mpr ⟨u, h, hbefore⟩, hisolates⟩

/-- A run keeps a state well formed and refines it. -/
theorem postAll_refines (hs : s.WellFormed fun _ => True) {cs : List Constraint}
    (hcs : ∀ c ∈ cs, c.Integral) (h : s.postAll cs = .ok t) :
    (t.WellFormed fun _ => True) ∧ t.Refines s := by
  induction cs generalizing s with
  | nil =>
      cases h
      exact ⟨hs, .refl _⟩
  | cons c rest ih =>
      obtain ⟨hc, hrest⟩ := List.forall_mem_cons.mp hcs
      obtain ⟨u, hu, h⟩ := bind_eq_ok.mp h
      have htakes := post_takes hs (hc.scoped s)
      rw [hu] at htakes
      obtain ⟨hwf, hlater⟩ := ih htakes.1 hrest h
      exact ⟨hwf, hlater.trans (post_extends hs (hc.scoped s) hu).refines⟩

/-- At the end of a run an open variable is alone if it was so before, or if some constraint of
the run has isolated it. -/
theorem postAll_lone_iff (hs : s.WellFormed fun _ => True) {cs : List Constraint}
    (hcs : ∀ c ∈ cs, c.Integral) (h : s.postAll cs = .ok t) {x : Var}
    (hopen : t.walk (.var x) = .var x) : t.Lone x ↔ s.Lone x ∨ s.Isolated cs x := by
  induction cs generalizing s with
  | nil =>
      cases h
      simp only [not_isolated_nil, or_false]
  | cons c rest ih =>
      obtain ⟨hc, hrest⟩ := List.forall_mem_cons.mp hcs
      obtain ⟨u, hu, h⟩ := bind_eq_ok.mp h
      have htakes := post_takes hs (hc.scoped s)
      rw [hu] at htakes
      obtain ⟨hwf, hrefines⟩ := postAll_refines htakes.1 hrest h
      have hbefore := hrefines.walk_of_open hwf.coherent hopen
      rw [ih htakes.1 hrest h, post_lone_iff hs hc hu hbefore, isolated_cons hu, or_assoc]

/-- After a run from the empty state the domain of an open variable has several values, if it
has a domain, unless an equation of the run has isolated the variable. -/
theorem postAll_several_iff {space : PitchSpace} {cs : List Constraint}
    (hcs : ∀ c ∈ cs, c.Integral) (h : (empty space).postAll cs = .ok t) {x : Var}
    (hopen : t.walk (.var x) = .var x) :
    (∀ d, t.stored? x = some d → 2 ≤ d.size) ↔ ¬ (empty space).Isolated cs x := by
  have hempty := wellFormed_empty (fun _ => True) space
  have hlone := postAll_lone_iff hempty hcs h hopen
  have hbare : ¬ (empty space).Lone x := fun ⟨_, _, hd, _⟩ => nomatch hd
  rw [or_iff_right hbare] at hlone
  rw [← hlone]
  have ht := (postAll_refines hempty hcs h).1.coherent
  constructor
  · rintro hseveral ⟨-, d, hd, hone⟩
    have := hseveral d hd
    omega
  · intro hnot d hd
    have hpos := Domain.one_le_size (ht.occupied x d hd)
    have hne : d.size ≠ 1 := fun hone => hnot ⟨hopen, d, hd, hone⟩
    omega

/-- Two variables that share the value two are made equal. -/
theorem postAll_several_iff_shared :
    let x := Var.named "x"
    let y := Var.named "y"
    let cs : List Constraint := [.restricted (.var x) (.values [.int 1, .int 2]),
      .restricted (.var y) (.values [.int 2, .int 3]), .equal (.var x) (.var y)]
    let t : State := ⟨[(x, .var y)], [(x, .interval 1 2), (y, .interval 2 2)], [], .midi⟩
    (empty .midi).postAll cs = .ok t ∧ t.walk (.var y) = .var y ∧
      (¬ ∀ d, t.stored? y = some d → 2 ≤ d.size) ∧ (empty .midi).Isolated cs y := by
  intro x y cs t
  have hvalues : ∀ a b : Int, (Allowed.values [.int a, .int b]).Over fun _ => True :=
    fun a b => ⟨[a, b], rfl, fun _ _ => trivial⟩
  have hcs : ∀ c ∈ cs, c.Integral := by
    refine List.forall_mem_cons.mpr ⟨⟨trivial, hvalues 1 2⟩, ?_⟩
    refine List.forall_mem_cons.mpr ⟨⟨trivial, hvalues 2 3⟩, ?_⟩
    exact List.forall_mem_singleton.mpr ⟨trivial, trivial⟩
  have hrun : (empty .midi).postAll cs = .ok t := by
    refine bind_eq_ok.mpr ⟨⟨[], [(x, .interval 1 2)], [], .midi⟩, propagate_of_open nofun, ?_⟩
    refine bind_eq_ok.mpr ⟨⟨[], [(x, .interval 1 2), (y, .interval 2 3)], [], .midi⟩,
      propagate_of_open nofun, ?_⟩
    exact bind_eq_ok.mpr ⟨t, propagate_of_open nofun, rfl⟩
  have hfew : ¬ ∀ d, t.stored? y = some d → 2 ≤ d.size := fun hseveral =>
    absurd (hseveral (.interval 2 2) rfl) (by decide)
  have hiff := postAll_several_iff hcs hrun (x := y) rfl
  exact ⟨hrun, rfl, hfew, not_not.mp fun hnot => hfew (hiff.mpr hnot)⟩

end State

end Consonance
