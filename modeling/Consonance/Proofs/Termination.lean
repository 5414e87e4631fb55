import Consonance.Proofs.Learning
import Mathlib.Order.WellFoundedSet

/-!
# Propagation ends

Propagation makes passes until one of them changes no binding and no domain (`State.Ends`).  It
ends on every state over integers, whatever its domains and differences are: a variable may
have no domain or an empty one, and a difference may mention it several times.

*Bindings.*  Bindings that come in any order, without a cycle, can be made one after the other
(`Substitution.exists_triangular`).

*Passes.*  A pass that changes a binding or a domain lowers the rank, and one that changes
nothing keeps it (`Integral.pass`).  So the passes go on for as long as the rank falls, and no
longer (`ends_propagate`).

*Failures.*  What blocks the branch shows only integers that occur on the way, and sums and
differences of two of them (`State.Involves`).
-/

namespace Consonance

namespace Substitution

variable {σ τ : Substitution}

/-! ## Acyclic bindings -/

/-- Where no chain comes back to where it starts, some variable is bound to a value or to an
open variable. -/
theorem exists_last_link (hne : σ ≠ []) (hacyclic : ∀ x, ¬ Relation.TransGen σ.Links x x) :
    ∃ b ∈ σ, ∀ y, b.2 = .var y → ∀ t, (y, t) ∉ σ := by
  let Below (x y : Var) : Prop := Relation.TransGen σ.Links y x
  have : IsStrictOrder Var Below :=
    { irrefl := hacyclic, trans := fun _ _ _ hxy hyz => Relation.TransGen.trans hyz hxy }
  have hfinite : {x | x ∈ σ.map Prod.fst}.Finite := List.finite_toSet _
  have hwf := hfinite.wellFoundedOn (r := Below)
  obtain ⟨b, hb⟩ := List.exists_mem_of_ne_nil σ hne
  have hkey : ∀ {y : Var} {t : Term}, (y, t) ∈ σ → y ∈ σ.map Prod.fst := fun ht =>
    List.mem_map_of_mem (f := Prod.fst) ht
  obtain ⟨⟨x, hx⟩, -, hleast⟩ := hwf.has_min Set.univ ⟨⟨b.1, hkey hb⟩, Set.mem_univ _⟩
  obtain ⟨c, hc, rfl⟩ := List.mem_map.mp hx
  refine ⟨c, hc, fun y hy t ht => ?_⟩
  have hlink : σ.Links c.1 y := by
    rw [Links, ← hy]
    exact hc
  exact hleast ⟨y, hkey ht⟩ (Set.mem_univ _) (.single hlink)

/-- Bindings without a cycle can be made one after the other. -/
theorem exists_triangular (hfunctional : (σ.map Prod.fst).Nodup)
    (hacyclic : ∀ x, ¬ Relation.TransGen σ.Links x x) : ∃ τ, τ.Perm σ ∧ Triangular τ := by
  induction hlength : σ.length generalizing σ with
  | zero => exact ⟨σ, .refl σ, List.length_eq_zero_iff.mp hlength ▸ trivial⟩
  | succ n ih =>
      have hne : σ ≠ [] := List.ne_nil_of_length_eq_add_one hlength
      obtain ⟨⟨x, t⟩, hb, hopen⟩ := exists_last_link hne hacyclic
      obtain ⟨before, after, rfl⟩ := List.append_of_mem hb
      have hperm : (before ++ (x, t) :: after).Perm ((x, t) :: (before ++ after)) :=
        List.perm_middle
      have hnodup := (hperm.map Prod.fst).nodup_iff.mp hfunctional
      obtain ⟨hx, hrest⟩ := List.nodup_cons.mp hnodup
      have hlinks : ∀ y z, Links (before ++ after) y z → Links (before ++ (x, t) :: after) y z :=
        fun _ _ hlink => hperm.mem_iff.mpr (List.mem_cons_of_mem _ hlink)
      -- The binding of the last link is made last, after all the others.
      obtain ⟨τ, hτ, htriangular⟩ := ih hrest
        (fun y hy => hacyclic y (Relation.TransGen.mono hlinks _ _ hy))
        (Nat.succ.inj (hperm.length_eq.symm.trans hlength))
      have hin : ∀ b ∈ τ, b ∈ before ++ (x, t) :: after := fun b hb =>
        hperm.mem_iff.mpr (List.mem_cons_of_mem _ (hτ.mem_iff.mp hb))
      refine ⟨(x, t) :: τ, (hτ.cons _).trans hperm.symm, ?_, ?_, ?_, htriangular⟩
      · exact walk_of_unbound fun u hu => hx (List.mem_map.mpr ⟨(x, u), hτ.mem_iff.mp hu, rfl⟩)
      · cases t with
        | val v => exact walk_val τ v
        | var y => exact walk_of_unbound fun u hu => hopen y rfl u (hin _ hu)
      · rintro rfl
        exact hopen x rfl _ hb

end Substitution

namespace State

variable {I : Int → Prop} {s t u : State} {f : Failure} {r r' : Except Failure State} {n : Int}

/-! ## States over integers -/

/-- Bindings, domains and differences are over integers, and the bindings have been made one
after the other. -/
structure Integral (s : State) : Prop where
  elementary : s.Elementary fun _ => True
  differences : ∀ c ∈ s.differences, ∀ a ∈ c.terms, a.Over fun _ => True

/-- The second state has the same bindings and domains. -/
def Unchanged (s t : State) : Prop := t.substitution = s.substitution ∧ t.domains = s.domains

/-- Terms have the same rank where nothing has changed. -/
theorem Unchanged.rankAmong (h : s.Unchanged t) (terms : List Term) :
    t.rankAmong terms = s.rankAmong terms := by
  obtain ⟨σ, domains, cs, space⟩ := t
  obtain ⟨rfl, rfl⟩ := h
  rfl

/-- A pass changes nothing and keeps the rank, or it changes something and lowers the rank. -/
theorem Integral.pass (hs : s.Integral) (h : s.pass = .ok t) :
    t.Integral ∧ (s.Unchanged t ∧ t.rank = s.rank ∨ ¬ s.Unchanged t ∧ t.rank.Below s.rank) := by
  obtain ⟨⟨u, pending⟩, hu, ht⟩ := bind_eq_ok.mp h
  cases ht
  obtain ⟨helementary, hprogress, hrank⟩ := settleAll_works hs.elementary hs.differences hu
  let next : State := { u with differences := pending }
  have hnext : next.rank = u.rankAmong (s.differences.flatMap Difference.terms) := by
    rw [rank_eq_rankAmong, ← hrank]
    rfl
  refine ⟨⟨helementary.withDifferences pending, fun c hc => ?_⟩, ?_⟩
  · exact hs.differences c ((settleAll_sublist hu).subset hc)
  · rcases hprogress.eq_or_below with rfl | hbelow
    · exact .inl ⟨⟨rfl, rfl⟩, hnext.trans (rank_eq_rankAmong s).symm⟩
    · refine .inr ⟨fun hsame => ?_, ?_⟩
      · have heq : u.rankAmong (s.differences.flatMap Difference.terms) =
            s.rankAmong (s.differences.flatMap Difference.terms) :=
          Unchanged.rankAmong (t := u) hsame _
        rw [heq] at hbelow
        exact Rank.not_below_self hbelow
      · show next.rank.Below s.rank
        rwa [hnext, rank_eq_rankAmong]

/-! ## The loop -/

/-- Passes follow each other until one fails or changes no binding and no domain. -/
inductive Ends : State → Except Failure State → Prop where
  | failed {s : State} {f : Failure} (pass : s.pass = .error f) : Ends s (.error f)
  | last {s t : State} (pass : s.pass = .ok t) (same : s.Unchanged t) : Ends s (.ok t)
  | again {s t : State} {r : Except Failure State} (pass : s.pass = .ok t)
      (changed : ¬ s.Unchanged t) (later : Ends t r) : Ends s r

/-- The loop ends in one way only. -/
theorem Ends.unique (h : s.Ends r) (h' : s.Ends r') : r = r' := by
  induction h with
  | failed pass =>
      cases h' with
      | failed pass' => exact pass.symm.trans pass'
      | last pass' same => exact nomatch pass.symm.trans pass'
      | again pass' changed later => exact nomatch pass.symm.trans pass'
  | last pass same =>
      cases h' with
      | failed pass' => exact nomatch pass.symm.trans pass'
      | last pass' same' => exact pass.symm.trans pass'
      | again pass' changed later =>
          cases pass.symm.trans pass'
          exact absurd same changed
  | again pass changed later ih =>
      cases h' with
      | failed pass' => exact nomatch pass.symm.trans pass'
      | last pass' same =>
          cases pass.symm.trans pass'
          exact absurd same changed
      | again pass' changed' later' =>
          cases pass.symm.trans pass'
          exact ih later'

/-- The loop ends, and propagation gives what it ends with. -/
theorem ends_propagate (hs : s.Integral) : s.Ends s.propagate := by
  induction s using propagate.induct with
  | case1 s ih =>
      rw [propagate]
      cases hpass : s.pass with
      | error f => exact .failed hpass
      | ok t =>
          obtain ⟨ht, hcase⟩ := hs.pass hpass
          show s.Ends (if _ : t.rank.Below s.rank then t.propagate else .ok t)
          rcases hcase with ⟨hsame, hrank⟩ | ⟨hchanged, hbelow⟩
          · rw [dif_neg (hrank ▸ Rank.not_below_self)]
            exact .last hpass hsame
          · rw [dif_pos hbelow]
            exact .again hpass hchanged (ih t hbelow ht)

/-! ## Integers on the way -/

/-- The integer is in a binding, in a domain or in a difference. -/
def Occurs (s : State) (n : Int) : Prop :=
  (∃ b ∈ s.substitution, b.2 = .int n) ∨ (∃ x d, s.stored? x = some d ∧ n ∈ d) ∨
    ∃ c ∈ s.differences, .int n ∈ c.terms

/-- The loop comes to the state when it has settled some differences of a pass. -/
inductive Visits : State → State → Prop where
  | within {s u : State} {earlier later pending : List Difference}
      (differences : s.differences = earlier ++ later)
      (settled : s.settleAll earlier = .ok (u, pending)) : Visits s u
  | again {s t u : State} (pass : s.pass = .ok t) (changed : ¬ s.Unchanged t)
      (later : Visits t u) : Visits s u

/-- The integer occurs in a state that the loop comes to, or it is a sum or a difference of two
that do. -/
def Involves (s : State) (n : Int) : Prop := ∃ u, s.Visits u ∧ Derived u.Occurs n

theorem Elementary.occurs (hs : s.Elementary I) : s.Elementary s.Occurs where
  bindings b hb := by
    have hover := hs.bindings b hb
    obtain ⟨x, a⟩ := b
    cases a with
    | var y => trivial
    | val v =>
        obtain ⟨n, rfl, -⟩ := hover
        exact ⟨n, rfl, .inl ⟨_, hb, rfl⟩⟩
  domains x d hd := ⟨(hs.domains x d hd).integral, fun n hn => .inr (.inl ⟨x, d, hd, hn⟩)⟩
  triangular := hs.triangular

theorem Learns.differences {x : Var} (h : Learns s x t) : t.differences = s.differences := by
  cases h <;> rfl

theorem Progress.differences {terms : List Term} (h : Progress terms s t) :
    t.differences = s.differences := by
  induction h with
  | refl => rfl
  | tail _ learnt ih =>
      obtain ⟨_, -, x, -, learns⟩ := learnt
      exact learns.differences.trans ih

/-- Where settling fails, one of the differences fails after the ones before it. -/
theorem exists_of_settleAll_eq_error {cs : List Difference} (h : s.settleAll cs = .error f) :
    ∃ earlier c later u pending, cs = earlier ++ c :: later ∧
      s.settleAll earlier = .ok (u, pending) ∧ u.settle c = .error f := by
  induction cs generalizing s with
  | nil => cases h
  | cons c rest ih =>
      rcases bind_eq_error.mp h with h | ⟨⟨t, done⟩, ht, h⟩
      · exact ⟨[], c, rest, s, [], rfl, rfl, h⟩
      · rcases bind_eq_error.mp h with h | ⟨_, _, h⟩
        · obtain ⟨earlier, e, later, u, pending, rfl, hsettled, hfails⟩ := ih h
          refine ⟨c :: earlier, e, later, u, if done then pending else c :: pending, rfl, ?_,
            hfails⟩
          exact bind_eq_ok.mpr ⟨(t, done), ht, bind_eq_ok.mpr ⟨(u, pending), hsettled, rfl⟩⟩
        · cases h

/-- A pass that fails comes to a dead end, which shows integers that are involved. -/
theorem Integral.blocked (hs : s.Integral) (h : s.pass = .error f) : f.Blocked s.Involves := by
  have hfails : s.settleAll s.differences = .error f :=
    (bind_eq_error.mp h).elim id fun ⟨_, _, h⟩ => nomatch h
  obtain ⟨earlier, c, later, u, pending, hsplit, hsettled, hc⟩ :=
    exists_of_settleAll_eq_error hfails
  have hmem : ∀ e ∈ earlier, e ∈ s.differences := fun e he =>
    hsplit ▸ List.mem_append_left _ he
  obtain ⟨helementary, hprogress, -⟩ := settleAll_works hs.elementary
    (fun e he => hs.differences e (hmem e he)) hsettled
  have hcs : c ∈ s.differences := hsplit ▸ List.mem_append_right _ (List.mem_cons_self ..)
  have hcu : c ∈ u.differences := hprogress.differences ▸ hcs
  have hover : ∀ a ∈ c.terms, a.Over u.Occurs := by
    intro a ha
    have hint := hs.differences c hcs a ha
    cases a with
    | var x => trivial
    | val v =>
        obtain ⟨n, rfl, -⟩ := hint
        exact ⟨n, rfl, .inr (.inr ⟨c, hcu, ha⟩)⟩
  have hworks := settle_works helementary.occurs hover
  rw [hc] at hworks
  exact hworks.mono fun n hn => ⟨u, .within hsplit hsettled, hn⟩

theorem Ends.blocked (h : s.Ends (.error f)) (hs : s.Integral) : f.Blocked s.Involves := by
  generalize hr : Except.error f = r at h
  induction h with
  | failed pass =>
      cases hr
      exact hs.blocked pass
  | last pass same => cases hr
  | again pass changed later ih =>
      refine (ih (hs.pass pass).1 hr).mono fun n ⟨u, hu, hn⟩ => ?_
      exact ⟨u, .again pass changed hu, hn⟩

theorem Coherent.occurs (hs : s.Coherent I) (hcs : ∀ c ∈ s.differences, ∀ a ∈ c.terms, a.Over I)
    (h : s.Occurs n) : I n := by
  rcases h with ⟨⟨x, a⟩, hb, rfl⟩ | ⟨x, d, hd, hn⟩ | ⟨c, hc, hn⟩
  · obtain ⟨m, hm, hI⟩ := hs.bindings _ hb
    cases hm
    exact hI
  · exact (hs.domains x d hd).mem n hn
  · obtain ⟨m, hm, hI⟩ := hcs c hc _ hn
    cases hm
    exact hI

theorem WellFormed.occurs (hs : s.WellFormed I) (h : s.Occurs n) : I n :=
  hs.coherent.occurs (fun c hc a ha => (hs.differences c hc a ha).isOver) h

theorem WellFormed.visits (hs : s.WellFormed I) (h : s.Visits u) : u.WellFormed I := by
  induction h with
  | @within s u earlier later pending differences settled =>
      have hscoped : ∀ c ∈ earlier, s.ScopedDifference I c := fun c hc =>
        hs.differences c (differences ▸ List.mem_append_left later hc)
      have hspec := settleAll_spec hs.coherent hscoped
      rw [settled] at hspec
      exact hs.steps hspec.1
  | again pass _ _ ih =>
      obtain ⟨⟨w, pending⟩, hw, hu⟩ := bind_eq_ok.mp pass
      cases hu
      exact ih (hs.pass hw)

/-- Where the variables of the differences have domains, propagation comes to integers of the set,
and to sums and differences of two of them. -/
theorem WellFormed.involves (hs : s.WellFormed I) (h : s.Involves n) : Derived I n := by
  obtain ⟨u, hu, hn⟩ := h
  exact hn.mono fun m hm => (hs.visits hu).occurs hm

/-! ## Every state over integers -/

/-- Propagation ends, whatever the acyclic bindings, the domains and the differences over integers
are.  It fails with a dead end only, if the integers that are involved can be written. -/
theorem propagate_ends {σ : Substitution} (hfunctional : (σ.map Prod.fst).Nodup)
    (hacyclic : ∀ x, ¬ Relation.TransGen σ.Links x x) (hbindings : ∀ b ∈ σ, b.2.Over fun _ => True)
    {domains : List (Var × Domain)} (hdomains : ∀ x d, domains.lookup x = some d → d.Integral)
    {cs : List Difference} (hdifferences : ∀ c ∈ cs, ∀ a ∈ c.terms, a.Over fun _ => True)
    (space : PitchSpace) :
    (∃ τ : Substitution, τ.Perm σ ∧ τ.Triangular) ∧
      ∀ τ : Substitution, τ.Perm σ → τ.Triangular →
        let s : State := ⟨τ, domains, cs, space⟩
        s.Ends s.propagate ∧ ((∀ n, s.Involves n → Number.isWritable n = true) →
          ∀ f, s.propagate = .error f → ∃ cause, f = .deadEnd cause) := by
  refine ⟨Substitution.exists_triangular hfunctional hacyclic, fun τ hperm htriangular => ?_⟩
  intro s
  have hs : s.Integral := by
    refine ⟨⟨fun b hb => hbindings b (hperm.mem_iff.mp hb), fun x d hd => ?_, htriangular⟩,
      hdifferences⟩
    exact ⟨hdomains x d hd, fun _ _ => trivial⟩
  have hends := ends_propagate hs
  refine ⟨hends, fun hwritable f hf => ?_⟩
  exact (Ends.blocked (hf ▸ hends) hs).exists_deadEnd hwritable

/-- A variable with three values is to differ from itself by one.  The first pass leaves it one
value, and the second one comes to a dead end. -/
theorem propagate_ends_self :
    let x := Var.named "x"
    let y := Var.named "y"
    let s : State :=
      ⟨[(y, .var x)], [(x, .interval 1 3)], [⟨.var x, .var y, .int 1⟩], .midi⟩
    Substitution.Triangular [(y, .var x)] ∧ s.Ends s.propagate ∧
      (∀ n, s.Involves n → Number.isWritable n = true) ∧
      ∃ cause, s.propagate = .error (.deadEnd cause) := by
  intro x y s
  have htriangular : Substitution.Triangular [(y, .var x)] :=
    ⟨rfl, rfl, fun heq => absurd (Term.var.inj heq) (by decide), trivial⟩
  have hdomains : ∀ (z : Var) (d : Domain), [(x, Domain.interval 1 3)].lookup z = some d →
      d.Integral := fun z d hd => (eq_of_lookup_single hd).2 ▸ Domain.integral_interval 1 3
  have hdifference : ∀ a ∈ (Difference.mk (.var x) (.var y) (.int 1)).terms,
      a.Over fun _ => True :=
    Difference.forall_terms.mpr ⟨trivial, trivial, Term.over_int trivial⟩
  obtain ⟨hends, hdeadEnd⟩ := (propagate_ends htriangular.nodup htriangular.acyclic
    (List.forall_mem_singleton.mpr trivial) hdomains (List.forall_mem_singleton.mpr hdifference)
      .midi).2 _ (.refl _) htriangular
  -- The integers stay in the domain, which both variables have.
  let I : Int → Prop := fun n => 1 ≤ n ∧ n ≤ 3
  have hcoherent : s.Coherent I := by
    refine ⟨List.forall_mem_singleton.mpr trivial, fun z d hd => ?_, htriangular,
      fun z d hd => ?_, fun z d hd => ?_⟩ <;> obtain ⟨rfl, rfl⟩ := eq_of_lookup_single hd
    · exact ⟨Domain.integral_interval 1 3, fun n => Domain.mem_interval.mp⟩
    · exact ⟨1, Domain.mem_interval.mpr (by decide)⟩
    · exact ⟨.interval 1 3, rfl, fun n hn => hn⟩
  have hconfined : ∀ a : Term, s.walk a = .var x → s.Confined a := by
    intro a ha z hz
    cases ha.symm.trans hz
    exact ⟨.interval 1 3, rfl⟩
  have hwf : s.WellFormed I := by
    refine ⟨hcoherent, List.forall_mem_singleton.mpr (Difference.forall_terms.mpr ⟨?_, ?_, ?_⟩)⟩
    · exact ⟨trivial, .inr (hconfined _ rfl)⟩
    · exact ⟨trivial, .inr (hconfined _ rfl)⟩
    · exact ⟨⟨1, rfl, by decide⟩, .inr fun z hz => nomatch hz⟩
  have hwritable : ∀ n, s.Involves n → Number.isWritable n = true := by
    intro n hn
    have hsmall : n.natAbs < 10 ^ 1 := by
      cases hwf.involves hn with
      | same hm => omega
      | sub hm hk => omega
      | add hm hk => omega
    exact Number.isWritable_of_natAbs_lt (by decide) hsmall
  let two : State :=
    ⟨[(x, .int 2), (y, .var x)], [(x, .ofInts [2])], [⟨.var x, .var y, .int 1⟩], .midi⟩
  have hfirst : s.pass = .ok two := by with_unfolding_all rfl
  have hchanged : ¬ s.Unchanged two := fun hsame =>
    absurd (congrArg List.length hsame.1) (by decide)
  have hsecond : two.pass =
      Failure.raise (.deadEnd (.wrongDifference (.int 2) (.int 2) (.int 1))) := by
    with_unfolding_all rfl
  have hpropagate : s.propagate = .error _ :=
    hends.unique (.again hfirst hchanged (.failed hsecond))
  obtain ⟨cause, hcause⟩ := hdeadEnd hwritable _ hpropagate
  exact ⟨htriangular, hends, hwritable, cause, hpropagate.trans (congrArg Except.error hcause)⟩

end State

end Consonance
