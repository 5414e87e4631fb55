import Consonance.Proofs.Persistence

/-!
# What an operation learns

Unless two open variables are made equal, a solver learns of a variable in three ways:
its value, a domain of one value and with it that value, or a smaller domain of several
values (`State.Learns`).  Steps say the same more loosely.  They also allow a domain of one
value to stay, and a domain to be stored again as it was.

*Elementary states.*  An operation asks little of a state: its bindings are made one after the
other, and bindings and domains are over integers (`State.Elementary`).  A domain may be empty,
and a variable may be bound to what is not in its own.

*Progress.*  Settling a difference learns of variables that its terms stand for, and of no
others.  All of its terms are known when it is done (`settle_works`).  What blocks the branch
shows integers of the state, their sums and their differences.
-/

namespace Consonance

namespace State

variable {I : Int → Prop} {s t u : State}

/-! ## Learning of one variable -/

/-- Something is learnt of a variable. -/
inductive Learns (s : State) (x : Var) : State → Prop where
  | value {n : Int} : Learns s x (s.addBinding x (.int n))
  /-- A domain of one value, and that value. -/
  | only {d : Domain} {n : Int} : Learns s x ((s.put x d).addBinding x (.int n))
  /-- A domain of several values, with fewer of them than before. -/
  | several {d : Domain} (several : 2 ≤ d.size)
      (smaller : ∀ c, s.stored? x = some c → d.size < c.size) : Learns s x (s.put x d)

/-- Something is learnt of an open variable that one of the terms stands for. -/
def Learnt (terms : List Term) (s t : State) : Prop :=
  ∃ a ∈ terms, ∃ x, s.walk a = .var x ∧ Learns s x t

/-- Things are learnt one after the other. -/
abbrev Progress (terms : List Term) : State → State → Prop :=
  Relation.ReflTransGen (Learnt terms)

/-- Terms that are the same stay the same. -/
theorem Learns.walk_congr {x : Var} (h : Learns s x t) {a b : Term} (hab : s.walk a = s.walk b) :
    t.walk a = t.walk b := by
  have hbinding : ∀ target : Term,
      Substitution.walk ((x, target) :: s.substitution) a =
        Substitution.walk ((x, target) :: s.substitution) b := by
    intro target
    simp only [walk] at hab
    simp only [Substitution.walk, hab]
  cases h with
  | value => exact hbinding _
  | only => exact hbinding _
  | several => exact hab

theorem Progress.walk_congr {terms : List Term} (h : Progress terms s t) {a b : Term}
    (hab : s.walk a = s.walk b) : t.walk a = t.walk b := by
  induction h with
  | refl => exact hab
  | tail _ learnt ih =>
      obtain ⟨_, -, x, -, learns⟩ := learnt
      exact learns.walk_congr ih

/-- Known terms keep their values. -/
theorem Progress.walk_val {terms : List Term} (h : Progress terms s t) {a : Term} {v : Value}
    (ha : s.walk a = .val v) : t.walk a = .val v := by
  have hval : ∀ u : State, u.walk (.val v) = .val v := fun u => Substitution.walk_val _ v
  exact (h.walk_congr (ha.trans (hval s).symm)).trans (hval t)

theorem Progress.mono {terms others : List Term} (h : Progress terms s t)
    (hsub : terms ⊆ others) : Progress others s t :=
  Relation.ReflTransGen.mono (fun _ _ ⟨a, ha, hx⟩ => ⟨a, hsub ha, hx⟩) _ _ h

/-- Progress on walked terms is progress on the terms. -/
theorem Progress.of_walk {terms : List Term} (hs : s.substitution.Triangular)
    (h : Progress (terms.map s.walk) s t) : Progress terms s t := by
  induction h with
  | refl => exact .refl
  | tail earlier learnt ih =>
      obtain ⟨b, hb, x, hx, learns⟩ := learnt
      obtain ⟨a, ha, rfl⟩ := List.mem_map.mp hb
      have hwalk : s.walk (s.walk a) = s.walk a := Substitution.walk_walk hs a
      exact ih.tail ⟨a, ha, x, (Progress.walk_congr earlier hwalk).symm.trans hx, learns⟩

/-! ## Operations -/

/-- What an operation asks of a state: bindings to variables and to integers of a set, made one
after the other, and domains of such integers. -/
structure Elementary (I : Int → Prop) (s : State) : Prop where
  bindings : ∀ b ∈ s.substitution, b.2.Over I
  domains : ∀ x d, s.stored? x = some d → d.Over I
  triangular : s.substitution.Triangular

theorem Coherent.elementary (hs : s.Coherent I) : s.Elementary I :=
  ⟨hs.bindings, hs.domains, hs.triangular⟩

namespace Elementary

variable {x : Var} {a : Term}

theorem mono {J : Int → Prop} (hs : s.Elementary I) (hIJ : ∀ n, I n → J n) : s.Elementary J :=
  ⟨fun b hb => (hs.bindings b hb).mono hIJ,
    fun x d hd => ⟨(hs.domains x d hd).integral, fun n hn => hIJ n ((hs.domains x d hd).mem n hn)⟩,
    hs.triangular⟩

theorem withDifferences (hs : s.Elementary I) (cs : List Difference) :
    Elementary I { s with differences := cs } :=
  ⟨hs.bindings, hs.domains, hs.triangular⟩

theorem walk_val (hs : s.Elementary I) (ha : a.Over I) {v : Value} (h : s.walk a = .val v) :
    ∃ n, v = .int n ∧ I n := by
  have hw := walk_over_of hs.bindings ha
  rwa [show s.substitution.walk a = .val v from h] at hw

theorem walk_var (hs : s.Elementary I) (h : s.walk a = .var x) : s.walk (.var x) = .var x := by
  rw [← h]
  exact Substitution.walk_walk hs.triangular a

theorem addBinding (hs : s.Elementary I) (hx : s.walk (.var x) = .var x) {n : Int} (hn : I n) :
    (s.addBinding x (.int n)).Elementary I :=
  ⟨List.forall_mem_cons.mpr ⟨Term.over_int hn, hs.bindings⟩, hs.domains,
    hx, Substitution.walk_val _ _, nofun, hs.triangular⟩

theorem put (hs : s.Elementary I) {d : Domain} (hd : d.Over I) : (s.put x d).Elementary I := by
  refine ⟨hs.bindings, fun y e he => ?_, hs.triangular⟩
  by_cases hy : y = x
  · subst hy
    rw [stored?_put_self] at he
    exact Option.some.inj he ▸ hd
  · exact hs.domains y e ((stored?_put_ne s d hy).symm.trans he)

end Elementary

/-- The outcome learns of variables that some terms stand for, or it blocks the branch. -/
def Proceeds (I : Int → Prop) (terms : List Term) (s : State) : Except Failure State → Prop
  | .ok t => t.Elementary I ∧ Progress terms s t
  | .error f => f.Blocked I

section Proceeds

variable {terms : List Term} {r : Except Failure State}

theorem Proceeds.progress (h : Proceeds I terms s r) (hr : r = .ok t) : Progress terms s t := by
  subst hr
  exact h.2

theorem Proceeds.mono {others : List Term} (h : Proceeds I terms s r) (hsub : terms ⊆ others) :
    Proceeds I others s r := by
  cases r with
  | ok t => exact ⟨h.1, h.2.mono hsub⟩
  | error f => exact h

theorem Proceeds.andThen {k : State → Except Failure State} (h : Proceeds I terms s r)
    (hk : ∀ t, t.Elementary I → Proceeds I terms t (k t)) : Proceeds I terms s (r >>= k) := by
  cases r with
  | error f => exact h
  | ok t =>
      have ht := hk t h.1
      show Proceeds I terms s (k t)
      cases hkt : k t with
      | error f =>
          rw [hkt] at ht
          exact ht
      | ok u =>
          rw [hkt] at ht
          exact ⟨ht.1, h.2.trans ht.2⟩

theorem proceeds_self (hs : s.Elementary I) : Proceeds I terms s (.ok s) := ⟨hs, .refl⟩

end Proceeds

/-- Binding a variable to an integer either does so or blocks the branch. -/
theorem bindValue_outcome (hs : s.Elementary I) (x : Var) {n : Int} (hn : I n) :
    s.bindValue x (.int n) = .ok (s.addBinding x (.int n)) ∨
      ∃ f, s.bindValue x (.int n) = .error f ∧ f.Blocked I := by
  cases hd : s.stored? x with
  | none =>
      left
      simp only [bindValue, hd]
      rfl
  | some d =>
      have hover := hs.domains x d hd
      by_cases hmem : n ∈ d
      · exact .inl (bindValue_of_mem hd hover.integral hmem)
      · refine .inr ⟨_, bindValue_of_not_mem hd hover.integral hmem, ?_⟩
        refine Failure.blocked_deadEnd fun sh hsh => ?_
        rcases List.mem_cons.mp hsh with rfl | hsh
        · exact ⟨n, rfl, hn⟩
        · exact shownOfDomain_over hover sh hsh

theorem bindValue_proceeds (hs : s.Elementary I) {a : Term} {x : Var} (ha : s.walk a = .var x)
    {n : Int} (hn : I n) : Proceeds I [a] s (s.bindValue x (.int n)) := by
  rcases bindValue_outcome hs x hn with hok | ⟨f, hf, hblocked⟩
  · rw [hok]
    exact ⟨hs.addBinding (hs.walk_var ha) hn, .single ⟨a, List.mem_singleton_self a, x, ha, .value⟩⟩
  · rw [hf]
    exact hblocked

/-- Known terms are only compared. -/
theorem compare_proceeds (hs : s.Elementary I) {a b : Term} {m n : Int} (ha : s.walk a = .int m)
    (hb : s.walk b = .int n) (hm : I m) (hn : I n) (terms : List Term) :
    Proceeds I terms s (s.equate a b) := by
  simp only [equate, ha, hb, Substitution.binding?]
  split
  · exact proceeds_self hs
  · refine Failure.blocked_deadEnd fun sh hsh => ?_
    rcases List.mem_cons.mp hsh with rfl | hsh
    · exact ⟨m, rfl, hm⟩
    · rcases List.mem_singleton.mp hsh with rfl
      exact ⟨n, rfl, hn⟩

/-- Equating a term with a known one. -/
theorem equate_proceeds (hs : s.Elementary I) {a b : Term} (ha : a.Over I) (hb : b.Over I)
    (hknown : (s.walk b).isVar = false) : Proceeds I [a] s (s.equate a b) := by
  cases hwb : s.walk b with
  | var y =>
      rw [hwb] at hknown
      cases hknown
  | val w =>
      obtain ⟨n, rfl, hn⟩ := hs.walk_val hb hwb
      cases hwa : s.walk a with
      | var x =>
          simp only [equate, hwa, hwb, Substitution.binding?]
          exact bindValue_proceeds hs hwa hn
      | val v =>
          obtain ⟨m, rfl, hm⟩ := hs.walk_val ha hwa
          exact compare_proceeds hs hwa hwb hm hn [a]

/-- Equating a known term with another one. -/
theorem equate_proceeds_left (hs : s.Elementary I) {a b : Term} (ha : a.Over I) (hb : b.Over I)
    (hknown : (s.walk a).isVar = false) : Proceeds I [b] s (s.equate a b) := by
  cases hwa : s.walk a with
  | var x =>
      rw [hwa] at hknown
      cases hknown
  | val v =>
      obtain ⟨m, rfl, hm⟩ := hs.walk_val ha hwa
      cases hwb : s.walk b with
      | var y =>
          simp only [equate, hwa, hwb, Substitution.binding?]
          exact bindValue_proceeds hs hwb hm
      | val w =>
          obtain ⟨n, rfl, hn⟩ := hs.walk_val hb hwb
          exact compare_proceeds hs hwa hwb hm hn [b]

theorem settleDomain_proceeds (hs : s.Elementary I) {a : Term} {x : Var} (ha : s.walk a = .var x)
    {d : Domain} (hd : d.Over I) (hsmaller : ∀ c, s.stored? x = some c → d.size < c.size) :
    Proceeds I [a] s (narrowVar.settleDomain s x d) := by
  unfold narrowVar.settleDomain
  split
  next => exact Failure.blocked_deadEnd (List.forall_mem_nil _)
  next hoccupied =>
    cases hone : d.single? with
    | none =>
        have hseveral := Domain.two_le_size (by simpa using hoccupied) hone
        exact ⟨hs.put hd, .single ⟨a, List.mem_singleton_self a, x, ha, .several hseveral hsmaller⟩⟩
    | some v =>
        obtain ⟨n, rfl, hn⟩ := Domain.single?_eq_some hd.integral hone
        exact ⟨(hs.put hd).addBinding (hs.walk_var ha) (hd.mem n ((hn n).mpr rfl)),
          .single ⟨a, List.mem_singleton_self a, x, ha, .only⟩⟩

theorem narrowVar_proceeds (hs : s.Elementary I) {a : Term} {x : Var} (ha : s.walk a = .var x)
    {allowed : Allowed} (hallowed : s.Supplies I allowed) :
    Proceeds I [a] s (s.narrowVar x allowed) := by
  cases hd : s.stored? x with
  | none =>
      obtain ⟨e, he, hover, -⟩ :=
        Allowed.toDomain_spec hallowed.1 s.integral_spaceDomain hallowed.2
      simp only [narrowVar, hd, he]
      refine settleDomain_proceeds hs ha hover fun c hc => ?_
      cases hd.symm.trans hc
  | some current =>
      have hcurrent := hs.domains x current hd
      obtain ⟨e, he, hover, -⟩ := Allowed.toDomain_spec hallowed.1 hcurrent.integral
        fun _ n hn => hcurrent.mem n hn
      obtain ⟨hcapped, hmem⟩ := Domain.intersect_spec hcurrent.integral hover.integral
      simp only [narrowVar, hd, he]
      show Proceeds I [a] s (if (!(current.intersect e).isEmpty &&
        (current.intersect e).same current) = true then .ok s
          else narrowVar.settleDomain s x (current.intersect e))
      split
      next => exact proceeds_self hs
      next hchanged =>
        have hinside : ∀ n : Int, n ∈ current.intersect e → n ∈ current :=
          fun n hn => ((hmem n).mp hn).1
        by_cases heq : current.intersect e = current
        · -- The same domain would have been kept, so it is empty and nothing is left.
          rw [heq] at hchanged ⊢
          have hsame : current.same current = true := by
            obtain ⟨ns, -, rfl⟩ := hcurrent.integral
            exact (Domain.sameItems_ints ns ns).mpr rfl
          have hempty : current.isEmpty = true := by simpa [hsame] using hchanged
          simp only [narrowVar.settleDomain, hempty]
          exact Failure.blocked_deadEnd (List.forall_mem_nil _)
        · refine settleDomain_proceeds hs ha
            ⟨hcapped, fun n hn => hcurrent.mem n (hinside n hn)⟩ fun c hc => ?_
          cases hd.symm.trans hc
          exact hcapped.size_lt hcurrent.integral hinside heq

theorem narrow_proceeds (hs : s.Elementary I) {a : Term} (ha : a.Over I) {allowed : Allowed}
    (hallowed : s.Supplies I allowed) : Proceeds I [a] s (s.narrow a allowed) := by
  cases hw : s.walk a with
  | var x =>
      simp only [narrow, hw]
      exact narrowVar_proceeds hs hw hallowed
  | val v =>
      obtain ⟨n, rfl, hn⟩ := hs.walk_val ha hw
      obtain ⟨b, hb, -⟩ := Allowed.admits_spec hallowed.1 n
      simp only [narrow, hw, hb]
      cases b with
      | true => exact proceeds_self hs
      | false =>
          refine Failure.blocked_deadEnd fun sh hsh => ?_
          rcases List.mem_singleton.mp hsh with rfl
          exact ⟨n, rfl, hn⟩

theorem narrowTo_proceeds (hs : s.Elementary I) {a : Term} (ha : a.Over I) {source : Option Domain}
    {move : Domain → Except Failure Domain}
    (hmove : ∀ e, source = some e → ∃ m, move e = .ok m ∧ m.Over I) :
    Proceeds I [a] s (s.narrowTo a source move) := by
  cases source with
  | none => exact proceeds_self hs
  | some e =>
      obtain ⟨m, hm, hover⟩ := hmove e rfl
      simp only [narrowTo, hm]
      exact narrow_proceeds hs ha ⟨hover, False.elim⟩

/-! ## Differences -/

/-- Settling a difference learns only of variables that its terms stand for, and knows all of
them when the difference is done. -/
def Works (I : Int → Prop) (c : Difference) (s : State) : Except Failure (State × Bool) → Prop
  | .ok (t, done) => t.Elementary I ∧ Progress c.terms s t ∧
      (done = true → ∀ a ∈ c.terms, (t.walk a).isVar = false)
  | .error f => f.Blocked I

/-- The one open term is worked out. -/
theorem derive_works (hs : s.Elementary I) {c : Difference} {a : Term} (ha : a ∈ c.terms)
    {x : Var} (hx : s.walk a = .var x)
    (honly : ∀ b ∈ c.terms, s.walk b = .var x ∨ (s.walk b).isVar = false) {n : Int} (hn : I n) :
    Works I c s (s.equate (.var x) (.val (.int n)) >>= fun t => pure (t, true)) := by
  have hopen := hs.walk_var hx
  have hvalue : s.walk (.val (.int n)) = .val (.int n) := Substitution.walk_val _ _
  have hequate : s.equate (.var x) (.val (.int n)) = s.bindValue x (.int n) := by
    simp only [equate, hopen, hvalue, Substitution.binding?]
    rfl
  rw [hequate]
  rcases bindValue_outcome hs x hn with hok | ⟨f, hf, hblocked⟩
  · rw [hok]
    refine ⟨hs.addBinding hopen hn, .single ⟨a, ha, x, hx, .value⟩, fun _ b hb => ?_⟩
    have hint : (Term.val (.int n)).Over I := Term.over_int hn
    rcases honly b hb with hb | hb
    · rw [walk_addBinding_self hint hb]
      rfl
    · have hne : s.walk b ≠ .var x := fun heq => by
        rw [heq] at hb
        cases hb
      rwa [walk_addBinding_ne hint hne]
  · rw [hf]
    exact hblocked

theorem Proceeds.works (hs : s.Elementary I) {J : Int → Prop} {c : Difference} {terms : List Term}
    {r : Except Failure State} (h : Proceeds J terms s r) (among : terms ⊆ c.terms.map s.walk) :
    Works J c s (r >>= fun t => pure (t, false)) := by
  cases r with
  | error f => exact h
  | ok t =>
      have hprogress := Progress.of_walk hs.triangular (h.2.mono among)
      exact ⟨h.1, hprogress, fun hdone => absurd hdone Bool.false_ne_true⟩

/-- The domain of an open variable can be moved. -/
theorem Elementary.domain?_moves (hs : s.Elementary I) {move : Domain → Except Failure Domain}
    {f : Int → Int} (hmove : Domain.Moves I move f) (x : Var) :
    ∀ e, s.domain? (.var x) = some e → ∃ m, move e = .ok m ∧ m.Over (Derived I) := by
  intro e he
  unfold domain? at he
  split at he
  next y _ =>
    obtain ⟨m, hm, hover, -⟩ := hmove e (hs.domains y e he)
    exact ⟨m, hm, hover⟩
  next => cases he

/-- Two open terms are narrowed against each other. -/
theorem narrowBoth_works (hs : s.Elementary I) {c : Difference} {x y : Var}
    (among : [.var x, .var y] ⊆ c.terms.map s.walk) {moveX moveY : Domain → Except Failure Domain}
    {f g : Int → Int} (movesX : Domain.Moves I moveX f) (movesY : Domain.Moves I moveY g) :
    Works (Derived I) c s (s.narrowTo (.var x) (s.domain? (.var y)) moveX >>= fun t =>
      t.narrowTo (.var y) (s.domain? (.var x)) moveY >>= fun t => pure (t, false)) := by
  have hfirst := narrowTo_proceeds (a := .var x) (hs.mono fun _ => .same) trivial
    (hs.domain?_moves movesX y)
  have hsecond : ∀ t : State, t.Elementary (Derived I) →
      Proceeds (Derived I) [.var y] t (t.narrowTo (.var y) (s.domain? (.var x)) moveY) :=
    fun t ht => narrowTo_proceeds (a := .var y) ht trivial (hs.domain?_moves movesY x)
  have hleft : [Term.var x] ⊆ [.var x, .var y] := by simp
  have hright : [Term.var y] ⊆ [.var x, .var y] := by simp
  have hboth := (hfirst.mono hleft).andThen fun t ht =>
    (hsecond t ht).mono hright
  rw [← bind_assoc]
  exact hboth.works hs among

/-- Settling a difference of integers and variables. -/
theorem settle_works (hs : s.Elementary I) {c : Difference} (hc : ∀ a ∈ c.terms, a.Over I) :
    Works (Derived I) c s (s.settle c) := by
  have hcases := settle_cases fun a ha _ => hs.walk_val (hc a ha)
  have hderived := hs.mono (J := Derived I) fun _ => .same
  have hknown : ∀ {a : Term} {n : Int}, s.walk a = .int n → (s.walk a).isVar = false :=
    fun hw => by rw [hw]; rfl
  generalize s.settle c = r at hcases ⊢
  cases hcases with
  | @allKnown m n k hm hn hk left right apart =>
      show Works (Derived I) c s (if (Value.int (m - n)).equal (.int k) = true
        then .ok (s, true) else Failure.raise (.deadEnd (.wrongDifference _ _ _)))
      split
      · refine ⟨hderived, .refl, fun _ => ?_⟩
        exact Difference.forall_terms.mpr ⟨hknown hm, hknown hn, hknown hk⟩
      · refine Failure.blocked_deadEnd fun sh hsh => ?_
        simp only [DeadEnd.shown, List.mem_cons, List.not_mem_nil, or_false] at hsh
        rcases hsh with rfl | rfl | rfl
        · exact ⟨m, rfl, .same left⟩
        · exact ⟨n, rfl, .same right⟩
        · exact ⟨k, rfl, .same apart⟩
  | openMinuend hx hn hk right apart =>
      refine derive_works hderived c.minuend_mem hx ?_ (.add right apart)
      exact Difference.forall_terms.mpr ⟨.inl hx, .inr (hknown hn), .inr (hknown hk)⟩
  | openSubtrahend hm hy hk left apart =>
      refine derive_works hderived c.subtrahend_mem hy ?_ (.sub left apart)
      exact Difference.forall_terms.mpr ⟨.inr (hknown hm), .inl hy, .inr (hknown hk)⟩
  | openDistance hm hn hz left right =>
      refine derive_works hderived c.distance_mem hz ?_ (.sub left right)
      exact Difference.forall_terms.mpr ⟨.inr (hknown hm), .inr (hknown hn), .inl hz⟩
  | knownMinuend hm hy hz left =>
      exact narrowBoth_works hs (by simp [Difference.terms, hy, hz])
        (Domain.moves_reflect left) (Domain.moves_reflect left)
  | knownSubtrahend hx hn hz right =>
      exact narrowBoth_works hs (by simp [Difference.terms, hx, hz])
        (Domain.moves_shift right) (Domain.moves_unshift right)
  | knownDistance hx hy hk apart =>
      exact narrowBoth_works hs (by simp [Difference.terms, hx, hy])
        (Domain.moves_shift apart) (Domain.moves_unshift apart)
  | allOpen => exact ⟨hderived, .refl, fun hdone => absurd hdone Bool.false_ne_true⟩

end State

end Consonance
