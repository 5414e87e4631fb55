import Consonance.Proofs.Blocking

/-!
# How far integers go

Propagation makes new integers: sums and differences of those that are there.  It makes them for
variables without a domain only.  Once a variable has a domain or a value, its integers stay
inside.  So from constraints over some integers and variables come sums of sums, but no more
rounds of them than there are variables (`State.Bounded`).

The failure of an operation shows an integer one round further at most (`Bounded.arises`).
-/

namespace Consonance

/-! ## Rounds of sums and differences -/

/-- The integers that come from a set in some rounds, each of which takes the sums and the
differences of what is there. -/
def Rounds (I : Int → Prop) : Nat → Int → Prop
  | 0 => I
  | k + 1 => Derived (Rounds I k)

theorem Rounds.le {I : Int → Prop} {j k : Nat} {n : Int} (h : Rounds I j n) (hjk : j ≤ k) :
    Rounds I k n := by
  induction hjk with
  | refl => exact h
  | step _ ih => exact .same ih

/-- The integers at most double in each round. -/
theorem Rounds.natAbs_le {I : Int → Prop} {b k : Nat} {n : Int} (hI : ∀ n, I n → n.natAbs ≤ b)
    (h : Rounds I k n) : n.natAbs ≤ 2 ^ k * b := by
  induction k generalizing n with
  | zero => exact (hI n h).trans (Nat.le_of_eq (Nat.one_mul b).symm)
  | succ k ih =>
      rw [Nat.pow_succ, Nat.mul_right_comm]
      cases h with
      | same h =>
          have := ih h
          omega
      | sub hm hk =>
          have := ih hm
          have := ih hk
          omega
      | add hm hk =>
          have := ih hm
          have := ih hk
          omega

/-! ## Terms and constraints among integers -/

theorem Term.Among.mono {I J : Int → Prop} {V W : Var → Prop} {t : Term} (h : t.Among I V)
    (hIJ : ∀ n, I n → J n) (hVW : ∀ x, V x → W x) : t.Among J W := by
  cases t with
  | var x => exact hVW x h
  | val v =>
      obtain ⟨n, hn, hI⟩ := h
      exact ⟨n, hn, hIJ n hI⟩

/-- Integers of a set are there in every round. -/
theorem Term.Among.rounds {I : Int → Prop} {V : Var → Prop} {t : Term} (h : t.Among I V) (k : Nat) :
    t.Among (Rounds I k) V :=
  h.mono (fun _ hn => Rounds.le (j := 0) hn (Nat.zero_le k)) fun _ => id

namespace Constraint.Among

variable {I J : Int → Prop} {V W : Var → Prop} {c : Constraint}

theorem mono (h : c.Among I V) (hIJ : ∀ n, I n → J n) (hVW : ∀ x, V x → W x) : c.Among J W := by
  cases c with
  | equal a b => exact ⟨h.1.mono hIJ hVW, h.2.mono hIJ hVW⟩
  | restricted a allowed => exact ⟨h.1.mono hIJ hVW, h.2.1.mono hIJ, h.2.2⟩
  | apart a b d => exact ⟨h.1.mono hIJ hVW, h.2.1.mono hIJ hVW, h.2.2.mono hIJ hVW⟩

theorem rounds (h : c.Among I V) (k : Nat) : c.Among (Rounds I k) V :=
  h.mono (fun _ hn => Rounds.le (j := 0) hn (Nat.zero_le k)) fun _ => id

theorem terms (h : c.Among I V) : ∀ a ∈ c.terms, a.Among I V := by
  cases c with
  | equal a b => exact List.forall_mem_cons.mpr ⟨h.1, List.forall_mem_singleton.mpr h.2⟩
  | restricted a allowed => exact List.forall_mem_singleton.mpr h.1
  | apart a b d => exact Difference.forall_terms (c := ⟨a, b, d⟩).mpr h

theorem integral (h : c.Among I V) : c.Integral := by
  have hterm : ∀ {a : Term}, a.Among I V → a.Over fun _ => True := fun ha =>
    ha.isOver.mono fun _ _ => trivial
  cases c with
  | equal a b => exact ⟨hterm h.1, hterm h.2⟩
  | restricted a allowed => exact ⟨hterm h.1, h.2.1.mono fun _ _ => trivial⟩
  | apart a b d => exact ⟨hterm h.1, hterm h.2.1, hterm h.2.2⟩

end Constraint.Among

namespace State

variable {I J : Int → Prop} {xs : List Var} {s t u : State} {x : Var} {a : Term}

theorem Coherent.mono (hs : s.Coherent I) (hIJ : ∀ n, I n → J n) : s.Coherent J :=
  have helementary := hs.elementary.mono hIJ
  ⟨helementary.bindings, helementary.domains, hs.triangular, hs.occupied, hs.inherited⟩

/-! ## Unconfined variables -/

/-- The variable is open and has no domain. -/
def isUnconfined (s : State) (x : Var) : Bool :=
  match s.walk (.var x) with
  | .val _ => false
  | .var y => (s.stored? y).isNone

theorem isUnconfined_eq_false_iff : s.isUnconfined x = false ↔ s.Confined (.var x) := by
  unfold isUnconfined Confined
  cases hw : s.walk (.var x) with
  | val v => exact iff_of_true rfl nofun
  | var y =>
      refine Option.isNone_eq_false_iff.trans (Option.isSome_iff_exists.trans ?_)
      exact ⟨fun h z hz => Term.var.inj hz ▸ h, fun h => h y rfl⟩

/-- The number of variables that are unconfined. -/
def unconfined (s : State) (xs : List Var) : Nat := xs.countP s.isUnconfined

theorem unconfined_le (h : ∀ x ∈ xs, s.Confined (.var x) → t.Confined (.var x)) :
    t.unconfined xs ≤ s.unconfined xs := by
  refine List.countP_mono_left fun x hx ht => ?_
  by_contra hs
  have hconfined := h x hx (isUnconfined_eq_false_iff.mp (Bool.eq_false_iff.mpr hs))
  rw [isUnconfined_eq_false_iff.mpr hconfined] at ht
  cases ht

theorem unconfined_lt (h : ∀ x ∈ xs, s.Confined (.var x) → t.Confined (.var x)) (hx : x ∈ xs)
    (hs : ¬ s.Confined (.var x)) (ht : t.Confined (.var x)) :
    t.unconfined xs < s.unconfined xs := by
  obtain ⟨before, after, rfl⟩ := List.append_of_mem hx
  have hbefore : t.unconfined before ≤ s.unconfined before :=
    unconfined_le fun y hy => h y (List.mem_append_left _ hy)
  have hafter : t.unconfined after ≤ s.unconfined after :=
    unconfined_le fun y hy => h y (List.mem_append_right _ (List.mem_cons_of_mem x hy))
  have hxs : s.isUnconfined x = true :=
    Bool.eq_true_of_not_eq_false fun hfalse => hs (isUnconfined_eq_false_iff.mp hfalse)
  have hxt : t.isUnconfined x = false := isUnconfined_eq_false_iff.mpr ht
  unfold unconfined at hbefore hafter ⊢
  rw [List.countP_append, List.countP_append, List.countP_cons_of_pos hxs,
    List.countP_cons_of_neg (Bool.eq_false_iff.mp hxt)]
  omega

/-! ## First domains -/

/-- A term that is open after something has been learnt is open before, for the same variable. -/
theorem Learns.walk_of_var (h : Learns s x t) {y : Var} (ht : t.walk a = .var y) :
    s.walk a = .var y := by
  have hbound : ∀ n : Int, Substitution.walk ((x, .int n) :: s.substitution) a = .var y →
      s.walk a = .var y := by
    intro n hw
    by_cases ha : s.walk a = .var x
    · exact nomatch (Substitution.walk_cons_self (.int n) ha).symm.trans hw
    · exact (Substitution.walk_cons_ne (.int n) ha).symm.trans hw
  cases h with
  | value => exact hbound _ ht
  | only => exact hbound _ ht
  | several => exact ht

theorem Progress.walk_of_var {terms : List Term} (h : Progress terms s t) {y : Var}
    (ht : t.walk a = .var y) : s.walk a = .var y := by
  induction h with
  | refl => exact ht
  | tail _ learnt ih =>
      obtain ⟨_, -, x, -, learns⟩ := learnt
      exact ih (learns.walk_of_var ht)

/-- Another variable has the domain that it had. -/
theorem Learns.stored?_ne (h : Learns s x t) {y : Var} (hy : y ≠ x) :
    t.stored? y = s.stored? y := by
  cases h with
  | value => rfl
  | only => exact stored?_put_ne s _ hy
  | several => exact stored?_put_ne s _ hy

/-- Another variable has the binding that it had. -/
theorem Learns.binding_ne (h : Learns s x t) {y : Var} (hy : y ≠ x) {b : Term}
    (hb : (y, b) ∈ t.substitution) : (y, b) ∈ s.substitution := by
  have hne : ∀ w : Term, (y, b) ≠ (x, w) := fun w heq => hy (Prod.mk.inj heq).1
  cases h with
  | value => exact (List.mem_cons.mp hb).resolve_left (hne _)
  | only => exact (List.mem_cons.mp hb).resolve_left (hne _)
  | several => exact hb

/-- A term that stands for the variable is known then, or it has a domain. -/
theorem Learns.confined_self (h : Learns s x t) (ha : s.walk a = .var x) : t.Confined a := by
  have hbound : ∀ n : Int, Substitution.walk ((x, .int n) :: s.substitution) a = .int n :=
    fun n => Substitution.walk_cons_self (.int n) ha
  intro y hy
  cases h with
  | value => exact nomatch (hbound _).symm.trans hy
  | only => exact nomatch (hbound _).symm.trans hy
  | several =>
      obtain rfl : x = y := Term.var.inj (ha.symm.trans hy)
      exact ⟨_, stored?_put_self s x _⟩

theorem Learns.confined (h : Learns s x t) (ha : s.Confined a) : t.Confined a := by
  by_cases hx : s.walk a = .var x
  · exact h.confined_self hx
  · intro y hy
    have hw := h.walk_of_var hy
    rw [h.stored?_ne fun heq => hx (heq ▸ hw)]
    exact ha y hw

/-- Where a variable gets its first domain or a value without one, a term stands for it. -/
theorem Progress.first_domain {terms : List Term} (h : Progress terms s t)
    (hx : s.stored? x = none) :
    (t.stored? x = none ∧ ∀ w, (x, w) ∈ t.substitution → (x, w) ∈ s.substitution) ∨
      ∃ a ∈ terms, s.walk a = .var x ∧ t.Confined a := by
  induction h with
  | refl => exact .inl ⟨hx, fun _ h => h⟩
  | @tail u t earlier learnt ih =>
      obtain ⟨a, ha, z, hz, learns⟩ := learnt
      by_cases hzx : z = x
      · subst hzx
        exact .inr ⟨a, ha, Progress.walk_of_var earlier hz, learns.confined_self hz⟩
      · rcases ih with ⟨hnone, hsame⟩ | ⟨b, hb, hwalk, hconfined⟩
        · have hxz : x ≠ z := Ne.symm hzx
          exact .inl ⟨(learns.stored?_ne hxz).trans hnone, fun w hw =>
            hsame w (learns.binding_ne hxz hw)⟩
        · exact .inr ⟨b, hb, hwalk, learns.confined hconfined⟩

/-! ## One difference -/

/-- Where no variable gets its first domain, and none without a domain a value, all integers come
from earlier domains. -/
theorem Steps.coherent_of_same (h : Steps (fun _ => True) s t) (hs : s.Coherent J)
    (hsame : ∀ x, s.stored? x = none →
      t.stored? x = none ∧ ∀ w, (x, w) ∈ t.substitution → (x, w) ∈ s.substitution) :
    t.Coherent J := by
  have ht := h.coherent (hs.mono fun _ _ => trivial)
  have hinside : ∀ x d, t.stored? x = some d → ∀ n : Int, n ∈ d → J n := by
    intro x d hd n hn
    cases he : s.stored? x with
    | none => exact nomatch (hsame x he).1.symm.trans hd
    | some e =>
        obtain ⟨d', hd', hsub⟩ := h.refines.domains x e he
        cases hd.symm.trans hd'
        exact (hs.domains x e he).mem n (hsub n hn)
  refine ⟨?_, fun x d hd => ⟨(ht.domains x d hd).integral, hinside x d hd⟩, ht.triangular,
    ht.occupied, ht.inherited⟩
  rintro ⟨x, w⟩ hb
  cases w with
  | var y => trivial
  | val v =>
      obtain ⟨n, rfl, -⟩ := ht.bindings _ hb
      cases he : s.stored? x with
      | none => exact hs.bindings _ ((hsame x he).2 _ hb)
      | some e =>
          -- The variable has a domain, and its value is in there.
          obtain ⟨d, hd, -⟩ := h.refines.domains x e he
          have hstays := ht.inherited x d hd
          have hwalk : t.walk (.var x) = .int n :=
            (Substitution.walk_bound ht.triangular hb).trans (Substitution.walk_val _ _)
          rw [hwalk] at hstays
          obtain ⟨m, heq, hm⟩ := hstays
          cases heq
          exact ⟨n, rfl, hinside x d hd n hm⟩

/-- Settling a difference makes no new integer, or it goes one round further and leaves fewer
variables unconfined. -/
theorem settle_coherent {c : Difference} (hs : s.Coherent J)
    (hc : ∀ a ∈ c.terms, a.Among J (· ∈ xs)) {done : Bool} (h : s.settle c = .ok (t, done)) :
    t.Coherent J ∧ t.unconfined xs ≤ s.unconfined xs ∨
      t.Coherent (Derived J) ∧ t.unconfined xs < s.unconfined xs := by
  have hall : s.Coherent fun _ => True := hs.mono fun _ _ => trivial
  have hsettles := settle_spec hall fun a ha =>
    ⟨(hc a ha).isOver.mono fun _ _ => trivial, .inl closed_true⟩
  have hworks := settle_works hs.elementary fun a ha => (hc a ha).isOver
  rw [h] at hsettles hworks
  have hsteps := hsettles.1
  obtain ⟨helementary, hprogress, -⟩ := hworks
  by_cases hlt : t.unconfined xs < s.unconfined xs
  · have ht := hsteps.coherent hall
    exact .inr ⟨⟨helementary.bindings, helementary.domains, helementary.triangular, ht.occupied,
      ht.inherited⟩, hlt⟩
  · have hle : t.unconfined xs ≤ s.unconfined xs := unconfined_le fun _ _ => hsteps.confined
    refine .inl ⟨hsteps.coherent_of_same hs fun x hx => ?_, hle⟩
    -- A variable that learns its first domain would be confined from now on.
    refine (hprogress.first_domain hx).resolve_right fun ⟨a, ha, hw, hconfined⟩ => hlt ?_
    cases a with
    | val v => exact nomatch (Substitution.walk_val _ v).symm.trans hw
    | var y =>
        refine unconfined_lt (fun _ _ => hsteps.confined) (hc _ ha) (fun hbare => ?_) hconfined
        obtain ⟨d, hd⟩ := hbare x hw
        exact nomatch hx.symm.trans hd

/-! ## Bounded states -/

/-- The integers of a state have come in some rounds, no more of them than there are variables
that are confined by now. -/
structure Bounded (I : Int → Prop) (xs : List Var) (k : Nat) (s : State) : Prop where
  coherent : s.Coherent (Rounds I k)
  differences : ∀ c ∈ s.differences, ∀ a ∈ c.terms, a.Among (Rounds I k) (· ∈ xs)
  rounds : k + s.unconfined xs ≤ xs.length

theorem bounded_empty (I : Int → Prop) (xs : List Var) (space : PitchSpace) :
    (empty space).Bounded I xs 0 where
  coherent := coherent_empty _ space
  differences _ hc := nomatch hc
  rounds := (Nat.zero_add _).trans_le List.countP_le_length

namespace Bounded

variable {k : Nat} {c : Difference} {cs : List Difference} {n : Int}

theorem le (hs : s.Bounded I xs k) : k ≤ xs.length := Nat.le_of_add_right_le hs.rounds

theorem wellFormed (hs : s.Bounded I xs k) : s.WellFormed fun _ => True where
  coherent := hs.coherent.mono fun _ _ => trivial
  differences c hc a ha :=
    ⟨(hs.differences c hc a ha).isOver.mono fun _ _ => trivial, .inl closed_true⟩

theorem withDifferences (hs : s.Bounded I xs k)
    (hcs : ∀ c ∈ cs, ∀ a ∈ c.terms, a.Among (Rounds I k) (· ∈ xs)) :
    Bounded I xs k { s with differences := cs } :=
  ⟨hs.coherent.withDifferences cs, hcs, hs.rounds⟩

/-- Steps among the integers of the state add none. -/
theorem steps (hs : s.Bounded I xs k) (h : Steps (Rounds I k) s t) : t.Bounded I xs k where
  coherent := h.coherent hs.coherent
  differences := h.differences ▸ hs.differences
  rounds := (Nat.add_le_add_left (unconfined_le fun _ _ => h.confined) k).trans hs.rounds

/-! ### Propagation -/

theorem settle (hs : s.Bounded I xs k) (hc : ∀ a ∈ c.terms, a.Among (Rounds I k) (· ∈ xs))
    {done : Bool} (h : s.settle c = .ok (t, done)) : ∃ j, k ≤ j ∧ t.Bounded I xs j := by
  have hscoped : s.ScopedDifference (fun _ => True) c := fun a ha =>
    ⟨(hc a ha).isOver.mono fun _ _ => trivial, .inl closed_true⟩
  have hdifferences := (settle_progress hs.wellFormed.coherent hscoped h).differences
  have hrounds := hs.rounds
  rcases settle_coherent hs.coherent hc h with ⟨hcoherent, hle⟩ | ⟨hcoherent, hlt⟩
  · exact ⟨k, le_refl k, hcoherent, hdifferences ▸ hs.differences, by omega⟩
  · refine ⟨k + 1, Nat.le_succ k, hcoherent, fun e he a ha => ?_, by omega⟩
    rw [hdifferences] at he
    exact (hs.differences e he a ha).mono (fun _ => .same) fun _ => id

theorem settleAll (hs : s.Bounded I xs k)
    (hcs : ∀ c ∈ cs, ∀ a ∈ c.terms, a.Among (Rounds I k) (· ∈ xs)) {pending : List Difference}
    (h : s.settleAll cs = .ok (t, pending)) : ∃ j, k ≤ j ∧ t.Bounded I xs j := by
  induction cs generalizing s k pending with
  | nil =>
      cases h
      exact ⟨k, le_refl k, hs⟩
  | cons c rest ih =>
      obtain ⟨hc, hrest⟩ := List.forall_mem_cons.mp hcs
      obtain ⟨⟨u, done⟩, hu, h⟩ := bind_eq_ok.mp h
      obtain ⟨⟨w, waiting⟩, hw, h⟩ := bind_eq_ok.mp h
      cases h
      obtain ⟨i, hki, hui⟩ := hs.settle hc hu
      obtain ⟨j, hij, hwj⟩ := ih hui
        (fun e he a ha => (hrest e he a ha).mono (fun _ hn => hn.le hki) fun _ => id) hw
      exact ⟨j, hki.trans hij, hwj⟩

theorem pass (hs : s.Bounded I xs k) {pending : List Difference}
    (h : s.settleAll s.differences = .ok (u, pending)) :
    ∃ j, k ≤ j ∧ Bounded I xs j { u with differences := pending } := by
  obtain ⟨j, hkj, hu⟩ := hs.settleAll hs.differences h
  refine ⟨j, hkj, hu.withDifferences fun e he a ha => ?_⟩
  have hmem := (settleAll_sublist h).subset he
  exact (hs.differences e hmem a ha).mono (fun _ hn => hn.le hkj) fun _ => id

theorem propagate (hs : s.Bounded I xs k) (h : s.propagate = .ok t) :
    ∃ j, k ≤ j ∧ t.Bounded I xs j := by
  refine propagate_keeps (P := fun w => ∃ j, k ≤ j ∧ w.Bounded I xs j) hs.wellFormed h ?_
    ⟨k, le_refl k, hs⟩
  rintro w u pending - hr ⟨i, hki, hw⟩
  obtain ⟨j, hij, hu⟩ := hw.pass hr
  exact ⟨j, hki.trans hij, hu⟩

theorem visits (hs : s.Bounded I xs k) (h : s.Visits u) : ∃ j, u.Bounded I xs j := by
  induction h generalizing k with
  | @within s u earlier later pending differences settled =>
      obtain ⟨j, -, hu⟩ := hs.settleAll (fun e he => hs.differences e
        (differences ▸ List.mem_append_left later he)) settled
      exact ⟨j, hu⟩
  | again pass _ _ ih =>
      obtain ⟨⟨w, pending⟩, hw, hu⟩ := bind_eq_ok.mp pass
      cases hu
      obtain ⟨j, -, hnext⟩ := hs.pass hw
      exact ih hnext

theorem occurs (hs : s.Bounded I xs k) (h : s.Occurs n) : Rounds I k n :=
  hs.coherent.occurs (fun c hc a ha => (hs.differences c hc a ha).isOver) h

theorem involves (hs : s.Bounded I xs k) (h : s.Involves n) : Rounds I (xs.length + 1) n := by
  obtain ⟨u, hu, hn⟩ := h
  obtain ⟨j, hj⟩ := hs.visits hu
  exact hn.mono fun m hm => (hj.occurs hm).le hj.le

/-! ### Operations -/

theorem enter {c : Constraint} (hs : s.Bounded I xs k) (hc : c.Among (Rounds I k) (· ∈ xs))
    (h : c.enter s = .ok t) : t.Bounded I xs k := by
  cases c with
  | equal a b =>
      have ha := hc.1.isOver
      have hb := hc.2.isOver
      have hyields := equate_yields hs.coherent (ha.mono fun _ => .same)
        (hb.mono fun _ => .same) (.inl hb) (.inl ha)
      change s.equate a b = .ok t at h
      rw [h] at hyields
      exact hs.steps hyields.1
  | restricted a allowed =>
      obtain ⟨ha, hallowed, htest⟩ := hc
      have hyields := narrow_yields hs.coherent ha.isOver (hallowed.mono fun _ => .same)
        (.inl ⟨hallowed, fun h => absurd h htest⟩)
      change s.narrow a allowed = .ok t at h
      rw [h] at hyields
      exact hs.steps hyields.1
  | apart a b d =>
      cases h
      refine hs.withDifferences (List.forall_mem_append.mpr ⟨hs.differences, ?_⟩)
      exact List.forall_mem_singleton.mpr (Difference.forall_terms.mpr hc)

theorem post {c : Constraint} (hs : s.Bounded I xs k) (hc : c.Among (Rounds I k) (· ∈ xs))
    (h : c.post s = .ok t) : ∃ j, k ≤ j ∧ t.Bounded I xs j := by
  obtain ⟨u, hu, hprop⟩ := bind_eq_ok.mp ((c.post_eq s).symm.trans h)
  exact (hs.enter hc hu).propagate hprop

/-- What arises in an operation comes in one round more than there are variables, at most. -/
theorem arises {c : Constraint} (hs : s.Bounded I xs k) (hc : c.Among (Rounds I k) (· ∈ xs))
    (h : c.Arises s n) : Rounds I (xs.length + 1) n := by
  cases h with
  | occurs occurs => exact .same ((hs.occurs occurs).le hs.le)
  | listed listed =>
      obtain ⟨m, hm, hI⟩ := hc.terms _ listed
      cases hm
      exact .same (Rounds.le hI hs.le)
  | involved entered involves => exact (hs.enter hc entered).involves involves

theorem arisesAlong {cs : List Constraint} (hs : s.Bounded I xs k)
    (hcs : ∀ c ∈ cs, c.Among I (· ∈ xs)) (h : s.ArisesAlong cs n) : Rounds I (xs.length + 1) n := by
  induction h generalizing k with
  | first arises =>
      exact hs.arises ((List.forall_mem_cons.mp hcs).1.rounds k) arises
  | later taken _ ih =>
      obtain ⟨hc, hrest⟩ := List.forall_mem_cons.mp hcs
      obtain ⟨j, -, ht⟩ := hs.post (hc.rounds k) taken
      exact ih ht hrest

/-- An operation keeps a state bounded. -/
theorem kept (hs : ∃ k, s.Bounded I xs k) {c : Constraint} (hc : c.Among I (· ∈ xs)) :
    Kept (Rounds I (xs.length + 1)) (fun t => ∃ k, t.Bounded I xs k) (c.post s) := by
  obtain ⟨k, hs⟩ := hs
  cases hr : c.post s with
  | ok t =>
      obtain ⟨j, -, ht⟩ := hs.post (hc.rounds k) hr
      exact ⟨j, ht⟩
  | error f =>
      exact (post_blocked hs.wellFormed hc.integral hr).mono fun n hn => hs.arises (hc.rounds k) hn

end Bounded

end State

end Consonance
