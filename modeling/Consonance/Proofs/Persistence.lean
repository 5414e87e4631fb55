import Consonance.Proofs.Posting

/-!
# What states keep

The bindings, the domains and the suspended differences of a state are tied together, and
operations change them in one direction only.

*Chains.*  A variable may be bound to another one, which may be bound in turn.  A binding
is made for an open variable and to an open one, so a new binding can only be the last link
of a chain (`Triangular.chain_cons`).  Hence no chain comes back to where it starts.

*Entries.*  The entry of a bound variable stays behind, and a merged domain is stored for
one of two variables only.  What the chain of the variable ends in stays inside the entry
all the same (`State.Lawful`).

*Changes.*  A step adds at most one binding, in front of the others, and puts a domain only
inside the one that was there.  Propagation drops differences.  So a later state extends
an earlier one (`State.Extends`).
-/

namespace Consonance

namespace Substitution

/-! ## Chains of bindings -/

/-- A variable is bound to another one. -/
def Links (σ : Substitution) (x y : Var) : Prop := (x, .var y) ∈ σ

variable {σ : Substitution}

/-- A bound variable is not open. -/
theorem Triangular.walk_ne_self (h : σ.Triangular) {x : Var} {t : Term} (hb : (x, t) ∈ σ) :
    walk σ (.var x) ≠ .var x := by
  induction σ with
  | nil => exact nomatch hb
  | cons b earlier ih =>
      obtain ⟨y, u⟩ := b
      obtain ⟨hy, hu, hne, hearlier⟩ := h
      rcases List.mem_cons.mp hb with heq | hb
      · cases heq
        rwa [walk_cons_self t hy]
      · have hx := ih hearlier hb
        by_cases hw : walk earlier (.var x) = .var y
        · rw [walk_cons_self u hw]
          rintro rfl
          exact hx hu
        · rwa [walk_cons_ne u hw]

/-- A variable without a binding is open. -/
theorem walk_of_unbound {x : Var} (h : ∀ t, (x, t) ∉ σ) : walk σ (.var x) = .var x := by
  induction σ with
  | nil => rfl
  | cons b earlier ih =>
      obtain ⟨y, u⟩ := b
      have hxy : x ≠ y := fun heq => h u (heq ▸ List.mem_cons_self ..)
      have hearlier := ih fun t ht => h t (List.mem_cons_of_mem _ ht)
      rw [walk_cons_ne u fun hw => hxy (Term.var.inj (hearlier.symm.trans hw)), hearlier]

/-- Later bindings do not tell terms apart that are the same. -/
theorem walk_append_congr (new : Substitution) {a b : Term} (h : walk σ a = walk σ b) :
    walk (new ++ σ) a = walk (new ++ σ) b := by
  induction new with
  | nil => exact h
  | cons c new ih => simp only [List.cons_append, walk, ih]

/-- No variable is bound twice. -/
theorem Triangular.nodup (h : σ.Triangular) : (σ.map Prod.fst).Nodup := by
  induction σ with
  | nil => exact List.nodup_nil
  | cons b earlier ih =>
      obtain ⟨x, t⟩ := b
      obtain ⟨hx, -, -, hearlier⟩ := h
      refine List.nodup_cons.mpr ⟨fun hmem => ?_, ih hearlier⟩
      obtain ⟨⟨y, u⟩, hb, rfl⟩ := List.mem_map.mp hmem
      exact hearlier.walk_ne_self hb hx

/-- A new binding can only be the last link of a chain. -/
theorem Triangular.chain_cons {y : Var} {u : Term} {earlier : Substitution}
    (h : Triangular ((y, u) :: earlier)) {a b : Var}
    (hchain : Relation.TransGen (Links ((y, u) :: earlier)) a b) :
    Relation.TransGen earlier.Links a b ∨
      u = .var b ∧ Relation.ReflTransGen earlier.Links a y := by
  obtain ⟨-, hu, hne, hearlier⟩ := h
  induction hchain with
  | single hlink =>
      rcases List.mem_cons.mp hlink with heq | hlink
      · cases heq
        exact .inr ⟨rfl, .refl⟩
      · exact .inl (.single hlink)
  | tail _ hlink ih =>
      rcases ih with hold | ⟨rfl, -⟩
      · rcases List.mem_cons.mp hlink with heq | hlink
        · cases heq
          exact .inr ⟨rfl, hold.to_reflTransGen⟩
        · exact .inl (hold.tail hlink)
      · -- The target of the new binding is open, so the chain cannot go on.
        rcases List.mem_cons.mp hlink with heq | hlink
        · cases heq
          exact absurd rfl hne
        · exact absurd hu (hearlier.walk_ne_self hlink)

theorem Triangular.acyclic (h : σ.Triangular) (x : Var) : ¬ Relation.TransGen σ.Links x x := by
  induction σ with
  | nil =>
      intro hchain
      obtain ⟨y, hlink, -⟩ := Relation.TransGen.head'_iff.mp hchain
      exact nomatch hlink
  | cons b earlier ih =>
      obtain ⟨y, u⟩ := b
      intro hchain
      rcases h.chain_cons hchain with hold | ⟨rfl, hold⟩
      · exact ih h.2.2.2 hold
      · obtain ⟨-, hopen, hne, hearlier⟩ := h
        rcases Relation.ReflTransGen.cases_head hold with rfl | ⟨z, hlink, -⟩
        · exact hne rfl
        · exact hearlier.walk_ne_self hlink hopen

end Substitution

namespace State

variable {I : Int → Prop} {s t u : State}

/-! ## Lawful states -/

/-- The variable has a binding. -/
def Binds (s : State) (x : Var) : Prop := ∃ t, (x, t) ∈ s.substitution

/-- The variable is open and keeps to a domain: its own one has values, all of which are in
the domain. -/
def KeepsTo (s : State) (d : Domain) (y : Var) : Prop :=
  ¬ s.Binds y ∧ ∃ e, s.stored? y = some e ∧ (∃ n : Int, n ∈ e) ∧ ∀ n : Int, n ∈ e → n ∈ d

/-- How the bindings and the domains of a state belong together. -/
structure Lawful (s : State) : Prop where
  /-- No variable is bound twice. -/
  functional : (s.substitution.map Prod.fst).Nodup
  /-- No chain of bindings comes back to where it starts. -/
  acyclic : ∀ x, ¬ Relation.TransGen s.substitution.Links x x
  /-- Domains consist of integers, and of one at least. -/
  occupied : ∀ x d, s.stored? x = some d → d.Integral ∧ ∃ n : Int, n ∈ d
  /-- A bound variable ends in a value of its domain or in an open variable that keeps to it. -/
  inherited : ∀ x d, s.stored? x = some d → s.Binds x →
    (∃ n : Int, s.walk (.var x) = .int n ∧ n ∈ d) ∨ ∃ y, s.walk (.var x) = .var y ∧ s.KeepsTo d y

theorem Coherent.lawful (hs : s.Coherent I) : s.Lawful where
  functional := hs.triangular.nodup
  acyclic := hs.triangular.acyclic
  occupied x d hd := ⟨(hs.domains x d hd).integral, hs.occupied x d hd⟩
  inherited x d hd _ := by
    have hstays := hs.inherited x d hd
    cases hw : s.walk (.var x) with
    | val v =>
        rw [hw] at hstays
        obtain ⟨n, rfl, hn⟩ := hstays
        exact .inl ⟨n, rfl, hn⟩
    | var y =>
        rw [hw] at hstays
        obtain ⟨e, he, hsub⟩ := hstays
        refine .inr ⟨y, rfl, ?_, e, he, hs.occupied y e he, hsub⟩
        rintro ⟨u, hb⟩
        exact hs.triangular.walk_ne_self hb (hs.walk_var hw)

/-! ## Later states -/

/-- The later state has the bindings of the earlier one, and for each of its domains one inside
it. -/
structure Refines (t s : State) : Prop where
  bindings : s.substitution <:+ t.substitution
  domains : ∀ x d, s.stored? x = some d → ∃ e, t.stored? x = some e ∧ ∀ n : Int, n ∈ e → n ∈ d

theorem Refines.refl (s : State) : s.Refines s :=
  ⟨List.suffix_refl _, fun _ d hd => ⟨d, hd, fun _ h => h⟩⟩

theorem Refines.trans (htu : u.Refines t) (hst : t.Refines s) : u.Refines s where
  bindings := hst.bindings.trans htu.bindings
  domains x d hd := by
    obtain ⟨e, he, hed⟩ := hst.domains x d hd
    obtain ⟨c, hc, hce⟩ := htu.domains x e he
    exact ⟨c, hc, fun n hn => hed n (hce n hn)⟩

theorem Step.refines (h : Step I s t) : t.Refines s := by
  cases h with
  | @bound x w isOpen walked ne isOver inside =>
      refine ⟨?_, fun y d hd => ⟨d, hd, fun _ h => h⟩⟩
      rw [substitution_addBinding s x isOver]
      exact List.suffix_cons ..
  | @narrowed x e isOpen isOver occupied inside =>
      refine ⟨List.suffix_refl _, fun y d hd => ?_⟩
      by_cases hy : y = x
      · subst hy
        exact ⟨e, stored?_put_self s y e, inside d hd⟩
      · exact ⟨d, (stored?_put_ne s e hy).trans hd, fun _ h => h⟩

theorem Steps.refines (h : Steps I s t) : t.Refines s := by
  induction h with
  | refl => exact .refl s
  | tail _ step ih => exact step.refines.trans ih

theorem Advances.refines (h : Advances I s t) : t.Refines s :=
  ⟨(Steps.refines h).bindings, (Steps.refines h).domains⟩

/-- Terms that are the same stay the same. -/
theorem Refines.walk_congr (h : t.Refines s) {a b : Term} (hab : s.walk a = s.walk b) :
    t.walk a = t.walk b := by
  obtain ⟨new, hnew⟩ := h.bindings
  rw [walk, walk, ← hnew]
  exact Substitution.walk_append_congr new hab

/-- A variable that is open later is open before. -/
theorem Refines.walk_of_open (h : t.Refines s) (ht : t.Coherent I) {x : Var}
    (hopen : t.walk (.var x) = .var x) : s.walk (.var x) = .var x :=
  Substitution.walk_of_unbound fun _ hb =>
    ht.triangular.walk_ne_self (h.bindings.subset hb) hopen

/-- What an operation makes of a state: a refined one, with suspended differences that are
earlier ones or posted by the operation, in their order. -/
structure Extends (t s : State) (posted : List Difference) : Prop where
  refines : t.Refines s
  differences : t.differences.Sublist (s.differences ++ posted)

theorem post_extends (hs : s.WellFormed I) {c : Constraint} (hc : c.Scoped I s)
    (h : c.post s = .ok t) : t.Extends s c.posted := by
  have htakes := post_takes hs hc
  rw [h] at htakes
  exact ⟨htakes.2.1.refines, (enter_spec hs hc).sublist h⟩

end State

/-! ## Reachable states -/

/-- A reachable state is lawful, and an operation over integers extends it. -/
theorem Reachable.lawful_extends {space : PitchSpace} {s : State} (hs : Reachable space s) :
    s.Lawful ∧ ∀ (c : Constraint) (t : State), c.Integral → c.post s = .ok t →
      t.Lawful ∧ t.Extends s c.posted := by
  refine ⟨hs.wellFormed.coherent.lawful, fun c t hc ht => ⟨?_, ?_⟩⟩
  · exact (Reachable.post hs hc ht).wellFormed.coherent.lawful
  · exact State.post_extends hs.wellFormed (hc.scoped s) ht

/-- Two variables have been made equal, and the first one is restricted to three. -/
theorem Reachable.lawful_extends_three :
    let x := Var.named "x"
    let y := Var.named "y"
    let s : State := ⟨[(x, .var y)], [(x, .interval 1 3), (y, .interval 2 3)], [], .midi⟩
    let t : State :=
      ⟨[(y, .int 3), (x, .var y)], [(x, .interval 1 3), (y, .interval 3 3)], [], .midi⟩
    Reachable .midi s ∧ (Constraint.restricted (.var x) (.values [.int 3])).post s = .ok t ∧
      t.Lawful ∧ t.Extends s [] := by
  intro x y s t
  let s₁ : State := ⟨[], [(x, .interval 1 3)], [], .midi⟩
  let s₂ : State := ⟨[], [(x, .interval 1 3), (y, .interval 2 4)], [], .midi⟩
  have hinterval : ∀ a b : Int, (Allowed.domain (.interval a b)).Over fun _ => True :=
    fun a b => ⟨Domain.integral_interval a b, fun _ _ => trivial⟩
  have h₁ : Reachable .midi s₁ :=
    .post (c := .restricted (.var x) (.domain (.interval 1 3))) .empty ⟨trivial, hinterval 1 3⟩
      (State.propagate_of_open nofun)
  have h₂ : Reachable .midi s₂ :=
    .post (c := .restricted (.var y) (.domain (.interval 2 4))) h₁ ⟨trivial, hinterval 2 4⟩
      (State.propagate_of_open nofun)
  have hs : Reachable .midi s :=
    .post (c := .equal (.var x) (.var y)) h₂ ⟨trivial, trivial⟩ (State.propagate_of_open nofun)
  have hnarrow : s.narrow (.var x) (.values [.int 3]) = .ok t := by with_unfolding_all rfl
  have hpost : (Constraint.restricted (.var x) (.values [.int 3])).post s = .ok t := by
    show s.narrow _ _ >>= State.propagate = _
    rw [hnarrow]
    exact State.propagate_of_open nofun
  have hc : (Constraint.restricted (.var x) (.values [.int 3])).Integral :=
    ⟨trivial, [3], rfl, fun _ _ => trivial⟩
  exact ⟨hs, hpost, hs.lawful_extends.2 _ t hc hpost⟩

end Consonance
