import Consonance.Proofs.Discrete

/-!
# States that say more

What an operation does to a state without floating-point numbers can be said without saying which
values it works out: the later state *tightens* the earlier one (`State.Tightens`).  Terms that
were the same stay the same, and a term that was within a set of values stays within it, whether
it was known or open with a domain (`State.Within`).

*Step.*  A state changes in three ways only: a variable is bound to a value of its domain, it is
bound to a variable whose domain is inside its own, or it gets a domain inside the one it had
(`Discrete.tightens_bound`, `Discrete.tightens_joined`, `Discrete.tightens_narrowed`).

*Run.*  Tightening is transitive, so every operation tightens the state, propagation included.  An
operation that puts a term within a set of values leaves it there for good.
-/

namespace Consonance

/-! ## Discrete restrictions and differences -/

/-- What holds of a value holds of every value that reads the same. -/
def Value.Lasting (S : Value → Prop) : Prop := ∀ v w : Value, v.Alike w → S v → S w

/-- The terms of the difference are discrete. -/
structure Difference.Discrete (c : Difference) : Prop where
  minuend : c.minuend.Discrete
  subtrahend : c.subtrahend.Discrete
  distance : c.distance.Discrete

namespace Allowed

/-- The restriction gives no floating-point numbers. -/
def Discrete : Allowed → Prop
  | .domain d => d.Discrete
  | .values vs => ∀ v ∈ vs, v.Discrete
  | .passing _ => True

theorem Discrete.toDomain {allowed : Allowed} {base d : Domain} (h : allowed.Discrete)
    (hbase : base.Discrete) (hd : allowed.toDomain base = .ok d) : d.Discrete := by
  cases allowed with
  | domain e =>
      cases hd
      exact h
  | values vs => exact fun v hv => h v (Domain.mem_of_mem_ofList hd hv)
  | passing test => exact fun v hv => hbase v (Domain.mem_of_mem_filter hd hv)

end Allowed

namespace State

variable {s t u : State} {S : Value → Prop} {a b : Term} {v w : Value} {x y : Var} {d : Domain}

/-! ## Discrete states -/

/-- The state has no floating-point numbers, and its bindings have been made one after the
other. -/
structure Discrete (s : State) : Prop where
  triangular : s.substitution.Triangular
  walks : ∀ a, a.Discrete → (s.walk a).Discrete
  domains : ∀ x d, s.stored? x = some d → d.Discrete
  differences : ∀ c ∈ s.differences, c.Discrete

theorem discrete_empty (space : PitchSpace) : (empty space).Discrete :=
  ⟨trivial, fun _ h => h, nofun, nofun⟩

theorem Discrete.value (hs : s.Discrete) (ha : a.Discrete) (h : s.walk a = .val v) :
    v.Discrete := by
  have hwalks := hs.walks a ha
  rwa [h] at hwalks

theorem Discrete.walk_walk (hs : s.Discrete) (a : Term) : s.walk (s.walk a) = s.walk a :=
  Substitution.walk_walk hs.triangular a

/-- A term that is looked up ends in an open variable. -/
theorem Discrete.walk_var (hs : s.Discrete) (h : s.walk a = .var x) :
    s.walk (.var x) = .var x := by
  rw [← h, hs.walk_walk]

theorem Discrete.addBinding (hs : s.Discrete) (hx : s.walk (.var x) = .var x) (ha : a.Discrete)
    (hwalk : s.walk a = a) (hne : a ≠ .var x) : (s.addBinding x a).Discrete := by
  refine ⟨?_, fun b hb => ?_, hs.domains, hs.differences⟩
  · rw [substitution_addBinding_discrete s x ha]
    exact ⟨hx, hwalk, hne, hs.triangular⟩
  · by_cases h : s.walk b = .var x
    · rwa [walk_addBinding_discrete ha h]
    · rw [walk_addBinding_other ha h]
      exact hs.walks b hb

/-! ## Terms within sets of values -/

/-- The term has a value of the set, or it is open with a domain inside the set. -/
def Within (s : State) (S : Value → Prop) (a : Term) : Prop :=
  match s.walk a with
  | .val v => S v
  | .var x => ∃ d, s.stored? x = some d ∧ ∀ v ∈ d.values, S v

theorem within_val (h : s.walk a = .val v) : s.Within S a ↔ S v := by
  rw [Within, h]

theorem within_var (h : s.walk a = .var x) :
    s.Within S a ↔ ∃ d, s.stored? x = some d ∧ ∀ v ∈ d.values, S v := by
  rw [Within, h]

/-- The later state has no floating-point numbers either, and what terms are and where they stay
is as it was in the earlier one. -/
structure Tightens (t s : State) : Prop where
  discrete : t.Discrete
  space : t.space = s.space
  congr : ∀ a b, s.walk a = s.walk b → t.walk a = t.walk b
  within : ∀ S, Value.Lasting S → ∀ a, s.Within S a → t.Within S a

theorem Discrete.tightens_self (hs : s.Discrete) : s.Tightens s :=
  ⟨hs, rfl, fun _ _ h => h, fun _ _ _ h => h⟩

theorem Tightens.trans (htu : u.Tightens t) (hst : t.Tightens s) : u.Tightens s where
  discrete := htu.discrete
  space := htu.space.trans hst.space
  congr a b h := htu.congr a b (hst.congr a b h)
  within S hS a h := htu.within S hS a (hst.within S hS a h)

/-- A term and what it was before are the same later. -/
theorem Tightens.walk_walk (h : t.Tightens s) (hs : s.Discrete) (a : Term) :
    t.walk (s.walk a) = t.walk a :=
  h.congr _ _ (hs.walk_walk a)

/-- A known term keeps its value. -/
theorem Tightens.walk_val (h : t.Tightens s) (ha : s.walk a = .val v) : t.walk a = .val v :=
  (h.congr a (.val v) (ha.trans (Substitution.walk_val _ v).symm)).trans
    (Substitution.walk_val _ v)

theorem within_congr (h : t.walk a = t.walk b) : t.Within S a ↔ t.Within S b := by
  rw [Within, Within, h]

/-- The terms are the same, or have values that read the same. -/
def Matches (t : State) (a b : Term) : Prop :=
  t.walk a = t.walk b ∨ ∃ v w, t.walk a = .val v ∧ t.walk b = .val w ∧ v.Alike w

theorem Matches.within (h : t.Matches a b) (hS : Value.Lasting S) (hb : t.Within S b) :
    t.Within S a := by
  rcases h with h | ⟨v, w, hv, hw, halike⟩
  · exact (within_congr h).mpr hb
  · exact (within_val hv).mpr (hS w v halike.symm ((within_val hw).mp hb))

theorem Matches.value (h : t.Matches a (.val v)) : ∃ w, t.walk a = .val w ∧ w.Alike v := by
  have hval : t.walk (.val v) = .val v := Substitution.walk_val _ v
  rcases h with h | ⟨w, v', hw, hv', halike⟩
  · exact ⟨v, h.trans hval, .refl v⟩
  · cases hval.symm.trans hv'
    exact ⟨w, hw, halike⟩

theorem Tightens.matches (h : t.Tightens s) (hab : s.Matches a b) : t.Matches a b := by
  rcases hab with hab | ⟨v, w, hv, hw, halike⟩
  · exact .inl (h.congr a b hab)
  · exact .inr ⟨v, w, h.walk_val hv, h.walk_val hw, halike⟩

/-! ## Steps -/

theorem walk_addBinding_congr (ha : a.Discrete) {b c : Term} (h : s.walk b = s.walk c) :
    (s.addBinding x a).walk b = (s.addBinding x a).walk c := by
  by_cases hb : s.walk b = .var x
  · rw [walk_addBinding_discrete ha hb, walk_addBinding_discrete ha (h ▸ hb)]
  · rw [walk_addBinding_other ha hb, walk_addBinding_other ha (h ▸ hb), h]

/-- An open variable is bound to a value that its domain has, if it has one. -/
theorem Discrete.tightens_bound (hs : s.Discrete) (hx : s.walk (.var x) = .var x)
    (hv : v.Discrete) (hd : ∀ d, s.stored? x = some d → ∃ w ∈ d.values, w.Alike v) :
    (s.addBinding x (.val v)).Tightens s := by
  have hterm : (Term.val v).Discrete := hv
  refine ⟨hs.addBinding hx hv (Substitution.walk_val _ v) nofun, rfl,
    fun a b => walk_addBinding_congr hterm, fun S hS a ha => ?_⟩
  by_cases hwalk : s.walk a = .var x
  · obtain ⟨d, hstored, hmem⟩ := (within_var hwalk).mp ha
    obtain ⟨w, hw, halike⟩ := hd d hstored
    rw [within_val (walk_addBinding_discrete hterm hwalk)]
    exact hS w v halike (hmem w hw)
  · rwa [Within, walk_addBinding_other hterm hwalk]

/-- An open variable is bound to another one, whose domain is inside its own. -/
theorem Discrete.tightens_joined (hs : s.Discrete) (hx : s.walk (.var x) = .var x)
    (hy : s.walk (.var y) = .var y) (hne : x ≠ y)
    (hd : ∀ d, s.stored? x = some d → ∃ e, s.stored? y = some e ∧
      ∀ w ∈ e.values, ∃ v ∈ d.values, v.Alike w) :
    (s.addBinding x (.var y)).Tightens s := by
  have hterm : (Term.var y).Discrete := trivial
  refine ⟨hs.addBinding hx hterm hy fun heq => hne (Term.var.inj heq).symm, rfl,
    fun a b => walk_addBinding_congr hterm, fun S hS a ha => ?_⟩
  by_cases hwalk : s.walk a = .var x
  · obtain ⟨d, hstored, hmem⟩ := (within_var hwalk).mp ha
    obtain ⟨e, he, hinside⟩ := hd d hstored
    rw [within_var (walk_addBinding_discrete hterm hwalk)]
    refine ⟨e, he, fun w hw => ?_⟩
    obtain ⟨v, hv, halike⟩ := hinside w hw
    exact hS v w halike (hmem v hv)
  · rwa [Within, walk_addBinding_other hterm hwalk]

/-- A variable gets a domain inside the one it had. -/
theorem Discrete.tightens_narrowed (hs : s.Discrete) (hd : d.Discrete)
    (hin : ∀ e, s.stored? x = some e → ∀ w ∈ d.values, ∃ v ∈ e.values, v.Alike w) :
    (s.put x d).Tightens s := by
  refine ⟨⟨hs.triangular, hs.walks, fun y e he => ?_, hs.differences⟩, rfl, fun _ _ h => h,
    fun S hS a ha => ?_⟩
  · by_cases hyx : y = x
    · subst hyx
      rw [stored?_put_self] at he
      exact Option.some.inj he ▸ hd
    · exact hs.domains y e ((stored?_put_ne s d hyx).symm.trans he)
  · cases hwalk : s.walk a with
    | val v => exact (within_val (s := s.put x d) hwalk).mpr ((within_val hwalk).mp ha)
    | var y =>
        obtain ⟨e, he, hmem⟩ := (within_var hwalk).mp ha
        refine (within_var (s := s.put x d) hwalk).mpr ?_
        by_cases hyx : y = x
        · subst hyx
          refine ⟨d, stored?_put_self s y d, fun w hw => ?_⟩
          obtain ⟨v, hv, halike⟩ := hin e he w hw
          exact hS v w halike (hmem v hv)
        · exact ⟨e, (stored?_put_ne s d hyx).trans he, hmem⟩

theorem Discrete.tightens_withDifferences (hs : s.Discrete) {cs : List Difference}
    (hcs : ∀ c ∈ cs, c.Discrete) : Tightens { s with differences := cs } s :=
  ⟨⟨hs.triangular, hs.walks, hs.domains, hcs⟩, rfl, fun _ _ h => h, fun _ _ _ h => h⟩

/-! ## Equations -/

theorem bindValue_eq_ok (h : s.bindValue x v = .ok t) :
    t = s.addBinding x (.val v) ∧
      ∀ d, s.stored? x = some d → ∃ w ∈ d.values, v.same w = true := by
  unfold bindValue at h
  split at h
  next hnone =>
    cases h
    exact ⟨rfl, fun d hd => nomatch hnone.symm.trans hd⟩
  next d hd =>
    obtain ⟨b, hb, h⟩ := bind_eq_ok.mp h
    cases b with
    | true =>
        cases h
        refine ⟨rfl, fun e he => ?_⟩
        cases hd.symm.trans he
        exact Domain.exists_of_contains hb
    | false =>
        simp only [Bool.false_eq_true, if_false] at h
        split at h
        · obtain ⟨_, -, h⟩ := bind_eq_ok.mp h
          cases h
        · cases h

theorem bindValue_tightens (hs : s.Discrete) (hx : s.walk (.var x) = .var x) (hv : v.Discrete)
    (h : s.bindValue x v = .ok t) : t.Tightens s := by
  obtain ⟨rfl, hd⟩ := bindValue_eq_ok h
  refine hs.tightens_bound hx hv fun d hstored => ?_
  obtain ⟨w, hw, hsame⟩ := hd d hstored
  exact ⟨w, hw, (Value.alike_of_same hv (hs.domains x d hstored w hw) hsame).symm⟩

/-- What is bound to a variable takes over its domain, and the other one keeps to its own too. -/
theorem bindVar_eq_ok (h : s.bindVar x y = .ok t) :
    s.stored? x = none ∧ t = s.addBinding x (.var y) ∨
      ∃ d m, s.stored? x = some d ∧ t = (s.put y m).addBinding x (.var y) ∧
        (s.stored? y = none ∧ m = d ∨ ∃ e, s.stored? y = some e ∧ m = d.intersect e) := by
  unfold bindVar at h
  split at h
  next hnone =>
    cases h
    exact .inl ⟨hnone, rfl⟩
  next d hd =>
    refine .inr ⟨d, ?_⟩
    cases he : s.stored? y with
    | none =>
        simp only [he] at h
        split at h
        · cases h
        · cases h
          exact ⟨d, hd, rfl, .inl ⟨rfl, rfl⟩⟩
    | some e =>
        simp only [he] at h
        split at h
        · cases h
        · cases h
          exact ⟨d.intersect e, hd, rfl, .inr ⟨e, rfl, rfl⟩⟩

theorem bindVar_tightens (hs : s.Discrete) (hx : s.walk (.var x) = .var x)
    (hy : s.walk (.var y) = .var y) (hne : x ≠ y) (h : s.bindVar x y = .ok t) :
    t.Tightens s := by
  rcases bindVar_eq_ok h with ⟨hnone, rfl⟩ | ⟨d, m, hd, rfl, hm⟩
  · exact hs.tightens_joined hx hy hne fun d hd => nomatch hnone.symm.trans hd
  · -- The merged domain is inside both, so it may be stored before the variable is bound.
    have hmerged : ∀ w ∈ m.values, w.Discrete ∧ (∃ v ∈ d.values, v.Alike w) ∧
        ∀ e, s.stored? y = some e → ∃ v ∈ e.values, v.Alike w := by
      intro w hw
      rcases hm with ⟨hnone, rfl⟩ | ⟨e, he, rfl⟩
      · refine ⟨hs.domains x _ hd w hw, ⟨w, hw, .refl w⟩, fun e he => ?_⟩
        exact nomatch hnone.symm.trans he
      · obtain ⟨hdiscrete, hleft, hright⟩ :=
          (hs.domains x d hd).exists_of_mem_intersect (hs.domains y e he) hw
        refine ⟨hdiscrete, hleft, fun e' he' => ?_⟩
        cases he.symm.trans he'
        exact hright
    have hput : (s.put y m).Tightens s :=
      hs.tightens_narrowed (fun w hw => (hmerged w hw).1) fun e he w hw => (hmerged w hw).2.2 e he
    refine Tightens.trans (hput.discrete.tightens_joined hx hy hne fun d' hd' => ?_) hput
    rw [stored?_put_ne s m hne, hd] at hd'
    cases hd'
    exact ⟨m, stored?_put_self s y m, fun w hw => (hmerged w hw).2.1⟩

/-- How two terms may be made equal. -/
inductive Equates (s : State) (a b : Term) (t : State) : Prop where
  /-- The same open variable stands for both. -/
  | shared {x : Var} (first : s.walk a = .var x) (second : s.walk b = .var x) (none : t = s)
  | known {v w : Value} (first : s.walk a = .val v) (second : s.walk b = .val w)
      (same : v.same w = true) (none : t = s)
  | left {x : Var} {v : Value} (first : s.walk a = .var x) (second : s.walk b = .val v)
      (bound : s.bindValue x v = .ok t)
  | right {x : Var} {v : Value} (first : s.walk a = .val v) (second : s.walk b = .var x)
      (bound : s.bindValue x v = .ok t)
  | joined {x y : Var} (ne : x ≠ y) (first : s.walk a = .var x) (second : s.walk b = .var y)
      (bound : s.bindVar x y = .ok t)

theorem equates_of_equate (h : s.equate a b = .ok t) : s.Equates a b t := by
  unfold equate at h
  cases ha : s.walk a with
  | var x =>
      cases hb : s.walk b with
      | var y =>
          by_cases hxy : x = y
          · simp only [ha, hb, Substitution.binding?, if_pos hxy] at h
            cases h
            exact .shared ha (hxy ▸ hb) rfl
          · simp only [ha, hb, Substitution.binding?, if_neg hxy] at h
            exact .joined hxy ha hb h
      | val v =>
          simp only [ha, hb, Substitution.binding?] at h
          exact .left ha hb h
  | val v =>
      cases hb : s.walk b with
      | var y =>
          simp only [ha, hb, Substitution.binding?] at h
          exact .right ha hb h
      | val w =>
          simp only [ha, hb, Substitution.binding?] at h
          by_cases hsame : v.same w = true
          · simp only [if_pos hsame] at h
            cases h
            exact .known ha hb hsame rfl
          · simp only [if_neg hsame] at h
            cases h

theorem equate_tightens (hs : s.Discrete) (ha : a.Discrete) (hb : b.Discrete)
    (h : s.equate a b = .ok t) : t.Tightens s := by
  cases equates_of_equate h with
  | shared _ _ none => exact none ▸ hs.tightens_self
  | known _ _ _ none => exact none ▸ hs.tightens_self
  | left first second bound =>
      exact bindValue_tightens hs (hs.walk_var first) (hs.value hb second) bound
  | right first second bound =>
      exact bindValue_tightens hs (hs.walk_var second) (hs.value ha first) bound
  | joined ne first second bound =>
      exact bindVar_tightens hs (hs.walk_var first) (hs.walk_var second) ne bound

/-- What is made equal matches. -/
theorem equate_matches (hs : s.Discrete) (ha : a.Discrete) (hb : b.Discrete)
    (h : s.equate a b = .ok t) : t.Matches a b := by
  have htightens := equate_tightens hs ha hb h
  cases equates_of_equate h with
  | shared first second none => exact .inl (none ▸ first.trans second.symm)
  | @known v w first second same none =>
      have halike := Value.alike_of_same (hs.value ha first) (hs.value hb second) same
      exact none ▸ .inr ⟨v, w, first, second, halike⟩
  | @left x v first second bound =>
      have hv : (Term.val v).Discrete := hs.value hb second
      rw [Matches, htightens.walk_val second, (bindValue_eq_ok bound).1]
      exact .inl (walk_addBinding_discrete hv first)
  | @right x v first second bound =>
      have hv : (Term.val v).Discrete := hs.value ha first
      rw [Matches, htightens.walk_val first, (bindValue_eq_ok bound).1]
      exact .inl (walk_addBinding_discrete hv second).symm
  | @joined x y ne first second bound =>
      have hy : (Term.var y).Discrete := trivial
      have hne : s.walk b ≠ .var x := fun heq => ne (Term.var.inj (heq.symm.trans second))
      rcases bindVar_eq_ok bound with ⟨-, rfl⟩ | ⟨d, m, -, rfl, -⟩
      · left
        rw [walk_addBinding_discrete hy first, walk_addBinding_other hy hne, second]
      · left
        rw [walk_addBinding_discrete hy (s := s.put y m) first,
          walk_addBinding_other hy (s := s.put y m) hne]
        exact second.symm

/-- Known terms are only compared. -/
theorem equate_known (ha : s.walk a = .val v) (hb : s.walk b = .val w)
    (h : s.equate a b = .ok t) : t = s := by
  cases equates_of_equate h with
  | shared first _ _ => exact nomatch ha.symm.trans first
  | known _ _ _ none => exact none
  | left first _ _ => exact nomatch ha.symm.trans first
  | right _ second _ => exact nomatch hb.symm.trans second
  | joined _ first _ _ => exact nomatch ha.symm.trans first

/-! ## Restrictions -/

theorem settleDomain_eq_ok (h : narrowVar.settleDomain s x d = .ok t) :
    t = s.put x d ∨ ∃ v, d.values = [v] ∧ t = (s.put x d).addBinding x (.val v) := by
  unfold narrowVar.settleDomain at h
  split at h
  · cases h
  · split at h
    · cases h
      exact .inl rfl
    next v hv =>
      cases h
      refine .inr ⟨v, ?_, rfl⟩
      unfold Domain.single? at hv
      split at hv
      next heq =>
        cases hv
        exact heq
      next => cases hv

/-- A variable that a domain is settled on gets one inside it, or its only value. -/
theorem settleDomain_tightens (hs : s.Discrete) (hx : s.walk (.var x) = .var x)
    (hd : d.Discrete)
    (hin : ∀ e, s.stored? x = some e → ∀ w ∈ d.values, ∃ v ∈ e.values, v.Alike w)
    (h : narrowVar.settleDomain s x d = .ok t) :
    t.Tightens s ∧ ((∀ v ∈ d.values, S v) → ∀ a, s.walk a = .var x → t.Within S a) := by
  have hput : (s.put x d).Tightens s := hs.tightens_narrowed hd hin
  rcases settleDomain_eq_ok h with rfl | ⟨v, hv, rfl⟩
  · exact ⟨hput, fun hmem a ha => (within_var (s := s.put x d) ha).mpr
      ⟨d, stored?_put_self s x d, hmem⟩⟩
  · have hmem : v ∈ d.values := hv ▸ List.mem_singleton_self v
    have hterm : (Term.val v).Discrete := hd v hmem
    refine ⟨Tightens.trans (hput.discrete.tightens_bound hx (hd v hmem) fun e he => ?_) hput,
      fun hall a ha => ?_⟩
    · rw [stored?_put_self] at he
      cases he
      exact ⟨v, hmem, .refl v⟩
    · rw [within_val (walk_addBinding_discrete hterm (s := s.put x d) ha)]
      exact hall v hmem

/-- How a term may be restricted. -/
inductive Narrows (s : State) (a : Term) (allowed : Allowed) (t : State) : Prop where
  | admitted {v : Value} (known : s.walk a = .val v) (admits : allowed.admits v = .ok true)
      (none : t = s)
  /-- The domain of the variable is inside the restriction. -/
  | kept {x : Var} {d e : Domain} (isOpen : s.walk a = .var x) (stored : s.stored? x = some d)
      (asked : allowed.toDomain d = .ok e) (same : (d.intersect e).same d = true) (none : t = s)
  | first {x : Var} {e : Domain} (isOpen : s.walk a = .var x) (stored : s.stored? x = none)
      (asked : allowed.toDomain s.spaceDomain = .ok e)
      (settled : narrowVar.settleDomain s x e = .ok t)
  | smaller {x : Var} {d e : Domain} (isOpen : s.walk a = .var x) (stored : s.stored? x = some d)
      (asked : allowed.toDomain d = .ok e)
      (settled : narrowVar.settleDomain s x (d.intersect e) = .ok t)

theorem narrows_of_narrow {allowed : Allowed} (h : s.narrow a allowed = .ok t) :
    s.Narrows a allowed t := by
  unfold narrow at h
  split at h
  next x hx =>
    unfold narrowVar at h
    split at h
    next hnone =>
      obtain ⟨e, he, h⟩ := bind_eq_ok.mp h
      exact .first hx hnone he h
    next d hd =>
      obtain ⟨e, he, h⟩ := bind_eq_ok.mp h
      simp only [Bool.and_eq_true] at h
      split at h
      next hsame =>
        cases h
        exact .kept hx hd he hsame.2 rfl
      next => exact .smaller hx hd he h
  next v hv =>
    obtain ⟨b, hb, h⟩ := bind_eq_ok.mp h
    cases b with
    | true =>
        cases h
        exact .admitted hv hb rfl
    | false => cases h

theorem discrete_spaceDomain (s : State) : s.spaceDomain.Discrete := Domain.discrete_interval _ _

theorem narrow_tightens {allowed : Allowed} (hs : s.Discrete) (hallowed : allowed.Discrete)
    (h : s.narrow a allowed = .ok t) : t.Tightens s := by
  cases narrows_of_narrow h with
  | admitted _ _ none => exact none ▸ hs.tightens_self
  | kept _ _ _ _ none => exact none ▸ hs.tightens_self
  | first isOpen stored asked settled =>
      refine (settleDomain_tightens (S := fun _ => True) hs (hs.walk_var isOpen)
        (hallowed.toDomain s.discrete_spaceDomain asked) (fun e he => ?_) settled).1
      exact nomatch stored.symm.trans he
  | smaller isOpen stored asked settled =>
      have hd := hs.domains _ _ stored
      have he := hallowed.toDomain hd asked
      refine (settleDomain_tightens (S := fun _ => True) hs (hs.walk_var isOpen)
        (fun w hw => (hd.exists_of_mem_intersect he hw).1) (fun e' he' w hw => ?_) settled).1
      cases stored.symm.trans he'
      exact (hd.exists_of_mem_intersect he hw).2.1

/-- A term that is restricted to a domain inside a set of values comes to be within the set. -/
theorem narrow_within (hs : s.Discrete) (ha : a.Discrete) (hd : d.Discrete)
    (hS : Value.Lasting S) (hmem : ∀ v ∈ d.values, S v) (h : s.narrow a (.domain d) = .ok t) :
    t.Within S a := by
  cases narrows_of_narrow h with
  | @admitted v known admits none =>
      subst none
      obtain ⟨w, hw, hsame⟩ := Domain.exists_of_contains admits
      have halike := Value.alike_of_same (hs.value ha known) (hd w hw) hsame
      exact (within_val known).mpr (hS w v halike.symm (hmem w hw))
  | @kept x e d' isOpen stored asked same none =>
      subst none
      cases asked
      have he := hs.domains x e stored
      refine (within_var isOpen).mpr ⟨e, stored, fun v hv => ?_⟩
      obtain ⟨w, hw, hsame⟩ := Domain.exists_of_sameItems same hv
      obtain ⟨hdiscrete, -, u, hu, halike⟩ := he.exists_of_mem_intersect hd hw
      have hboth := Value.alike_of_same hdiscrete (he v hv) hsame
      exact hS w v hboth (hS u w halike (hmem u hu))
  | first isOpen stored asked settled =>
      cases asked
      refine (settleDomain_tightens hs (hs.walk_var isOpen) hd (fun e he => ?_) settled).2 hmem a
        isOpen
      exact nomatch stored.symm.trans he
  | @smaller x e d' isOpen stored asked settled =>
      cases asked
      have he := hs.domains x e stored
      refine (settleDomain_tightens hs (hs.walk_var isOpen)
        (fun w hw => (he.exists_of_mem_intersect hd hw).1) (fun e' he' w hw => ?_) settled).2
          (fun w hw => ?_) a isOpen
      · cases stored.symm.trans he'
        exact (he.exists_of_mem_intersect hd hw).2.1
      · obtain ⟨-, -, u, hu, halike⟩ := he.exists_of_mem_intersect hd hw
        exact hS u w halike (hmem u hu)

/-! ## Differences -/

theorem narrowTo_tightens {source : Option Domain} {move : Domain → Except Failure Domain}
    (hs : s.Discrete) (hmove : ∀ d e, source = some d → move d = .ok e → e.Discrete)
    (h : s.narrowTo a source move = .ok t) : t.Tightens s := by
  cases source with
  | none =>
      cases h
      exact hs.tightens_self
  | some d =>
      obtain ⟨e, he, h⟩ := bind_eq_ok.mp h
      have hallowed : (Allowed.domain e).Discrete := hmove d e rfl he
      exact narrow_tightens hs hallowed h

theorem Discrete.domain? (hs : s.Discrete) (h : s.domain? a = some d) : d.Discrete := by
  unfold State.domain? at h
  split at h
  next x _ => exact hs.domains x d h
  next => cases h

/-- Two terms are restricted against each other. -/
theorem narrowTo_both_tightens {source source' : Option Domain}
    {move move' : Domain → Except Failure Domain} {done : Bool} (hs : s.Discrete)
    (hmove : ∀ d e, source = some d → move d = .ok e → e.Discrete)
    (hmove' : ∀ d e, source' = some d → move' d = .ok e → e.Discrete)
    (h : (do
      let u ← s.narrowTo a source move
      let v ← u.narrowTo b source' move'
      pure (v, false)) = .ok (t, done)) : t.Tightens s := by
  obtain ⟨u, hu, h⟩ := bind_eq_ok.mp h
  obtain ⟨w, hw, h⟩ := bind_eq_ok.mp h
  cases h
  have hfirst := narrowTo_tightens hs hmove hu
  exact (narrowTo_tightens hfirst.discrete hmove' hw).trans hfirst

/-- A part of a difference that the other two give is worked out and bound. -/
theorem given_tightens {r : Except Failure Value} {done : Bool} (hs : s.Discrete)
    (hr : ∀ v, r = .ok v → v.Discrete)
    (h : (do
      let v ← r
      let u ← s.equate (.var x) (.val v)
      pure (u, true)) = .ok (t, done)) : t.Tightens s := by
  obtain ⟨v, hv, h⟩ := bind_eq_ok.mp h
  obtain ⟨u, hu, h⟩ := bind_eq_ok.mp h
  cases h
  exact equate_tightens hs (a := .var x) (b := .val v) trivial (hr v hv) hu

theorem settle_tightens {c : Difference} {done : Bool} (hs : s.Discrete) (hc : c.Discrete)
    (h : s.settle c = .ok (t, done)) : t.Tightens s := by
  have hminuend := fun v => hs.value (v := v) hc.minuend
  have hsubtrahend := fun v => hs.value (v := v) hc.subtrahend
  have hdistance := fun v => hs.value (v := v) hc.distance
  unfold settle at h
  cases ha : s.walk c.minuend with
  | val m =>
      have hm := hminuend m ha
      cases hb : s.walk c.subtrahend with
      | val n =>
          have hn := hsubtrahend n hb
          cases hd : s.walk c.distance with
          | val k =>
              simp only [ha, hb, hd] at h
              obtain ⟨v, -, h⟩ := bind_eq_ok.mp h
              split at h
              · cases h
                exact hs.tightens_self
              · cases h
          | var z =>
              simp only [ha, hb, hd] at h
              exact given_tightens hs (fun v => Value.discrete_sub hm hn) h
      | var y =>
          cases hd : s.walk c.distance with
          | val k =>
              simp only [ha, hb, hd] at h
              exact given_tightens hs (fun v => Value.discrete_sub hm (hdistance k hd)) h
          | var z =>
              simp only [ha, hb, hd] at h
              exact narrowTo_both_tightens hs
                (fun e e' he => (hs.domain? he).reflect hm)
                (fun e e' he => (hs.domain? he).reflect hm) h
  | var x =>
      cases hb : s.walk c.subtrahend with
      | val n =>
          have hn := hsubtrahend n hb
          cases hd : s.walk c.distance with
          | val k =>
              simp only [ha, hb, hd] at h
              exact given_tightens hs (fun v => Value.discrete_add hn (hdistance k hd)) h
          | var z =>
              simp only [ha, hb, hd] at h
              exact narrowTo_both_tightens hs (fun e e' he => (hs.domain? he).shift hn)
                (fun e e' he => (hs.domain? he).unshift hn) h
      | var y =>
          cases hd : s.walk c.distance with
          | val k =>
              have hk := hdistance k hd
              simp only [ha, hb, hd] at h
              exact narrowTo_both_tightens hs (fun e e' he => (hs.domain? he).shift hk)
                (fun e e' he => (hs.domain? he).unshift hk) h
          | var z =>
              simp only [ha, hb, hd] at h
              cases h
              exact hs.tightens_self

theorem settleAll_tightens {cs pending : List Difference} (hs : s.Discrete)
    (hcs : ∀ c ∈ cs, c.Discrete) (h : s.settleAll cs = .ok (t, pending)) :
    t.Tightens s ∧ pending ⊆ cs := by
  induction cs generalizing s t pending with
  | nil =>
      cases h
      exact ⟨hs.tightens_self, List.Subset.refl _⟩
  | cons c rest ih =>
      obtain ⟨hc, hrest⟩ := List.forall_mem_cons.mp hcs
      obtain ⟨⟨u, done⟩, hu, h⟩ := bind_eq_ok.mp h
      obtain ⟨⟨w, left⟩, hw, h⟩ := bind_eq_ok.mp h
      cases h
      have hfirst := settle_tightens hs hc hu
      obtain ⟨hlater, hleft⟩ := ih hfirst.discrete hrest hw
      refine ⟨hlater.trans hfirst, ?_⟩
      cases done with
      | true => exact List.subset_cons_of_subset c hleft
      | false => exact List.cons_subset_cons c hleft

theorem pass_tightens (hs : s.Discrete) (h : s.pass = .ok t) : t.Tightens s := by
  obtain ⟨⟨u, pending⟩, hu, h⟩ := bind_eq_ok.mp h
  cases h
  obtain ⟨htightens, hpending⟩ := settleAll_tightens hs hs.differences hu
  refine Tightens.trans (htightens.discrete.tightens_withDifferences fun c hc => ?_) htightens
  exact hs.differences c (hpending hc)

theorem propagate_tightens (hs : s.Discrete) (h : s.propagate = .ok t) : t.Tightens s := by
  induction s using propagate.induct with
  | case1 s ih =>
      rw [propagate] at h
      obtain ⟨next, hnext, h⟩ := bind_eq_ok.mp h
      have hpass := pass_tightens hs hnext
      split at h
      next hbelow => exact (ih next hbelow hpass.discrete h).trans hpass
      next =>
        cases h
        exact hpass

/-! ## Operations -/

theorem bind_tightens (hs : s.Discrete) (ha : a.Discrete) (hb : b.Discrete)
    (h : s.bind a b = .ok t) : t.Tightens s := by
  obtain ⟨u, hu, h⟩ := bind_eq_ok.mp h
  have hequate := equate_tightens hs ha hb hu
  exact (propagate_tightens hequate.discrete h).trans hequate

theorem bind_matches (hs : s.Discrete) (ha : a.Discrete) (hb : b.Discrete)
    (h : s.bind a b = .ok t) : t.Matches a b := by
  obtain ⟨u, hu, h⟩ := bind_eq_ok.mp h
  have hequate := equate_tightens hs ha hb hu
  exact (propagate_tightens hequate.discrete h).matches (equate_matches hs ha hb hu)

theorem restrict_tightens {allowed : Allowed} (hs : s.Discrete) (hallowed : allowed.Discrete)
    (h : s.restrict a allowed = .ok t) : t.Tightens s := by
  obtain ⟨u, hu, h⟩ := bind_eq_ok.mp h
  have hnarrow := narrow_tightens hs hallowed hu
  exact (propagate_tightens hnarrow.discrete h).trans hnarrow

theorem restrict_within (hs : s.Discrete) (ha : a.Discrete) (hd : d.Discrete)
    (hS : Value.Lasting S) (hmem : ∀ v ∈ d.values, S v)
    (h : s.restrict a (.domain d) = .ok t) : t.Within S a := by
  obtain ⟨u, hu, h⟩ := bind_eq_ok.mp h
  have hallowed : (Allowed.domain d).Discrete := hd
  have hnarrow := narrow_tightens hs hallowed hu
  exact (propagate_tightens hnarrow.discrete h).within S hS a
    (narrow_within hs ha hd hS hmem hu)

theorem assertDifference_tightens {c : Difference} (hs : s.Discrete) (hc : c.Discrete)
    (h : s.assertDifference c.minuend c.subtrahend c.distance = .ok t) : t.Tightens s := by
  have hposted : Tightens { s with differences := s.differences ++ [c] } s :=
    hs.tightens_withDifferences (List.forall_mem_append.mpr
      ⟨hs.differences, List.forall_mem_singleton.mpr hc⟩)
  exact (propagate_tightens hposted.discrete h).trans hposted

end State

end Consonance
