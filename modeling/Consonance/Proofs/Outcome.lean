import Consonance.Proofs.Step

/-!
# Outcomes of single steps

A solver that takes in an equation or a restriction either goes on with a new state
or fails.  `State.Yields` says of such an outcome that it is *exact* for a property of
assignments: the new state is reached by steps and fits exactly the assignments
of the old one with the property, and a failure means that there are none.

Over integers there are two failures (`Failure.Blocked`): a dead end, and the failure
to word a dead end because it would show an integer of too many digits.
-/

namespace Consonance

/-! ## Failures of a branch -/

/-- The wording of the dead end shows the integer. -/
def DeadEnd.Shows (cause : DeadEnd) (n : Int) : Prop :=
  .plain (.int n) ∈ cause.shown ∨ .quoted (.int n) ∈ cause.shown

/-- The failure is a dead end, or a dead end that cannot be worded, since an integer of the
set has too many digits. -/
inductive Failure.Blocked (J : Int → Prop) : Failure → Prop where
  | deadEnd (cause : DeadEnd) : Blocked J (.deadEnd cause)
  /-- A dead end that would show an integer of too many digits. -/
  | unwritable {cause : DeadEnd} {n : Int} (shows : cause.Shows n) (mem : J n)
      (long : Number.isWritable n = false) : Blocked J (.invalid .unwritable)

theorem Failure.Blocked.mono {I J : Int → Prop} {f : Failure} (h : f.Blocked I)
    (hIJ : ∀ n, I n → J n) : f.Blocked J := by
  cases h with
  | deadEnd cause => exact .deadEnd cause
  | unwritable shows mem long => exact .unwritable shows (hIJ _ mem) long

/-- Integers that can be written leave dead ends only. -/
theorem Failure.Blocked.exists_deadEnd {J : Int → Prop} {f : Failure} (h : f.Blocked J)
    (hJ : ∀ n, J n → Number.isWritable n = true) : ∃ cause, f = .deadEnd cause := by
  cases h with
  | deadEnd cause => exact ⟨cause, rfl⟩
  | unwritable shows mem long => exact nomatch long.symm.trans (hJ _ mem)

/-- A value that a wording shows is an integer of a set. -/
def Shown.Over (J : Int → Prop) : Shown → Prop
  | .plain v => ∃ n, v = .int n ∧ J n
  | .quoted v => ∃ n, v = .int n ∧ J n

/-- Only its length keeps an integer from being shown. -/
theorem Shown.Over.unwritable {J : Int → Prop} {sh : Shown} (h : sh.Over J)
    {fault : Value.TextFault} (hf : sh.fault? = some fault) :
    fault = .unwritable ∧ ∃ n, (sh = .plain (.int n) ∨ sh = .quoted (.int n)) ∧ J n ∧
      Number.isWritable n = false := by
  have hint : ∀ n : Int, (Value.int n).quotedFault? = some fault →
      fault = .unwritable ∧ Number.isWritable n = false := by
    intro n hq
    simp only [Value.quotedFault?, Value.numberFault?] at hq
    split at hq
    · cases hq
    · next hw => exact ⟨(Option.some.inj hq).symm, by simpa using hw⟩
  cases sh with
  | plain v =>
      obtain ⟨n, rfl, hn⟩ := h
      exact ⟨(hint n hf).1, n, .inl rfl, hn, (hint n hf).2⟩
  | quoted v =>
      obtain ⟨n, rfl, hn⟩ := h
      exact ⟨(hint n hf).1, n, .inr rfl, hn, (hint n hf).2⟩

/-- Integers that can be written can be shown. -/
theorem Shown.Over.fault?_eq_none {J : Int → Prop} {sh : Shown} (h : sh.Over J)
    (hJ : ∀ n, J n → Number.isWritable n = true) : sh.fault? = none := by
  cases hf : sh.fault? with
  | none => rfl
  | some fault =>
      obtain ⟨-, n, -, hn, hlong⟩ := h.unwritable hf
      exact nomatch hlong.symm.trans (hJ n hn)

/-- A dead end that shows integers blocks the branch, worded or not. -/
theorem Failure.blocked_deadEnd {J : Int → Prop} {cause : DeadEnd}
    (h : ∀ sh ∈ cause.shown, sh.Over J) : (Failure.deadEnd cause).worded.Blocked J := by
  unfold Failure.worded
  cases hf : (Failure.deadEnd cause).shown.findSome? Shown.fault? with
  | none => exact .deadEnd cause
  | some fault =>
      obtain ⟨sh, hsh, hfault⟩ := List.exists_of_findSome?_eq_some hf
      obtain ⟨rfl, n, hshows, hn, hlong⟩ := (h sh hsh).unwritable hfault
      exact .unwritable (hshows.imp (· ▸ hsh) (· ▸ hsh)) hn hlong

/-- The text of a domain shows integers of it. -/
theorem shownOfDomain_over {J : Int → Prop} {d : Domain} (hd : d.Over J) :
    ∀ sh ∈ shownOfDomain d.values, sh.Over J := by
  have hmem : ∀ v ∈ d.values, ∃ n, v = .int n ∧ J n := by
    intro v hv
    obtain ⟨ns, hns, rfl⟩ := hd.integral
    obtain ⟨n, hn, rfl⟩ := List.mem_map.mp hv
    exact ⟨n, rfl, hd.mem n (Domain.mem_ofInts.mpr hn)⟩
  intro sh hsh
  unfold shownOfDomain at hsh
  split at hsh
  · obtain ⟨v, hv, rfl⟩ := List.mem_map.mp hsh
    refine hmem v ?_
    rcases List.mem_append.mp hv with h | h
    · exact List.mem_of_mem_head? (by simpa using h)
    · exact List.mem_of_getLast? (by simpa using h)
  · obtain ⟨v, hv, rfl⟩ := List.mem_map.mp hsh
    exact hmem v hv

namespace State

/-! ## Outcomes -/

/-- The outcome keeps exactly the assignments with a property: a new state is reached by
steps and fits those, and a failure blocks the branch when there are none. -/
def Yields (I : Int → Prop) (s : State) (P : Assignment → Prop) : Except Failure State → Prop
  | .ok t => Steps I s t ∧ ∀ ρ, t.Fits ρ ↔ s.Fits ρ ∧ P ρ
  | .error f => f.Blocked (Derived I) ∧ ∀ ρ, s.Fits ρ → ¬ P ρ

section Outcomes

variable {I : Int → Prop} {s : State} {P Q : Assignment → Prop}

theorem Yields.congr {r : Except Failure State} (h : Yields I s P r)
    (hPQ : ∀ ρ, s.Fits ρ → (P ρ ↔ Q ρ)) : Yields I s Q r := by
  cases r with
  | ok t => exact ⟨h.1, fun ρ => (h.2 ρ).trans (and_congr_right (hPQ ρ))⟩
  | error f => exact ⟨h.1, fun ρ hρ hQ => h.2 ρ hρ ((hPQ ρ hρ).mpr hQ)⟩

theorem yields_self (hP : ∀ ρ, s.Fits ρ → P ρ) : Yields I s P (.ok s) :=
  ⟨.refl, fun ρ => ⟨fun h => ⟨h, hP ρ h⟩, And.left⟩⟩

theorem yields_deadEnd {cause : DeadEnd} (hsh : ∀ sh ∈ cause.shown, sh.Over (Derived I))
    (hP : ∀ ρ, s.Fits ρ → ¬ P ρ) : Yields I s P (Failure.raise (.deadEnd cause)) :=
  ⟨Failure.blocked_deadEnd hsh, hP⟩

/-- Two outcomes in a row keep what has both properties. -/
theorem Yields.andThen {r : Except Failure State} {k : State → Except Failure State}
    (h : Yields I s P r) (hk : ∀ t, Steps I s t → Yields I t Q (k t)) :
    Yields I s (fun ρ => P ρ ∧ Q ρ) (r >>= k) := by
  cases r with
  | error f => exact ⟨h.1, fun ρ hρ hPQ => h.2 ρ hρ hPQ.1⟩
  | ok t =>
      have ht := hk t h.1
      show Yields I s _ (k t)
      cases hkt : k t with
      | error f =>
          rw [hkt] at ht
          exact ⟨ht.1, fun ρ hρ hPQ => ht.2 ρ ((h.2 ρ).mpr ⟨hρ, hPQ.1⟩) hPQ.2⟩
      | ok u =>
          rw [hkt] at ht
          refine ⟨h.1.trans ht.1, fun ρ => ?_⟩
          rw [ht.2 ρ, h.2 ρ, and_assoc]

end Outcomes

/-! ## Equations -/

variable {I : Int → Prop} {s : State}

theorem derived_of_mem (hs : s.Coherent I) {x : Var} {d : Domain} (hd : s.stored? x = some d) :
    d.Over (Derived I) :=
  ⟨(hs.domains x d hd).integral, fun n hn => .same ((hs.domains x d hd).mem n hn)⟩

theorem bindValue_of_mem {x : Var} {d : Domain} (hd : s.stored? x = some d) (hint : d.Integral)
    {n : Int} (hn : n ∈ d) : s.bindValue x (.int n) = .ok (s.addBinding x (.int n)) := by
  obtain ⟨b, hb, hmem⟩ := Domain.contains_int hint n
  cases hmem.mpr hn
  simp only [bindValue, hd, hb]
  rfl

theorem bindValue_of_not_mem {x : Var} {d : Domain} (hd : s.stored? x = some d)
    (hint : d.Integral) {n : Int} (hn : n ∉ d) :
    s.bindValue x (.int n) = Failure.raise (.deadEnd (.notInDomain (.int n) d.values)) := by
  obtain ⟨b, hb, hmem⟩ := Domain.contains_int hint n
  cases b with
  | true => exact absurd (hmem.mp rfl) hn
  | false =>
      simp only [bindValue, hd, hb]
      cases hq : (Value.int n).quotedFault? with
      | none =>
          simp only [Option.isNone_none, hint.requireShown]
          rfl
      | some fault => rfl

/-- Binding an open variable to an integer. -/
theorem bindValue_yields (hs : s.Coherent I) {x : Var} {n : Int} (hx : s.walk (.var x) = .var x)
    (hn : Derived I n) (hc : I n ∨ ∃ d, s.stored? x = some d) :
    Yields I s (fun ρ => ρ x = n) (s.bindValue x (.int n)) := by
  have hwalk : s.walk (.val (.int n)) = .val (.int n) := Substitution.walk_val _ _
  cases hd : s.stored? x with
  | none =>
      have hI : I n := hc.elim id fun ⟨d, hd'⟩ => nomatch hd.symm.trans hd'
      simp only [bindValue, hd]
      refine ⟨.single (.bound hx hwalk nofun (Term.over_int hI) fun d hd' => ?_), fun ρ => ?_⟩
      · exact nomatch hd.symm.trans hd'
      · exact fits_addBinding (Term.over_int hI)
  | some d =>
      have hover := hs.domains x d hd
      by_cases hnd : n ∈ d
      · have hI : (Term.val (.int n)).Over I := Term.over_int (hover.mem n hnd)
        rw [bindValue_of_mem hd hover.integral hnd]
        refine ⟨.single (.bound hx hwalk nofun hI fun e he => ?_), fun ρ => fits_addBinding hI⟩
        cases hd.symm.trans he
        exact ⟨n, rfl, hnd⟩
      · rw [bindValue_of_not_mem hd hover.integral hnd]
        refine yields_deadEnd (fun sh hsh => ?_) fun ρ hρ h => hnd (h ▸ hρ.domains x d hd)
        rcases List.mem_cons.mp hsh with rfl | hsh
        · exact ⟨n, rfl, hn⟩
        · exact shownOfDomain_over (derived_of_mem hs hd) sh hsh

/-- Binding an open variable with a domain to another one, which gets the values that both
may take. -/
theorem bindMerged_yields (hs : s.Coherent I) {x y : Var} (hx : s.walk (.var x) = .var x)
    (hy : s.walk (.var y) = .var y) (hne : y ≠ x) {d m : Domain} (hd : s.stored? x = some d)
    (hm : m.Integral) (hmem : ∀ n : Int, n ∈ m ↔ n ∈ d ∧ ∀ e, s.stored? y = some e → n ∈ e) :
    Yields I s (fun ρ => ρ x = ρ y)
      (if m.isEmpty then Failure.raise (.deadEnd (.noSharedValue x y))
        else .ok ((s.put y m).addBinding x (.var y))) := by
  split
  next hempty =>
    refine yields_deadEnd (fun sh hsh => nomatch hsh) fun ρ hρ heq => ?_
    refine (Domain.isEmpty_iff hm).mp hempty (ρ x) ((hmem _).mpr ⟨hρ.domains x d hd, ?_⟩)
    exact fun e he => heq ▸ hρ.domains y e he
  next hoccupied =>
    have hsub : ∀ e, s.stored? y = some e → ∀ n : Int, n ∈ m → n ∈ e :=
      fun e he n hn => ((hmem n).mp hn).2 e he
    -- The domain goes to `y` first, so that `x` is bound to a variable with all of it.
    have hput : Step I s (s.put y m) := by
      refine .narrowed hy ⟨hm, fun n hn => ?_⟩
        (Domain.exists_mem hm (by simpa using hoccupied)) hsub
      exact (hs.domains x d hd).mem n ((hmem n).mp hn).1
    have hbind : Step I (s.put y m) ((s.put y m).addBinding x (.var y)) := by
      refine .bound hx hy (fun h => hne (Term.var.inj h)) trivial fun e he => ?_
      rw [stored?_put_ne s m (Ne.symm hne), hd] at he
      cases he
      exact ⟨m, stored?_put_self s y m, fun n hn => ((hmem n).mp hn).1⟩
    refine ⟨.tail (.single hput) hbind, fun ρ => ?_⟩
    rw [fits_addBinding (I := I) (t := .var y) trivial, fits_put hsub, and_assoc]
    refine and_congr_right fun hρ => ?_
    rw [Term.eval_var]
    refine ⟨And.right, fun heq => ⟨(hmem _).mpr ⟨?_, ?_⟩, heq⟩⟩
    · exact heq ▸ hρ.domains x d hd
    · exact fun e he => hρ.domains y e he

/-- Binding an open variable to another one. -/
theorem bindVar_yields (hs : s.Coherent I) {x y : Var} (hx : s.walk (.var x) = .var x)
    (hy : s.walk (.var y) = .var y) (hne : y ≠ x) :
    Yields I s (fun ρ => ρ x = ρ y) (s.bindVar x y) := by
  cases hd : s.stored? x with
  | none =>
      simp only [bindVar, hd]
      refine ⟨.single (.bound hx hy (fun h => hne (Term.var.inj h)) trivial fun d hd' => ?_), ?_⟩
      · exact nomatch hd.symm.trans hd'
      · exact fun ρ => fits_addBinding (I := I) trivial
  | some d =>
      have hover := hs.domains x d hd
      cases he : s.stored? y with
      | none =>
          simp only [bindVar, hd, he]
          refine bindMerged_yields hs hx hy hne hd hover.integral fun n => ?_
          rw [he]
          exact ⟨fun h => ⟨h, nofun⟩, And.left⟩
      | some e =>
          simp only [bindVar, hd, he]
          obtain ⟨hint, hmem⟩ := Domain.intersect_spec hover.integral (hs.domains y e he).integral
          refine bindMerged_yields hs hx hy hne hd hint fun n => (hmem n).trans ?_
          rw [he]
          exact and_congr_right fun _ => ⟨fun h e' he' => Option.some.inj he' ▸ h, fun h => h e rfl⟩

/-- Equating two terms over integers.  An open one has a domain, or the other one is over the
set itself. -/
theorem equate_yields (hs : s.Coherent I) {a b : Term} (ha : a.Over (Derived I))
    (hb : b.Over (Derived I)) (hca : b.Over I ∨ s.Confined a) (hcb : a.Over I ∨ s.Confined b) :
    Yields I s (fun ρ => a.eval ρ = b.eval ρ) (s.equate a b) := by
  have heval : ∀ ρ, s.Fits ρ →
      ((s.walk a).eval ρ = (s.walk b).eval ρ ↔ a.eval ρ = b.eval ρ) := fun ρ hρ => by
    rw [eval_walk hρ, eval_walk hρ]
  refine Yields.congr ?_ heval
  have hsame : ∀ n, I n → Derived I n := fun _ => .same
  cases hwa : s.walk a with
  | var x =>
      have hx := hs.walk_var hwa
      cases hwb : s.walk b with
      | var y =>
          by_cases hxy : x = y
          · subst hxy
            simp only [equate, hwa, hwb, Substitution.binding?, if_true]
            exact yields_self fun ρ _ => trivial
          · simp only [equate, hwa, hwb, Substitution.binding?, if_neg hxy]
            exact bindVar_yields hs hx (hs.walk_var hwb) (Ne.symm hxy)
      | val v =>
          obtain ⟨n, rfl, hn⟩ := hs.walk_int hsame hb hwb
          simp only [equate, hwa, hwb, Substitution.binding?]
          refine bindValue_yields hs hx hn (hca.imp (fun hI => ?_) fun h => h x hwa)
          exact hs.mem_of_walk (fun _ h => h) hI hwb
  | val v =>
      obtain ⟨m, rfl, hm⟩ := hs.walk_int hsame ha hwa
      cases hwb : s.walk b with
      | var y =>
          simp only [equate, hwa, hwb, Substitution.binding?]
          refine Yields.congr ?_ fun ρ _ => eq_comm
          refine bindValue_yields hs (hs.walk_var hwb) hm (hcb.imp (fun hI => ?_) fun h => h y hwb)
          exact hs.mem_of_walk (fun _ h => h) hI hwa
      | val w =>
          obtain ⟨n, rfl, hn⟩ := hs.walk_int hsame hb hwb
          simp only [equate, hwa, hwb, Substitution.binding?, Value.same_int]
          by_cases hmn : m = n
          · subst hmn
            simp only [beq_self_eq_true, if_true]
            exact yields_self fun ρ _ => trivial
          · simp only [beq_eq_false_iff_ne.mpr hmn]
            refine yields_deadEnd (fun sh hsh => ?_) fun ρ _ h => hmn h
            rcases List.mem_cons.mp hsh with rfl | hsh
            · exact ⟨m, rfl, hm⟩
            · rcases List.mem_singleton.mp hsh with rfl
              exact ⟨n, rfl, hn⟩

/-! ## Restrictions -/

end State

/-- The integer is allowed by the restriction. -/
def Allowed.Allows (n : Int) : Allowed → Prop
  | .domain d => n ∈ d
  | .values vs => Value.int n ∈ vs
  | .passing test => test (.int n) = .ok true

/-- The restriction is a test. -/
def Allowed.IsTest : Allowed → Prop
  | .passing _ => True
  | _ => False

/-- The restriction is over integers of a set: it lists such integers, or it is a test that
answers for every integer. -/
def Allowed.Over (J : Int → Prop) : Allowed → Prop
  | .domain d => d.Over J
  | .values vs => ∃ ns : List Int, vs = ns.map Value.int ∧ ∀ n ∈ ns, J n
  | .passing test => ∀ n : Int, ∃ b, test (.int n) = .ok b

/-- The domain of a restriction has the integers that are allowed, and for a test only those
of the base. -/
theorem Allowed.toDomain_spec {J : Int → Prop} {allowed : Allowed} (ha : allowed.Over J)
    {base : Domain} (hbase : base.Integral) (hJ : allowed.IsTest → ∀ n : Int, n ∈ base → J n) :
    ∃ e, allowed.toDomain base = .ok e ∧ e.Over J ∧
      ∀ n : Int, n ∈ e ↔ allowed.Allows n ∧ (allowed.IsTest → n ∈ base) := by
  cases allowed with
  | domain d => exact ⟨d, rfl, ha, fun n => ⟨fun h => ⟨h, nofun⟩, And.left⟩⟩
  | values vs =>
      obtain ⟨ns, rfl, hns⟩ := ha
      obtain ⟨e, he, hint, hmem⟩ := Domain.ofList_ints ns
      refine ⟨e, he, ⟨hint, fun n hn => hns n ((hmem n).mp hn)⟩, fun n => (hmem n).trans ?_⟩
      simp [Allows, IsTest]
  | passing test =>
      obtain ⟨e, he, hint, hmem⟩ := Domain.filter_spec hbase ha
      refine ⟨e, he, ⟨hint, fun n hn => hJ trivial n ((hmem n).mp hn).1⟩, fun n => ?_⟩
      rw [hmem n, and_comm]
      exact and_congr_right fun _ => ⟨fun h _ => h, fun h => h trivial⟩

theorem Allowed.Over.mono {I J : Int → Prop} {allowed : Allowed} (h : allowed.Over I)
    (hIJ : ∀ n, I n → J n) : allowed.Over J := by
  cases allowed with
  | domain d => exact ⟨h.integral, fun n hn => hIJ n (h.mem n hn)⟩
  | values vs =>
      obtain ⟨ns, hvs, hns⟩ := h
      exact ⟨ns, hvs, fun n hn => hIJ n (hns n hn)⟩
  | passing test => exact h

theorem Allowed.admits_spec {J : Int → Prop} {allowed : Allowed} (ha : allowed.Over J) (n : Int) :
    ∃ b, allowed.admits (.int n) = .ok b ∧ (b = true ↔ allowed.Allows n) := by
  cases allowed with
  | domain d => exact Domain.contains_int ha.integral n
  | values vs =>
      obtain ⟨ns, rfl, -⟩ := ha
      obtain ⟨e, he, hint, hmem⟩ := Domain.ofList_ints ns
      obtain ⟨b, hb, hbmem⟩ := Domain.contains_int hint n
      refine ⟨b, ?_, hbmem.trans ((hmem n).trans ?_)⟩
      · simp only [admits, he]
        exact hb
      · simp [Allows]
  | passing test =>
      obtain ⟨b, hb⟩ := ha n
      refine ⟨b, hb, ?_⟩
      simp [Allows, hb]

namespace State

variable {I : Int → Prop} {s : State}

/-- Storing a domain, and binding the variable if that has one value. -/
theorem settleDomain_yields {x : Var} (hx : s.walk (.var x) = .var x)
    {d : Domain} (hd : d.Over I) (hsub : ∀ c, s.stored? x = some c → ∀ n : Int, n ∈ d → n ∈ c) :
    Yields I s (fun ρ => ρ x ∈ d) (narrowVar.settleDomain s x d) := by
  unfold narrowVar.settleDomain
  split
  next hempty =>
    refine yields_deadEnd (fun sh hsh => nomatch hsh) fun ρ _ h => ?_
    exact (Domain.isEmpty_iff hd.integral).mp hempty _ h
  next hoccupied =>
    have hput : Step I s (s.put x d) :=
      .narrowed hx hd (Domain.exists_mem hd.integral (by simpa using hoccupied)) hsub
    cases hone : d.single? with
    | none => exact ⟨.single hput, fun ρ => fits_put hsub⟩
    | some v =>
        obtain ⟨n, rfl, hn⟩ := Domain.single?_eq_some hd.integral hone
        have hI : (Term.val (.int n)).Over I := Term.over_int (hd.mem n ((hn n).mpr rfl))
        refine ⟨.tail (.single hput) (.bound hx (Substitution.walk_val _ _) nofun hI ?_), ?_⟩
        · intro e he
          rw [stored?_put_self] at he
          exact ⟨n, rfl, Option.some.inj he ▸ (hn n).mpr rfl⟩
        · intro ρ
          rw [fits_addBinding hI, fits_put hsub, and_assoc]
          refine and_congr_right fun _ => ?_
          show ρ x ∈ d ∧ ρ x = n ↔ ρ x ∈ d
          rw [hn (ρ x), and_self]

/-- What a restriction asks of a term.  A test of an open term without a domain is made on
the pitches of the space. -/
def Restricts (s : State) (t : Term) (allowed : Allowed) (ρ : Assignment) : Prop :=
  allowed.Allows (t.eval ρ) ∧
    (allowed.IsTest → ¬ s.Confined t →
      s.space.lowest ≤ t.eval ρ ∧ t.eval ρ ≤ s.space.highest)

theorem integral_spaceDomain (s : State) : s.spaceDomain.Integral := Domain.integral_interval _ _

/-- The restriction is over integers of a set, and so are the pitches of the space if it is
a test. -/
def Supplies (I : Int → Prop) (s : State) (allowed : Allowed) : Prop :=
  allowed.Over I ∧ (allowed.IsTest → ∀ n : Int, n ∈ s.spaceDomain → I n)

theorem narrowVar_yields (hs : s.Coherent I) {x : Var} (hx : s.walk (.var x) = .var x)
    {allowed : Allowed} (ha : allowed.Over (Derived I))
    (hc : s.Supplies I allowed ∨ s.Confined (.var x)) :
    Yields I s (s.Restricts (.var x) allowed) (s.narrowVar x allowed) := by
  cases hd : s.stored? x with
  | none =>
      have hbare : ¬ s.Confined (.var x) := fun h => by
        obtain ⟨d, hd'⟩ := h x hx
        exact nomatch hd.symm.trans hd'
      obtain ⟨hI, hspace⟩ := hc.resolve_right hbare
      obtain ⟨e, he, hover, hmem⟩ := Allowed.toDomain_spec hI s.integral_spaceDomain hspace
      simp only [narrowVar, hd, he]
      refine Yields.congr (settleDomain_yields hx hover ?_) fun ρ _ => ?_
      · exact fun c hc => nomatch hd.symm.trans hc
      · rw [hmem, Restricts, spaceDomain, Domain.mem_interval]
        exact and_congr_right fun _ => ⟨fun h ht _ => h ht, fun h ht => h ht hbare⟩
  | some c =>
      have hover := hs.domains x c hd
      have hconf : s.Confined (.var x) := fun y hy => ⟨c, by
        rw [hx] at hy
        cases hy
        exact hd⟩
      obtain ⟨e, he, heover, hmem⟩ := Allowed.toDomain_spec ha hover.integral
        fun _ n hn => .same (hover.mem n hn)
      obtain ⟨hint, hcap⟩ := Domain.intersect_spec hover.integral heover.integral
      have hrestricts : ∀ ρ, s.Fits ρ →
          (ρ x ∈ c.intersect e ↔ s.Restricts (.var x) allowed ρ) := by
        intro ρ hρ
        have hin : ρ x ∈ c := hρ.domains x c hd
        rw [hcap, hmem, Restricts]
        constructor
        · rintro ⟨-, hallows, -⟩
          exact ⟨hallows, fun _ hbare => absurd hconf hbare⟩
        · rintro ⟨hallows, -⟩
          exact ⟨hin, hallows, fun _ => hin⟩
      refine Yields.congr ?_ hrestricts
      simp only [narrowVar, hd, he]
      show Yields I s _ (if (!(c.intersect e).isEmpty && (c.intersect e).same c) = true
        then .ok s else narrowVar.settleDomain s x (c.intersect e))
      split
      next hkept =>
        have hsame := Domain.eq_of_same hint hover.integral (Bool.and_eq_true_iff.mp hkept).2
        refine yields_self fun ρ hρ => ?_
        rw [hsame]
        exact hρ.domains x c hd
      next =>
        refine settleDomain_yields hx ⟨hint, fun n hn => hover.mem n ((hcap n).mp hn).1⟩ ?_
        exact fun c' hc' n hn => Option.some.inj (hd.symm.trans hc') ▸ ((hcap n).mp hn).1

/-- Restricting a term. -/
theorem narrow_yields (hs : s.Coherent I) {t : Term} (ht : t.Over I) {allowed : Allowed}
    (ha : allowed.Over (Derived I)) (hc : s.Supplies I allowed ∨ s.Confined t) :
    Yields I s (s.Restricts t allowed) (s.narrow t allowed) := by
  cases hw : s.walk t with
  | var x =>
      have hx := hs.walk_var hw
      have hconf : s.Confined (.var x) ↔ s.Confined t := by
        unfold Confined
        rw [hx, hw]
      simp only [narrow, hw]
      refine Yields.congr (narrowVar_yields hs hx ha (hc.imp id hconf.mpr)) fun ρ hρ => ?_
      have heval : ρ x = t.eval ρ := by rw [← eval_walk hρ t, hw, Term.eval_var]
      rw [Restricts, Restricts, Term.eval_var, heval, hconf]
  | val v =>
      obtain ⟨n, rfl, hn⟩ := hs.walk_int (fun _ h => h) ht hw
      obtain ⟨b, hb, hallows⟩ := Allowed.admits_spec ha n
      have hconf : s.Confined t := fun y hy => nomatch hw.symm.trans hy
      have heval : ∀ ρ, s.Fits ρ → t.eval ρ = n := fun ρ hρ => by
        rw [← eval_walk hρ t, hw, Term.eval_int]
      simp only [narrow, hw, hb]
      cases b with
      | true =>
          refine yields_self fun ρ hρ => ⟨?_, fun _ hbare => absurd hconf hbare⟩
          rw [heval ρ hρ]
          exact hallows.mp rfl
      | false =>
          refine yields_deadEnd (fun sh hsh => ?_) fun ρ hρ h => ?_
          · rcases List.mem_singleton.mp hsh with rfl
            exact ⟨n, rfl, .same hn⟩
          · have := h.1
            rw [heval ρ hρ] at this
            exact nomatch hallows.mpr this

end State

end Consonance
