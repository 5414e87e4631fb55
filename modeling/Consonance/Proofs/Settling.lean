import Consonance.Proofs.Outcome

/-!
# Settling one difference

A difference `a - b = d` is settled by which of its terms are known (`State.SettleCases`).
Three known terms are compared.  Two known terms give the third one.  With one known term
the other two narrow each other, and with none the difference waits.  So there are four
rules (`State.Rule`).

What a state leaves to a term is read off its binding or its domain (`State.Lets`), and
a term of the difference has *support* if what it stands for goes with values left to
the other two (`State.Supports`).  The exact statement is `settle_exact`: if some term is
known, settling takes in that the terms have support, and otherwise it takes in nothing.

The main statement is `settle_spec`, which follows: a difference that is done is taken
in exactly.  One that waits has two open terms at least, and only consequences of it are
taken in.  So in either case nothing is lost and nothing is made up.
-/

namespace Consonance

namespace State

variable {I : Int → Prop} {s : State}

/-! ## Differences -/

/-- The difference is over a set of integers, and its open terms have domains unless the set
is closed. -/
def ScopedDifference (I : Int → Prop) (s : State) (c : Difference) : Prop :=
  ∀ t ∈ c.terms, s.Scoped I t

theorem ScopedDifference.steps {t : State} {c : Difference} (hc : s.ScopedDifference I c)
    (h : Steps I s t) : t.ScopedDifference I c :=
  fun u hu => (hc u hu).steps h

/-- The number of terms of a difference that are open. -/
def openTerms (s : State) (c : Difference) : Nat := (c.terms.map s.walk).countP Term.isVar

theorem openTerms_eq (s : State) (c : Difference) :
    s.openTerms c = (s.walk c.minuend).isVar.toNat + (s.walk c.subtrahend).isVar.toNat +
      (s.walk c.distance).isVar.toNat := by
  have hone : ∀ b : Bool, (if b = true then 1 else 0) = b.toNat :=
    fun b => (Bool.cond_eq_ite b 1 0).symm
  simp only [openTerms, Difference.terms, List.map_cons, List.map_nil, List.countP_cons,
    List.countP_nil, hone]
  omega

/-! ## Values that a state leaves to a term -/

/-- The term may stand for the integer, as far as its binding and its domain tell. -/
def Lets (s : State) (t : Term) (n : Int) : Prop :=
  match s.walk t with
  | .val v => v = .int n
  | .var y => ∀ d, s.stored? y = some d → n ∈ d

theorem lets_of_int {t : Term} {m : Int} (h : s.walk t = .int m) {n : Int} :
    s.Lets t n ↔ n = m := by
  simp only [Lets, h, Value.int.injEq]
  exact eq_comm

theorem lets_of_var {t : Term} {y : Var} (h : s.walk t = .var y) {n : Int} :
    s.Lets t n ↔ ∀ d, s.stored? y = some d → n ∈ d := by
  simp only [Lets, h]

/-- A term may stand for what its open variable may. -/
theorem lets_var_walked (hs : s.Coherent I) {t : Term} {y : Var} (h : s.walk t = .var y) {n : Int} :
    s.Lets (.var y) n ↔ s.Lets t n := by
  rw [lets_of_var h, lets_of_var (hs.walk_var h)]

/-- A term may stand for what it is under an assignment that fits. -/
theorem Fits.lets (hs : s.Coherent I) {ρ : Assignment} (hρ : s.Fits ρ) {t : Term}
    (ht : t.Over I) : s.Lets t (t.eval ρ) := by
  cases hw : s.walk t with
  | val v =>
      obtain ⟨n, rfl, -⟩ := hs.walk_int (fun _ h => h) ht hw
      rw [lets_of_int hw, ← eval_walk hρ, hw, Term.eval_int]
  | var y =>
      rw [lets_of_var hw, ← eval_walk hρ, hw, Term.eval_var]
      exact fun d hd => hρ.domains y d hd

/-- A known term may stand for nothing else. -/
theorem Fits.eq_of_lets (hs : s.Coherent I) {ρ : Assignment} (hρ : s.Fits ρ) {t : Term}
    (ht : t.Over I) (hknown : (s.walk t).isVar = false) {n : Int} (h : s.Lets t n) :
    n = t.eval ρ := by
  cases hw : s.walk t with
  | val v =>
      obtain ⟨m, rfl, -⟩ := hs.walk_int (fun _ h => h) ht hw
      rw [← eval_walk hρ, hw, Term.eval_int]
      exact (lets_of_int hw).mp h
  | var y =>
      rw [hw] at hknown
      cases hknown

/-- Each value that a state lets a term have fits the state. -/
theorem Coherent.lets_iff (hs : s.Coherent I) {a : Term} (ha : a.Over I) {n : Int} :
    s.Lets a n ↔ ∃ ρ, s.Fits ρ ∧ a.eval ρ = n := by
  constructor
  · intro hlets
    obtain ⟨pick, hpick⟩ := hs.exists_pick
    cases hw : s.walk a with
    | val v =>
        obtain ⟨m, rfl, -⟩ := hs.walk_int (fun _ h => h) ha hw
        refine ⟨_, hs.fits_following hpick, ?_⟩
        rw [eval_following, hw]
        exact ((lets_of_int hw).mp hlets).symm
    | var y =>
        have hupdate : ∀ x d, s.stored? x = some d → Function.update pick y n x ∈ d := by
          intro x d hd
          by_cases hx : x = y
          · subst hx
            rw [Function.update_self]
            exact (lets_of_var hw).mp hlets d hd
          · rw [Function.update_of_ne hx]
            exact hpick x d hd
        refine ⟨_, hs.fits_following hupdate, ?_⟩
        rw [eval_following, hw]
        exact Function.update_self y n pick
  · rintro ⟨ρ, hρ, rfl⟩
    exact hρ.lets hs ha

/-- Some term of the difference is known. -/
def Knows (s : State) (c : Difference) : Prop := ∃ t ∈ c.terms, (s.walk t).isVar = false

/-- What each term of the difference stands for under the assignment goes with some values that
the other two terms may have. -/
structure Supports (s : State) (c : Difference) (ρ : Assignment) : Prop where
  minuend : ∃ n k, s.Lets c.subtrahend n ∧ s.Lets c.distance k ∧ c.minuend.eval ρ - n = k
  subtrahend : ∃ m k, s.Lets c.minuend m ∧ s.Lets c.distance k ∧ m - c.subtrahend.eval ρ = k
  distance : ∃ m n, s.Lets c.minuend m ∧ s.Lets c.subtrahend n ∧ m - n = c.distance.eval ρ

/-- A difference that holds supports itself. -/
theorem Fits.supports (hs : s.Coherent I) {ρ : Assignment} (hρ : s.Fits ρ) {c : Difference}
    (hc : s.ScopedDifference I c) (hholds : c.Holds ρ) : s.Supports c ρ := by
  have hlets : ∀ t ∈ c.terms, s.Lets t (t.eval ρ) := fun t ht => hρ.lets hs (hc t ht).isOver
  obtain ⟨ha, hb, hd⟩ := Difference.forall_terms.mp hlets
  exact ⟨⟨_, _, hb, hd, hholds⟩, ⟨_, _, ha, hd, hholds⟩, ⟨_, _, ha, hb, hholds⟩⟩

/-- With one open term at most, two terms are known. -/
theorem knows_two {c : Difference} (h : s.openTerms c < 2) :
    (s.walk c.minuend).isVar = false ∧ (s.walk c.subtrahend).isVar = false ∨
      (s.walk c.minuend).isVar = false ∧ (s.walk c.distance).isVar = false ∨
        (s.walk c.subtrahend).isVar = false ∧ (s.walk c.distance).isVar = false := by
  rw [openTerms_eq] at h
  cases ha : (s.walk c.minuend).isVar <;> cases hb : (s.walk c.subtrahend).isVar <;>
    cases hd : (s.walk c.distance).isVar <;> simp [ha, hb, hd] at h ⊢

/-- With one open term at most, support is all that a difference asks for. -/
theorem Fits.supports_iff (hs : s.Coherent I) {ρ : Assignment} (hρ : s.Fits ρ) {c : Difference}
    (hc : s.ScopedDifference I c) (hopen : s.openTerms c < 2) :
    (s.Knows c → s.Supports c ρ) ↔ c.Holds ρ := by
  refine ⟨fun h => ?_, fun h _ => hρ.supports hs hc h⟩
  have hvalue : ∀ t ∈ c.terms, (s.walk t).isVar = false → ∀ n, s.Lets t n → n = t.eval ρ :=
    fun t ht hknown n => hρ.eq_of_lets hs (hc t ht).isOver hknown
  obtain ⟨ha, hb, hd⟩ := Difference.forall_terms.mp hvalue
  -- The known terms stand for their values, so what supports the third term is the difference.
  rcases knows_two hopen with ⟨hwa, hwb⟩ | ⟨hwa, hwd⟩ | ⟨hwb, hwd⟩
  · obtain ⟨m, n, hm, hn, heq⟩ := (h ⟨_, c.minuend_mem, hwa⟩).distance
    rwa [ha hwa m hm, hb hwb n hn] at heq
  · obtain ⟨m, k, hm, hk, heq⟩ := (h ⟨_, c.minuend_mem, hwa⟩).subtrahend
    rwa [ha hwa m hm, hd hwd k hk] at heq
  · obtain ⟨n, k, hn, hk, heq⟩ := (h ⟨_, c.subtrahend_mem, hwb⟩).minuend
    rwa [hb hwb n hn, hd hwd k hk] at heq

/-- With the minuend known, support is between the other two terms. -/
theorem Fits.supports_of_minuend (hs : s.Coherent I) {ρ : Assignment} (hρ : s.Fits ρ)
    {c : Difference} (hc : s.ScopedDifference I c) {m : Int} (hm : s.walk c.minuend = .int m) :
    s.Supports c ρ ↔ s.Lets c.distance (m - c.subtrahend.eval ρ) ∧
      s.Lets c.subtrahend (m - c.distance.eval ρ) := by
  have hm' : ∀ {n}, s.Lets c.minuend n ↔ n = m := lets_of_int hm
  constructor
  · rintro ⟨-, ⟨_, k, hn, hk, heq⟩, ⟨_, n, hn', hb, heq'⟩⟩
    rw [hm'] at hn hn'
    subst hn hn'
    exact ⟨heq ▸ hk, by rwa [← heq', Int.sub_sub_self]⟩
  · rintro ⟨hd, hb⟩
    have hlets := hρ.lets hs (hc _ c.subtrahend_mem).isOver
    have hvalue : c.minuend.eval ρ = m := by rw [← eval_walk hρ, hm, Term.eval_int]
    exact ⟨⟨_, _, hlets, hd, by rw [hvalue]⟩, ⟨m, _, hm'.mpr rfl, hd, rfl⟩,
      ⟨m, _, hm'.mpr rfl, hb, Int.sub_sub_self ..⟩⟩

/-- With the subtrahend known, support is between the other two terms. -/
theorem Fits.supports_of_subtrahend (hs : s.Coherent I) {ρ : Assignment} (hρ : s.Fits ρ)
    {c : Difference} (hc : s.ScopedDifference I c) {n : Int} (hn : s.walk c.subtrahend = .int n) :
    s.Supports c ρ ↔ s.Lets c.distance (c.minuend.eval ρ - n) ∧
      s.Lets c.minuend (c.distance.eval ρ + n) := by
  have hn' : ∀ {k}, s.Lets c.subtrahend k ↔ k = n := lets_of_int hn
  constructor
  · rintro ⟨⟨_, k, hb, hk, heq⟩, -, ⟨m, _, hm, hb', heq'⟩⟩
    rw [hn'] at hb hb'
    subst hb hb'
    exact ⟨heq ▸ hk, by rwa [← heq', Int.sub_add_cancel]⟩
  · rintro ⟨hd, ha⟩
    have hlets := hρ.lets hs (hc _ c.minuend_mem).isOver
    have hvalue : c.subtrahend.eval ρ = n := by rw [← eval_walk hρ, hn, Term.eval_int]
    exact ⟨⟨n, _, hn'.mpr rfl, hd, rfl⟩, ⟨_, _, hlets, hd, by rw [hvalue]⟩,
      ⟨_, n, ha, hn'.mpr rfl, Int.add_sub_cancel ..⟩⟩

/-- With the distance known, support is between the other two terms. -/
theorem Fits.supports_of_distance (hs : s.Coherent I) {ρ : Assignment} (hρ : s.Fits ρ)
    {c : Difference} (hc : s.ScopedDifference I c) {k : Int} (hk : s.walk c.distance = .int k) :
    s.Supports c ρ ↔ s.Lets c.subtrahend (c.minuend.eval ρ - k) ∧
      s.Lets c.minuend (c.subtrahend.eval ρ + k) := by
  have hk' : ∀ {n}, s.Lets c.distance n ↔ n = k := lets_of_int hk
  constructor
  · rintro ⟨⟨n, _, hb, hd, heq⟩, ⟨m, _, ha, hd', heq'⟩, -⟩
    rw [hk'] at hd hd'
    subst hd hd'
    exact ⟨by rwa [← heq, Int.sub_sub_self], by rwa [← heq', Int.add_comm, Int.sub_add_cancel]⟩
  · rintro ⟨hb, ha⟩
    have hlets := hρ.lets hs (hc _ c.minuend_mem).isOver
    have hvalue : c.distance.eval ρ = k := by rw [← eval_walk hρ, hk, Term.eval_int]
    exact ⟨⟨_, k, hb, hk'.mpr rfl, Int.sub_sub_self ..⟩,
      ⟨_, k, ha, hk'.mpr rfl, by omega⟩,
      ⟨_, _, hlets, hb, by rw [hvalue, Int.sub_sub_self]⟩⟩

/-! ## Outcomes of settling -/

/-- What settling a difference takes in: with a term known, exactly the assignments that have
support.  The difference is done unless two of its terms are open. -/
def SettlesExactly (I : Int → Prop) (s : State) (c : Difference) :
    Except Failure (State × Bool) → Prop
  | .ok (t, done) =>
    Steps I s t ∧ (∀ ρ, t.Fits ρ ↔ s.Fits ρ ∧ (s.Knows c → s.Supports c ρ)) ∧
      (done = false ↔ 2 ≤ s.openTerms c)
  | .error f => f.Blocked (Derived I) ∧ ∀ ρ, s.Fits ρ → ¬ (s.Knows c → s.Supports c ρ)

theorem Yields.settles {c : Difference} {P : Assignment → Prop} {r : Except Failure State}
    (h : Yields I s P r) {done : Bool}
    (hP : ∀ ρ, s.Fits ρ → (P ρ ↔ (s.Knows c → s.Supports c ρ)))
    (hdone : done = false ↔ 2 ≤ s.openTerms c) :
    SettlesExactly I s c (r >>= fun t => pure (t, done)) := by
  have hexact := h.congr hP
  cases r with
  | error f => exact hexact
  | ok t => exact ⟨hexact.1, hexact.2, hdone⟩

/-- What settling a difference gives: it is done and taken in, or it waits with at least two
open terms and nothing but consequences of it are taken in. -/
def Settles (I : Int → Prop) (s : State) (c : Difference) : Except Failure (State × Bool) → Prop
  | .ok (t, done) =>
    Steps I s t ∧ (∀ ρ, (t.Fits ρ ∧ (done = false → c.Holds ρ)) ↔ s.Fits ρ ∧ c.Holds ρ) ∧
      (done = false → 2 ≤ s.openTerms c)
  | .error f => f.Blocked (Derived I) ∧ ∀ ρ, s.Fits ρ → ¬ c.Holds ρ

/-- Support is a consequence of the difference, and all of it if the difference is done. -/
theorem SettlesExactly.settles (hs : s.Coherent I) {c : Difference}
    (hc : s.ScopedDifference I c) {r : Except Failure (State × Bool)}
    (h : SettlesExactly I s c r) : Settles I s c r := by
  cases r with
  | error f => exact ⟨h.1, fun ρ hρ hholds => h.2 ρ hρ fun _ => hρ.supports hs hc hholds⟩
  | ok result =>
      obtain ⟨t, done⟩ := result
      obtain ⟨ht, hfits, hdone⟩ := h
      refine ⟨ht, fun ρ => ⟨?_, ?_⟩, hdone.mp⟩
      · rintro ⟨htρ, hwaits⟩
        obtain ⟨hρ, hsupports⟩ := (hfits ρ).mp htρ
        refine ⟨hρ, ?_⟩
        cases done with
        | false => exact hwaits rfl
        | true =>
            have hopen : s.openTerms c < 2 := Nat.lt_of_not_le fun htwo => nomatch hdone.mpr htwo
            exact (hρ.supports_iff hs hc hopen).mp hsupports
      · rintro ⟨hρ, hholds⟩
        exact ⟨(hfits ρ).mpr ⟨hρ, fun _ => hρ.supports hs hc hholds⟩, fun _ => hholds⟩

/-- Narrowing a term to a moved domain, if there is one. -/
theorem narrowTo_yields (hs : s.Coherent I) {t : Term} (ht : s.Scoped I t)
    {source : Option Domain} {move : Domain → Except Failure Domain}
    (hmove : ∀ e, source = some e → ∃ m, move e = .ok m ∧ m.Over (Derived I)) :
    Yields I s (fun ρ => ∀ e m, source = some e → move e = .ok m → t.eval ρ ∈ m)
      (s.narrowTo t source move) := by
  cases source with
  | none => exact yields_self fun ρ _ => nofun
  | some e =>
      obtain ⟨m, hm, hover⟩ := hmove e rfl
      have hsupplies : Closed I → s.Supplies I (.domain m) := fun hI =>
        ⟨⟨hover.integral, fun n hn => hI n (hover.mem n hn)⟩, nofun⟩
      have hnarrow : Yields I s (s.Restricts t (.domain m)) (s.narrow t (.domain m)) :=
        narrow_yields hs ht.isOver hover (ht.confined.imp hsupplies id)
      simp only [narrowTo, hm]
      refine hnarrow.congr fun ρ _ => ⟨fun h e' m' he' hm' => ?_, fun h => ⟨h e m rfl hm, nofun⟩⟩
      cases he'
      cases hm.symm.trans hm'
      exact h.1

end State

/-- Domains over a set are moved to the integers that a function takes into them. -/
def Domain.Moves (I : Int → Prop) (move : Domain → Except Failure Domain) (f : Int → Int) : Prop :=
  ∀ e : Domain, e.Over I →
    ∃ m, move e = .ok m ∧ m.Over (Derived I) ∧ ∀ n : Int, n ∈ m ↔ f n ∈ e

/-- Domains moved up by an integer. -/
theorem Domain.moves_shift {I : Int → Prop} {k : Int} (hk : I k) :
    Moves I (fun e => e.shift (.int k)) fun n => n - k := by
  intro e he
  obtain ⟨m, hm, hint, hmem⟩ := Domain.shift_spec he.integral k
  refine ⟨m, hm, ⟨hint, fun n hn => ?_⟩, hmem⟩
  have := Derived.add (he.mem _ ((hmem n).mp hn)) hk
  rwa [Int.sub_add_cancel] at this

/-- Domains moved down by an integer. -/
theorem Domain.moves_unshift {I : Int → Prop} {k : Int} (hk : I k) :
    Moves I (fun e => e.shift (.int (-k))) fun n => n + k := by
  intro e he
  obtain ⟨m, hm, hint, hmem⟩ := Domain.shift_spec he.integral (-k)
  have hmem' : ∀ n : Int, n ∈ m ↔ n + k ∈ e := fun n => by rw [hmem n, Int.sub_neg]
  refine ⟨m, hm, ⟨hint, fun n hn => ?_⟩, hmem'⟩
  have := Derived.sub (he.mem _ ((hmem' n).mp hn)) hk
  rwa [Int.add_sub_cancel] at this

/-- Domains taken away from an integer. -/
theorem Domain.moves_reflect {I : Int → Prop} {p : Int} (hp : I p) :
    Moves I (fun e => e.reflect (.int p)) fun n => p - n := by
  intro e he
  obtain ⟨m, hm, hint, hmem⟩ := Domain.reflect_spec he.integral p
  refine ⟨m, hm, ⟨hint, fun n hn => ?_⟩, hmem⟩
  have := Derived.sub hp (he.mem _ ((hmem n).mp hn))
  rwa [Int.sub_sub_self] at this

namespace State

variable {I : Int → Prop} {s : State}

/-! ## Rules -/

theorem Scoped.walk (hs : s.Coherent I) {t : Term} (ht : s.Scoped I t) :
    s.Scoped I (s.walk t) := by
  refine ⟨hs.walk_over (fun _ h => h) ht.isOver, ht.confined.imp id fun h y hy => h y ?_⟩
  rwa [hs.walk_walk] at hy

theorem domain?_over (hs : s.Coherent I) {t : Term} {e : Domain} (h : s.domain? t = some e) :
    e.Over I := by
  unfold domain? at h
  split at h
  next x _ => exact hs.domains x e h
  next => cases h

/-- The domain of a term can be moved. -/
theorem domain?_moves (hs : s.Coherent I) {move : Domain → Except Failure Domain} {f : Int → Int}
    (hmove : Domain.Moves I move f) (t : Term) :
    ∀ e, s.domain? t = some e → ∃ m, move e = .ok m ∧ m.Over (Derived I) := by
  intro e he
  obtain ⟨m, hm, hover, -⟩ := hmove e (domain?_over hs he)
  exact ⟨m, hm, hover⟩

/-- What settling a difference comes to, by which of its terms are known.  The known ones are
integers of a set.  Both domains are read before the first term is narrowed. -/
inductive SettleCases (I : Int → Prop) (s : State) (c : Difference) :
    Except Failure (State × Bool) → Prop where
  | allKnown {m n k : Int} (minuend : s.walk c.minuend = .int m)
      (subtrahend : s.walk c.subtrahend = .int n) (distance : s.walk c.distance = .int k)
      (left : I m) (right : I n) (apart : I k) :
      SettleCases I s c (if (Value.int (m - n)).equal (.int k) then pure (s, true)
        else Failure.raise (.deadEnd (.wrongDifference (.int m) (.int n) (.int k))))
  | openMinuend {x : Var} {n k : Int} (minuend : s.walk c.minuend = .var x)
      (subtrahend : s.walk c.subtrahend = .int n) (distance : s.walk c.distance = .int k)
      (right : I n) (apart : I k) :
      SettleCases I s c (s.equate (.var x) (.int (n + k)) >>= fun t => pure (t, true))
  | openSubtrahend {y : Var} {m k : Int} (minuend : s.walk c.minuend = .int m)
      (subtrahend : s.walk c.subtrahend = .var y) (distance : s.walk c.distance = .int k)
      (left : I m) (apart : I k) :
      SettleCases I s c (s.equate (.var y) (.int (m - k)) >>= fun t => pure (t, true))
  | openDistance {z : Var} {m n : Int} (minuend : s.walk c.minuend = .int m)
      (subtrahend : s.walk c.subtrahend = .int n) (distance : s.walk c.distance = .var z)
      (left : I m) (right : I n) :
      SettleCases I s c (s.equate (.var z) (.int (m - n)) >>= fun t => pure (t, true))
  | knownMinuend {m : Int} {y z : Var} (minuend : s.walk c.minuend = .int m)
      (subtrahend : s.walk c.subtrahend = .var y) (distance : s.walk c.distance = .var z)
      (left : I m) :
      SettleCases I s c
        (s.narrowTo (.var y) (s.domain? (.var z)) (fun e => e.reflect (.int m)) >>= fun t =>
          t.narrowTo (.var z) (s.domain? (.var y)) (fun e => e.reflect (.int m)) >>= fun t =>
            pure (t, false))
  | knownSubtrahend {x z : Var} {n : Int} (minuend : s.walk c.minuend = .var x)
      (subtrahend : s.walk c.subtrahend = .int n) (distance : s.walk c.distance = .var z)
      (right : I n) :
      SettleCases I s c
        (s.narrowTo (.var x) (s.domain? (.var z)) (fun e => e.shift (.int n)) >>= fun t =>
          t.narrowTo (.var z) (s.domain? (.var x)) (fun e => e.shift (.int (-n))) >>= fun t =>
            pure (t, false))
  | knownDistance {x y : Var} {k : Int} (minuend : s.walk c.minuend = .var x)
      (subtrahend : s.walk c.subtrahend = .var y) (distance : s.walk c.distance = .int k)
      (apart : I k) :
      SettleCases I s c
        (s.narrowTo (.var x) (s.domain? (.var y)) (fun e => e.shift (.int k)) >>= fun t =>
          t.narrowTo (.var y) (s.domain? (.var x)) (fun e => e.shift (.int (-k))) >>= fun t =>
            pure (t, false))
  | allOpen {x y z : Var} (minuend : s.walk c.minuend = .var x)
      (subtrahend : s.walk c.subtrahend = .var y) (distance : s.walk c.distance = .var z) :
      SettleCases I s c (.ok (s, false))

theorem settle_cases {c : Difference}
    (h : ∀ t ∈ c.terms, ∀ v, s.walk t = .val v → ∃ n : Int, v = .int n ∧ I n) :
    SettleCases I s c (s.settle c) := by
  obtain ⟨ha, hb, hd⟩ := Difference.forall_terms.mp h
  cases hwa : s.walk c.minuend with
  | val u =>
      obtain ⟨m, rfl, hm⟩ := ha u hwa
      cases hwb : s.walk c.subtrahend with
      | val v =>
          obtain ⟨n, rfl, hn⟩ := hb v hwb
          cases hwd : s.walk c.distance with
          | val w =>
              obtain ⟨k, rfl, hk⟩ := hd w hwd
              simp only [settle, hwa, hwb, hwd, Value.sub_int]
              exact .allKnown hwa hwb hwd hm hn hk
          | var z =>
              simp only [settle, hwa, hwb, hwd, Value.sub_int]
              exact .openDistance hwa hwb hwd hm hn
      | var y =>
          cases hwd : s.walk c.distance with
          | val w =>
              obtain ⟨k, rfl, hk⟩ := hd w hwd
              simp only [settle, hwa, hwb, hwd, Value.sub_int]
              exact .openSubtrahend hwa hwb hwd hm hk
          | var z =>
              simp only [settle, hwa, hwb, hwd]
              exact .knownMinuend hwa hwb hwd hm
  | var x =>
      cases hwb : s.walk c.subtrahend with
      | val v =>
          obtain ⟨n, rfl, hn⟩ := hb v hwb
          cases hwd : s.walk c.distance with
          | val w =>
              obtain ⟨k, rfl, hk⟩ := hd w hwd
              simp only [settle, hwa, hwb, hwd, Value.add_int]
              exact .openMinuend hwa hwb hwd hn hk
          | var z =>
              simp only [settle, hwa, hwb, hwd, Value.neg_int]
              exact .knownSubtrahend hwa hwb hwd hn
      | var y =>
          cases hwd : s.walk c.distance with
          | val w =>
              obtain ⟨k, rfl, hk⟩ := hd w hwd
              simp only [settle, hwa, hwb, hwd, Value.neg_int]
              exact .knownDistance hwa hwb hwd hk
          | var z =>
              simp only [settle, hwa, hwb, hwd]
              exact .allOpen hwa hwb hwd

theorem ScopedDifference.cases (hs : s.Coherent I) {c : Difference}
    (hc : s.ScopedDifference I c) : SettleCases I s c (s.settle c) :=
  settle_cases fun t ht _ => hs.walk_int (fun _ h => h) (hc t ht).isOver

/-- The rule that settles a difference, with what it is applied to. -/
inductive Rule (I : Int → Prop) (s : State) (c : Difference) :
    Except Failure (State × Bool) → Prop where
  /-- Three known terms are compared. -/
  | known {m n k : Int} (count : s.openTerms c = 0) (minuend : Derived I m)
      (subtrahend : Derived I n) (distance : Derived I k)
      (holds : ∀ ρ, s.Fits ρ → (m - n = k ↔ c.Holds ρ)) :
      Rule I s c (if (Value.int (m - n)).equal (.int k) then pure (s, true)
        else Failure.raise (.deadEnd (.wrongDifference (.int m) (.int n) (.int k))))
  /-- The one open term is worked out. -/
  | derived {t : Term} {n : Int} (count : s.openTerms c = 1) (among : t ∈ c.terms.map s.walk)
      (isScoped : s.Scoped I t) (value : Derived I n)
      (holds : ∀ ρ, s.Fits ρ → (t.eval ρ = n ↔ c.Holds ρ)) :
      Rule I s c (s.equate t (.val (.int n)) >>= fun u => pure (u, true))
  /-- Two open terms are narrowed, each to what the domain of the other one leaves it.  Both
  domains are read before the first term is narrowed. -/
  | narrowed {x y : Var} {moveX moveY : Domain → Except Failure Domain} {f g : Int → Int}
      (count : 2 ≤ s.openTerms c) (among : [.var x, .var y] ⊆ c.terms.map s.walk)
      (scopedX : s.Scoped I (.var x)) (scopedY : s.Scoped I (.var y))
      (openX : s.walk (.var x) = .var x) (openY : s.walk (.var y) = .var y)
      (movesX : Domain.Moves I moveX f) (movesY : Domain.Moves I moveY g)
      (supports : ∀ ρ, s.Fits ρ →
        (s.Lets (.var y) (f (ρ x)) ∧ s.Lets (.var x) (g (ρ y)) ↔ (s.Knows c → s.Supports c ρ))) :
      Rule I s c (s.narrowTo (.var x) (s.domain? (.var y)) moveX >>= fun t =>
        t.narrowTo (.var y) (s.domain? (.var x)) moveY >>= fun t => pure (t, false))
  /-- Three open terms wait. -/
  | waits (count : 2 ≤ s.openTerms c) (unknown : ¬ s.Knows c) : Rule I s c (.ok (s, false))

/-- A difference is settled by one of the rules. -/
theorem settle_rule (hs : s.Coherent I) {c : Difference} (hc : s.ScopedDifference I c) :
    Rule I s c (s.settle c) := by
  have hcases := hc.cases hs
  obtain ⟨ha, hb, hd⟩ := Difference.forall_terms.mp fun t ht => (hc t ht).walk hs
  have hvar : ∀ ρ, s.Fits ρ → ∀ {t y}, s.walk t = .var y → ρ y = t.eval ρ := by
    intro ρ hρ t y hw
    rw [← eval_walk hρ, hw, Term.eval_var]
  have hholds : ∀ ρ, s.Fits ρ → ((s.walk c.minuend).eval ρ - (s.walk c.subtrahend).eval ρ =
      (s.walk c.distance).eval ρ ↔ c.Holds ρ) :=
    fun ρ hρ => by rw [eval_walk hρ, eval_walk hρ, eval_walk hρ, Difference.Holds]
  have hterms : c.terms.map s.walk =
      [s.walk c.minuend, s.walk c.subtrahend, s.walk c.distance] := rfl
  have hknows : ∀ t ∈ c.terms, ∀ n, s.walk t = .int n → s.Knows c := fun t ht n hw =>
    ⟨t, ht, by rw [hw]; rfl⟩
  generalize s.settle c = r at hcases ⊢
  cases hcases with
  | allKnown hm hn hk left right apart =>
      simp only [hm, hn, hk, Term.eval_int] at hholds
      exact .known (by rw [openTerms_eq, hm, hn, hk]; rfl) (.same left) (.same right) (.same apart)
        hholds
  | openMinuend hx hn hk right apart =>
      simp only [hx, hn, hk, Term.eval_int] at hholds ha
      refine .derived (by rw [openTerms_eq, hx, hn, hk]; rfl) (by simp [hterms, hx]) ha
        (.add right apart) fun ρ hρ => ?_
      refine Iff.trans ?_ (hholds ρ hρ)
      omega
  | openSubtrahend hm hy hk left apart =>
      simp only [hm, hy, hk, Term.eval_int] at hholds hb
      refine .derived (by rw [openTerms_eq, hm, hy, hk]; rfl) (by simp [hterms, hy]) hb
        (.sub left apart) fun ρ hρ => ?_
      refine Iff.trans ?_ (hholds ρ hρ)
      omega
  | openDistance hm hn hz left right =>
      simp only [hm, hn, hz, Term.eval_int] at hholds hd
      refine .derived (by rw [openTerms_eq, hm, hn, hz]; rfl) (by simp [hterms, hz]) hd
        (.sub left right) fun ρ hρ => ?_
      exact eq_comm.trans (hholds ρ hρ)
  | knownMinuend hm hy hz left =>
      rw [hy] at hb
      rw [hz] at hd
      refine .narrowed (by rw [openTerms_eq, hm, hy, hz]; rfl) (by simp [hterms, hy, hz]) hb hd
        (hs.walk_var hy) (hs.walk_var hz) (Domain.moves_reflect left) (Domain.moves_reflect left)
        fun ρ hρ => ?_
      rw [lets_var_walked hs hy, lets_var_walked hs hz, hvar ρ hρ hy, hvar ρ hρ hz]
      exact (hρ.supports_of_minuend hs hc hm).symm.trans
        (imp_iff_right (hknows _ c.minuend_mem _ hm)).symm
  | knownSubtrahend hx hn hz right =>
      rw [hx] at ha
      rw [hz] at hd
      refine .narrowed (by rw [openTerms_eq, hx, hn, hz]; rfl) (by simp [hterms, hx, hz]) ha hd
        (hs.walk_var hx) (hs.walk_var hz) (Domain.moves_shift right) (Domain.moves_unshift right)
        fun ρ hρ => ?_
      rw [lets_var_walked hs hx, lets_var_walked hs hz, hvar ρ hρ hx, hvar ρ hρ hz]
      exact (hρ.supports_of_subtrahend hs hc hn).symm.trans
        (imp_iff_right (hknows _ c.subtrahend_mem _ hn)).symm
  | knownDistance hx hy hk apart =>
      rw [hx] at ha
      rw [hy] at hb
      refine .narrowed (by rw [openTerms_eq, hx, hy, hk]; rfl) (by simp [hterms, hx, hy]) ha hb
        (hs.walk_var hx) (hs.walk_var hy) (Domain.moves_shift apart) (Domain.moves_unshift apart)
        fun ρ hρ => ?_
      rw [lets_var_walked hs hx, lets_var_walked hs hy, hvar ρ hρ hx, hvar ρ hρ hy]
      exact (hρ.supports_of_distance hs hc hk).symm.trans
        (imp_iff_right (hknows _ c.distance_mem _ hk)).symm
  | allOpen hx hy hz =>
      have hunknown : ¬ s.Knows c := by
        simp [Knows, Difference.terms, hx, hy, hz, Term.isVar]
      have hthree : s.openTerms c = 3 := by
        rw [openTerms_eq, hx, hy, hz]
        rfl
      exact .waits (hthree ▸ Nat.le_succ 2) hunknown

/-! ## What the rules take in -/

/-- To lie in the moved domain of a variable is to be moved to what is left to it. -/
theorem lets_moved (hs : s.Coherent I) {x : Var} (hx : s.walk (.var x) = .var x)
    {move : Domain → Except Failure Domain} {f : Int → Int} (hmove : Domain.Moves I move f)
    (n : Int) :
    (∀ e m, s.domain? (.var x) = some e → move e = .ok m → n ∈ m) ↔ s.Lets (.var x) (f n) := by
  rw [lets_of_var hx, domain?, hx]
  constructor
  · intro hin e he
    obtain ⟨m, hm, -, hmem⟩ := hmove e (hs.domains x e he)
    exact (hmem n).mp (hin e m he hm)
  · intro hin e m he hm
    obtain ⟨m', hm', -, hmem⟩ := hmove e (hs.domains x e he)
    cases hm'.symm.trans hm
    exact (hmem n).mpr (hin e he)

/-- A rule takes in what the known terms support. -/
theorem Rule.exact (hs : s.Coherent I) {c : Difference} (hc : s.ScopedDifference I c)
    {r : Except Failure (State × Bool)} (h : Rule I s c r) : SettlesExactly I s c r := by
  cases h with
  | @known m n k count minuend subtrahend distance holds =>
      have hfew : s.openTerms c < 2 := by omega
      rw [Value.equal_int]
      by_cases heq : m - n = k
      · rw [if_pos (beq_iff_eq.mpr heq)]
        refine (yields_self fun ρ hρ => (holds ρ hρ).mp heq).settles
          (fun ρ hρ => (hρ.supports_iff hs hc hfew).symm) ?_
        simp only [Bool.true_eq_false, false_iff]
        omega
      · rw [if_neg (fun hb => heq (beq_iff_eq.mp hb))]
        refine ⟨Failure.blocked_deadEnd fun sh hsh => ?_, fun ρ hρ hsupports => heq ?_⟩
        · simp only [DeadEnd.shown, List.mem_cons, List.not_mem_nil, or_false] at hsh
          rcases hsh with rfl | rfl | rfl
          · exact ⟨m, rfl, minuend⟩
          · exact ⟨n, rfl, subtrahend⟩
          · exact ⟨k, rfl, distance⟩
        · exact (holds ρ hρ).mpr ((hρ.supports_iff hs hc hfew).mp hsupports)
  | @derived t n count among isScoped value holds =>
      have hfew : s.openTerms c < 2 := by omega
      have hequate := equate_yields hs (isScoped.isOver.mono fun _ => .same) (Term.over_int value)
        (isScoped.confined.imp (fun hI => Term.over_int (hI n value)) id) (.inl isScoped.isOver)
      refine hequate.settles (fun ρ hρ => ?_) ?_
      · exact (holds ρ hρ).trans (hρ.supports_iff hs hc hfew).symm
      · simp only [Bool.true_eq_false, false_iff]
        omega
  | @narrowed x y moveX moveY f g count among scopedX scopedY openX openY movesX movesY supports =>
      have hboth := (narrowTo_yields hs scopedX (domain?_moves hs movesX (.var y))).andThen
        fun t ht => narrowTo_yields (ht.coherent hs) (scopedY.steps ht)
          (domain?_moves hs movesY (.var x))
      rw [← bind_assoc]
      refine hboth.settles (fun ρ hρ => Iff.trans ?_ (supports ρ hρ)) (iff_of_true rfl count)
      exact and_congr (lets_moved hs openY movesX (ρ x)) (lets_moved hs openX movesY (ρ y))
  | waits count unknown =>
      exact (yields_self fun _ _ => trivial : Yields I s (fun _ => True) (.ok s)).settles
        (fun _ _ => iff_of_true trivial fun h => absurd h unknown) (iff_of_true rfl count)

/-- Settling a difference takes in what its known terms support. -/
theorem settle_exact (hs : s.Coherent I) {c : Difference} (hc : s.ScopedDifference I c) :
    SettlesExactly I s c (s.settle c) :=
  (settle_rule hs hc).exact hs hc

/-- Settling a difference loses no assignment that satisfies it, and makes none up unless the
difference waits. -/
theorem settle_spec (hs : s.Coherent I) {c : Difference} (hc : s.ScopedDifference I c) :
    Settles I s c (s.settle c) :=
  (settle_exact hs hc).settles hs hc

end State

end Consonance
