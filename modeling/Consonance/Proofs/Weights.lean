import Consonance.Proofs.Posting
import Mathlib.Algebra.BigOperators.Ring.List
import Mathlib.Algebra.Ring.Nat

/-!
# How often a goal finds an assignment

A goal may come to an assignment on several branches.  What is counted here is on how many:
a goal *weighs* `m` when it takes each state that has an assignment `ρ` to exactly `m ρ`
states that have it, and a state that does not have it to none (`Goal.Weighs`).  What it
is for a state to have an assignment is left open (`has`).

Weights multiply along a conjunction and add up over a disjunction, so they do not depend on
the order in which goals are put.  `Goal.Weighs` also says what holds of the states that a
goal is run on and of those that it comes to, as a specification does.
-/

namespace Consonance

open Classical in
/-- One for the assignments with a property, and zero for the others. -/
noncomputable def once (P : Assignment → Prop) (ρ : Assignment) : Nat := if P ρ then 1 else 0

theorem once_of {P : Assignment → Prop} {ρ : Assignment} (h : P ρ) : once P ρ = 1 := if_pos h

theorem once_of_not {P : Assignment → Prop} {ρ : Assignment} (h : ¬ P ρ) : once P ρ = 0 := if_neg h

theorem once_congr {P Q : Assignment → Prop} {ρ : Assignment} (h : P ρ ↔ Q ρ) :
    once P ρ = once Q ρ := by
  unfold once
  rw [h]

theorem once_mul_once (P Q : Assignment → Prop) (ρ : Assignment) :
    once P ρ * once Q ρ = once (fun ρ => P ρ ∧ Q ρ) ρ := by
  by_cases hP : P ρ <;> by_cases hQ : Q ρ <;> simp [once, hP, hQ]

theorem once_add_once {P Q : Assignment → Prop} {ρ : Assignment} (h : ¬ (P ρ ∧ Q ρ)) :
    once P ρ + once Q ρ = once (fun ρ => P ρ ∨ Q ρ) ρ := by
  by_cases hP : P ρ
  · have hQ : ¬ Q ρ := fun hQ => h ⟨hP, hQ⟩
    have hor : P ρ ∨ Q ρ := .inl hP
    rw [once_of hP, once_of_not hQ, once_of hor]
  · rw [once_of_not hP, Nat.zero_add]
    exact once_congr ⟨.inr, fun hor => hor.resolve_left hP⟩

/-- Properties that exclude one another are counted together. -/
theorem sum_once {α : Type} {vs : List α} {P : α → Assignment → Prop} {ρ : Assignment}
    (h : vs.Pairwise fun v w => ¬ (P v ρ ∧ P w ρ)) :
    (vs.map fun v => once (P v) ρ).sum = once (fun ρ => ∃ v ∈ vs, P v ρ) ρ := by
  induction vs with
  | nil => exact (once_of_not (P := fun ρ => ∃ v ∈ [], P v ρ) nofun).symm
  | cons v rest ih =>
      obtain ⟨hv, hrest⟩ := List.pairwise_cons.mp h
      rw [List.map_cons, List.sum_cons, ih hrest]
      by_cases hP : P v ρ
      · have hnone : ¬ ∃ w ∈ rest, P w ρ := fun ⟨w, hw, hPw⟩ => hv w hw ⟨hP, hPw⟩
        have hsome : ∃ w ∈ v :: rest, P w ρ := ⟨v, List.mem_cons_self .., hP⟩
        rw [once_of hP, once_of_not hnone, once_of hsome]
      · rw [once_of_not hP, Nat.zero_add]
        refine once_congr ?_
        simp only [List.exists_mem_cons_iff, hP, false_or]

/-! ## Counting states -/

variable {has : State → Assignment → Prop}

open Classical in
/-- The number of states that have an assignment. -/
noncomputable def tally (has : State → Assignment → Prop) (ts : List State) (ρ : Assignment) :
    Nat := ts.countP fun t => has t ρ

@[simp] theorem tally_nil (ρ : Assignment) : tally has [] ρ = 0 := rfl

theorem tally_cons (t : State) (ts : List State) (ρ : Assignment) :
    tally has (t :: ts) ρ = once (has t) ρ + tally has ts ρ := by
  unfold tally once
  rw [List.countP_cons, Nat.add_comm]
  by_cases h : has t ρ <;> simp [h]

theorem tally_append (ts us : List State) (ρ : Assignment) :
    tally has (ts ++ us) ρ = tally has ts ρ + tally has us ρ := List.countP_append

/-- Each state is replaced by some number of states that have what it has. -/
theorem tally_flatten {m : Assignment → Nat} {ρ : Assignment} {ts : List State}
    {uss : List (List State)}
    (h : List.Forall₂ (fun t us => ∀ ρ, tally has us ρ = once (has t) ρ * m ρ) ts uss) :
    tally has uss.flatten ρ = tally has ts ρ * m ρ := by
  induction h with
  | nil => simp
  | cons hfirst _ ih =>
      rw [List.flatten_cons, tally_append, tally_cons, hfirst ρ, ih, Nat.add_mul]

/-- The outcome of an operation: a state that has the assignments of the old one with a property,
or a failure of the branch if the old one has none of them. -/
def State.Finds (J : Int → Prop) (has : State → Assignment → Prop) (s : State)
    (P : Assignment → Prop) (T : State → Prop) : Except Failure State → Prop
  | .ok t => T t ∧ ∀ ρ, has t ρ ↔ has s ρ ∧ P ρ
  | .error f => f.Blocked J ∧ ∀ ρ, has s ρ → ¬ P ρ

theorem State.Finds.mono {J : Int → Prop} {s : State} {P : Assignment → Prop}
    {T T' : State → Prop} {r : Except Failure State} (h : s.Finds J has P T r)
    (hT : ∀ t, T t → T' t) : s.Finds J has P T' r := by
  cases r with
  | ok t => exact ⟨hT t h.1, h.2⟩
  | error f => exact h

namespace Goal

variable {J : Int → Prop} {S S' T T' R : State → Prop} {m m' n : Assignment → Nat} {g : Goal}
  {gs : List Goal}

/-- From a state with one property the goal comes to states with another one, and finds each
assignment of the state as often as its weight says.  It fails only if an integer is too long
to be written. -/
def Weighs (J : Int → Prop) (has : State → Assignment → Prop) (S : State → Prop) (g : Goal)
    (T : State → Prop) (m : Assignment → Nat) : Prop :=
  ∀ s, S s → (g s).Gives (Failure.Unwritable J) T
    fun ts => ∀ ρ, tally has ts ρ = once (has s) ρ * m ρ

/-! ## Rules -/

theorem Weighs.mono (h : Weighs J has S g T m) (hS : ∀ s, S' s → S s) (hT : ∀ t, T t → T' t) :
    Weighs J has S' g T' m := fun s hs =>
  have hgives := h s (hS s hs)
  ⟨fun t ht => hT t (hgives.each t ht), hgives.together, hgives.failure⟩

/-- What holds whatever the state is still holds afterwards. -/
theorem Weighs.frame {Q : Prop} (h : Q → Weighs J has S g T m) :
    Weighs J has (fun s => S s ∧ Q) g (fun t => T t ∧ Q) m := by
  rintro s ⟨hs, hQ⟩
  exact (h hQ).mono (fun s hs => hs) (fun t ht => ⟨ht, hQ⟩) s hs

/-- Only the weights of assignments that a state has count. -/
theorem Weighs.congr (h : Weighs J has S g T m) (hm : ∀ s, S s → ∀ ρ, has s ρ → m ρ = m' ρ) :
    Weighs J has S g T m' := by
  intro s hs
  refine (h s hs).mono fun ts hts ρ => (hts ρ).trans ?_
  by_cases hρ : has s ρ
  · rw [hm s hs ρ hρ]
  · rw [once_of_not hρ, Nat.zero_mul, Nat.zero_mul]

theorem succeed_weighs : Weighs J has S succeed S fun _ => 1 := by
  intro s hs
  refine Answers.gives_one hs fun ρ => ?_
  rw [tally_cons, tally_nil, Nat.mul_one]
  rfl

theorem fail_weighs : Weighs J has S fail T fun _ => 0 :=
  fun _ _ => Answers.gives_done fun _ => rfl

/-- Weights multiply when goals are run one after the other. -/
theorem conjoin_cons_weighs (hg : Weighs J has S g T m) (hgs : Weighs J has T (conjoin gs) R n) :
    Weighs J has S (conjoin (g :: gs)) R fun ρ => m ρ * n ρ := by
  intro s hs
  rw [conjoin_cons]
  refine ((hg s hs).bind hgs).mono fun l hl ρ => ?_
  obtain ⟨ts, uss, hts, huss, rfl⟩ := hl
  rw [tally_flatten huss, hts ρ, Nat.mul_assoc]

/-- Weights add up over alternatives. -/
theorem disjoin_cons_weighs (hg : Weighs J has S g T m) (hgs : Weighs J has S (disjoin gs) T n) :
    Weighs J has S (disjoin (g :: gs)) T fun ρ => m ρ + n ρ := by
  intro s hs
  refine ((hg s hs).append (hgs s hs)).mono fun l hl ρ => ?_
  obtain ⟨ts, us, hts, hus, rfl⟩ := hl
  rw [tally_append, hts ρ, hus ρ, Nat.mul_add]

theorem disjoin_single_weighs (hg : Weighs J has S g T m) : Weighs J has S (disjoin [g]) T m :=
  disjoin_cons_weighs (n := fun _ => 0) hg fail_weighs

theorem disjoin_map_weighs {α : Type} {vs : List α} {k : α → Goal} {w : α → Assignment → Nat}
    (h : ∀ v ∈ vs, Weighs J has S (k v) T (w v)) :
    Weighs J has S (disjoin (vs.map k)) T fun ρ => (vs.map fun v => w v ρ).sum := by
  induction vs with
  | nil => exact fail_weighs
  | cons v rest ih =>
      obtain ⟨hv, hrest⟩ := List.forall_mem_cons.mp h
      exact disjoin_cons_weighs hv (ih hrest)

theorem conjoin_single_weighs (hg : Weighs J has S g T m) : Weighs J has S (conjoin [g]) T m := by
  refine (conjoin_cons_weighs hg succeed_weighs).congr fun s _ ρ _ => ?_
  rw [Nat.mul_one]

/-- A goal weighs what it weighs on every single state. -/
theorem weighs_of_forall (h : ∀ s, S s → Weighs J has (· = s) g T m) : Weighs J has S g T m :=
  fun s hs => h s hs s rfl

/-- Only what a goal makes of the state counts. -/
theorem weighs_at {s : State} {h : Goal} (hgh : g s = h s) (hh : Weighs J has (· = s) h T m) :
    Weighs J has (· = s) g T m := by
  rintro _ rfl
  rw [hgh]
  exact hh _ rfl

/-- What is made in a state: a goal of a weight, or a failure that has to do with an integer too
long to be written. -/
def Makes (J : Int → Prop) (has : State → Assignment → Prop) (s : State) (T : State → Prop)
    (m : Assignment → Nat) : Except Failure Goal → Prop
  | .ok g => Weighs J has (· = s) g T m
  | .error f => f.Unwritable J

theorem Makes.congr {s : State} {r : Except Failure Goal} (h : Makes J has s T m r)
    (hm : ∀ ρ, has s ρ → m ρ = m' ρ) : Makes J has s T m' r := by
  cases r with
  | ok g => exact Weighs.congr h fun t ht ρ hρ => hm ρ (ht ▸ hρ)
  | error f => exact h

theorem Makes.mono {s : State} {r : Except Failure Goal} (h : Makes J has s T m r)
    (hT : ∀ t, T t → T' t) : Makes J has s T' m r := by
  cases r with
  | ok g => exact Weighs.mono h (fun t ht => ht) hT
  | error f => exact h

/-- The weight of a goal that is made when the state is known. -/
theorem project_weighs {build : State → Except Failure Goal}
    (h : ∀ s, S s → Makes J has s T m (build s)) : Weighs J has S (project build) T m := by
  intro s hs
  have hmakes := h s hs
  unfold project
  cases hr : build s with
  | ok g =>
      rw [hr] at hmakes
      exact hmakes s rfl
  | error f =>
      rw [hr] at hmakes
      exact Answers.gives_raise hmakes

/-- An operation that takes in a property finds the assignments with it once. -/
theorem lift_weighs {operation : State → Except Failure State} {P : Assignment → Prop}
    (h : ∀ s, S s → s.Finds J has P T (operation s)) :
    Weighs J has S (lift operation) T (once P) := by
  intro s hs
  have hs' := h s hs
  unfold lift
  cases hr : operation s with
  | ok t =>
      rw [hr] at hs'
      refine Answers.gives_one hs'.1 fun ρ => ?_
      rw [tally_cons, tally_nil, Nat.add_zero, once_mul_once]
      exact once_congr (hs'.2 ρ)
  | error f =>
      rw [hr] at hs'
      cases hs'.1 with
      | deadEnd cause =>
          refine Answers.gives_done fun ρ => ?_
          rw [tally_nil, once_mul_once]
          exact (once_of_not fun hboth => hs'.2 ρ hboth.1 hboth.2).symm
      | unwritable shows mem long => exact Answers.gives_raise ⟨rfl, _, mem, long⟩

end Goal

end Consonance
