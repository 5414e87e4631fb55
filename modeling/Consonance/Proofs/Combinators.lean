import Consonance.Proofs.Stream
import Mathlib.Data.List.Flatten
import Mathlib.Data.List.Perm.Basic

/-!
# The laws of goals

Goals are put together by conjunction and disjunction, and relations rely on it that they may be
put together in different ways.  The laws are equations between streams of states: the same states
in the same order, and a failure at the same place (`Goal.combinator_laws`).

*Brackets.*  Both combinators take any number of goals.  How these are grouped makes no difference
(`Bracketing.combined_eq`).  That is all in two equations, one for a single goal and one for two
groups side by side (`Bracketing.Flattens`).

*Distribution.*  A conjunction tries the alternatives of its first goal one after the other, and so
does a disjunction of conjunctions.  Alternatives of a later goal are tried for each state anew.
They give the same states in another order, and only if no failure cuts the search off.
-/

namespace Consonance

/-! ## Streams without a failure -/

namespace Answers

variable {α β : Type}

theorem ending_bind_eq_none {xs : Answers α} {k : α → Answers β} :
    (xs.bind k).ending = none ↔ xs.ending = none ∧ ∀ a ∈ xs.items, (k a).ending = none := by
  rw [ending_bind, Option.or_eq_none_iff, List.findSome?_eq_none_iff, and_comm]

/-- Where nothing fails, the answers of all streams follow one another. -/
theorem items_bind {xs : Answers α} {k : α → Answers β} (h : (xs.bind k).ending = none) :
    (xs.bind k).items = xs.items.flatMap fun a => (k a).items := by
  induction xs with
  | done => rfl
  | raise f => rfl
  | next a rest ih =>
      rw [bind_next, ending_append, Option.or_eq_none_iff] at h
      obtain ⟨hfirst, hrest⟩ := h
      rw [bind_next, items_append, hfirst, ih () hrest]
      rfl

end Answers

/-- Going through two lists, either one may be the outer one. -/
theorem flatMap_comm_perm {α β γ : Type} (as : List α) (bs : List β) (f : α → β → List γ) :
    (as.flatMap fun a => bs.flatMap (f a)).Perm
      (bs.flatMap fun b => as.flatMap fun a => f a b) := by
  induction bs with
  | nil => simp
  | cons b bs ih =>
      simp only [List.flatMap_cons]
      exact (List.flatMap_append_perm as _ _).symm.trans (ih.append_left _)

/-! ## Brackets -/

/-- Goals with brackets around them. -/
inductive Bracketing where
  | goal (g : Goal)
  /-- Parts side by side in one bracket. -/
  | group (parts : List Bracketing)

namespace Bracketing

mutual

/-- The goals from left to right, without the brackets. -/
def goals : Bracketing → List Goal
  | .goal g => [g]
  | .group parts => goalsOfAll parts

/-- The goals of all parts of a bracket. -/
def goalsOfAll : List Bracketing → List Goal
  | [] => []
  | b :: rest => goals b ++ goalsOfAll rest

end

mutual

/-- The goal of a bracketing: a combinator is applied at each bracket. -/
def combined (op : List Goal → Goal) : Bracketing → Goal
  | .goal g => g
  | .group parts => op (combinedParts op parts)

/-- The goals of the parts of a bracket. -/
def combinedParts (op : List Goal → Goal) : List Bracketing → List Goal
  | [] => []
  | b :: rest => combined op b :: combinedParts op rest

end

/-- A combinator that leaves a single goal as it is, and for which two groups of goals are as good
as one. -/
structure Flattens (op : List Goal → Goal) : Prop where
  single : ∀ g, op [g] = g
  append : ∀ gs hs, op (gs ++ hs) = op [op gs, op hs]

variable {op : List Goal → Goal}

mutual

theorem combined_eq (h : Flattens op) : ∀ b : Bracketing, b.combined op = op b.goals
  | .goal g => (h.single g).symm
  | .group parts => combinedParts_eq h parts

theorem combinedParts_eq (h : Flattens op) :
    ∀ parts : List Bracketing, op (combinedParts op parts) = op (goalsOfAll parts)
  | [] => rfl
  | b :: rest => by
      have hfirst := combined_eq h b
      have hrest := combinedParts_eq h rest
      calc op (combined op b :: combinedParts op rest)
          = op [op [combined op b], op (combinedParts op rest)] := h.append [_] _
        _ = op [op (goals b), op (goalsOfAll rest)] := by rw [h.single, hfirst, hrest]
        _ = op (goals b ++ goalsOfAll rest) := (h.append _ _).symm

end

end Bracketing

namespace Goal

open Bracketing (Flattens)

variable {s : State}

/-! ## Conjunctions -/

theorem conjoin_single (g : Goal) : conjoin [g] = g := rfl

theorem conjoin_pair (g h : Goal) (s : State) : conjoin [g, h] s = (g s).bind h := rfl

theorem flattens_conjoin : Flattens conjoin where
  single := conjoin_single
  append gs hs := funext fun s => conjoin_append gs hs s

theorem conjoin_succeed_left (g : Goal) : conjoin [succeed, g] = g :=
  funext fun s => Answers.one_bind s g

theorem conjoin_succeed_right (g : Goal) : conjoin [g, succeed] = g :=
  funext fun s => Answers.bind_one (g s)

theorem conjoin_fail (gs : List Goal) : conjoin (fail :: gs) = fail := by
  funext s
  rw [conjoin_cons]
  rfl

/-! ## Disjunctions -/

theorem disjoin_single (g : Goal) : disjoin [g] = g :=
  funext fun s => Answers.append_none (g s)

theorem disjoin_append (gs hs : List Goal) (s : State) :
    disjoin (gs ++ hs) s = (disjoin gs s).append fun _ => disjoin hs s := by
  induction gs with
  | nil => rfl
  | cons g gs ih =>
      show (g s).append (fun _ => disjoin (gs ++ hs) s) =
        ((g s).append fun _ => disjoin gs s).append fun _ => disjoin hs s
      rw [ih, Answers.append_assoc]

theorem flattens_disjoin : Flattens disjoin where
  single := disjoin_single
  append gs hs := by
    funext s
    rw [disjoin_append]
    show _ = (disjoin gs s).append fun _ => (disjoin hs s).append fun _ => .done
    rw [Answers.append_none]

theorem disjoin_fail_left (g : Goal) : disjoin [fail, g] = g := disjoin_single g

theorem disjoin_fail_right (g : Goal) : disjoin [g, fail] = g := disjoin_single g

theorem ending_disjoin_eq_none {gs : List Goal} :
    (disjoin gs s).ending = none ↔ ∀ g ∈ gs, (g s).ending = none := by
  induction gs with
  | nil => simp [disjoin, fail, Answers.ending]
  | cons g gs ih =>
      show ((g s).append fun _ => disjoin gs s).ending = none ↔ _
      rw [Answers.ending_append, Option.or_eq_none_iff, ih, List.forall_mem_cons]

theorem items_disjoin {gs : List Goal} (h : (disjoin gs s).ending = none) :
    (disjoin gs s).items = gs.flatMap fun g => (g s).items := by
  induction gs with
  | nil => rfl
  | cons g gs ih =>
      change ((g s).append fun _ => disjoin gs s).ending = none at h
      rw [Answers.ending_append, Option.or_eq_none_iff] at h
      show ((g s).append fun _ => disjoin gs s).items = _
      rw [Answers.items_append, h.1, ih h.2]
      rfl

/-! ## Distribution -/

/-- Alternatives of the first goal are tried one after the other. -/
theorem conjoin_disjoin_left (gs hs : List Goal) :
    conjoin (disjoin gs :: hs) = disjoin (gs.map fun g => conjoin (g :: hs)) := by
  funext s
  rw [conjoin_cons]
  induction gs with
  | nil => rfl
  | cons g gs ih =>
      show ((g s).append fun _ => disjoin gs s).bind (conjoin hs) =
        (conjoin (g :: hs) s).append fun _ => disjoin (gs.map fun g => conjoin (g :: hs)) s
      rw [Answers.append_bind, ih, conjoin_cons]

/-- Alternatives of the second goal fail if one of the conjunctions with them does. -/
theorem ending_conjoin_disjoin (g h : Goal) (hs : List Goal) (s : State) :
    (conjoin [g, disjoin (h :: hs)] s).ending = none ↔
      (disjoin ((h :: hs).map fun h => conjoin [g, h]) s).ending = none := by
  simp only [ending_disjoin_eq_none, List.forall_mem_map, conjoin_pair,
    Answers.ending_bind_eq_none]
  constructor
  · rintro ⟨hg, heach⟩ k hk
    exact ⟨hg, fun a ha => heach a ha k hk⟩
  · intro heach
    exact ⟨(heach h (List.mem_cons_self ..)).1, fun a ha k hk => (heach k hk).2 a ha⟩

/-- Alternatives of the second goal are tried for each state of the first one. -/
theorem conjoin_disjoin_perm {g : Goal} {hs : List Goal}
    (hleft : (conjoin [g, disjoin hs] s).ending = none)
    (hright : (disjoin (hs.map fun h => conjoin [g, h]) s).ending = none) :
    (conjoin [g, disjoin hs] s).items.Perm
      (disjoin (hs.map fun h => conjoin [g, h]) s).items := by
  have hpair : ∀ h ∈ hs, (conjoin [g, h] s).items = (g s).items.flatMap fun a => (h a).items :=
    fun h hh => Answers.items_bind
      (ending_disjoin_eq_none.mp hright _ (List.mem_map_of_mem (f := fun h => conjoin [g, h]) hh))
  rw [conjoin_pair] at hleft ⊢
  have heach := (Answers.ending_bind_eq_none.mp hleft).2
  rw [Answers.items_bind hleft, items_disjoin hright, List.flatMap_map,
    List.flatMap_congr fun a ha => items_disjoin (heach a ha), List.flatMap_congr hpair]
  exact flatMap_comm_perm _ _ _

/-! ## The laws -/

/-- Conjunction and disjunction do not depend on brackets, success is a unit of the one and failure
of the other, and failure in front makes a conjunction fail.  Conjunction distributes over a
disjunction in front of it, and up to the order over one behind it, where nothing fails.  Clauses
are a disjunction of conjunctions. -/
theorem combinator_laws :
    (∀ b : Bracketing, b.combined conjoin = conjoin b.goals) ∧
    (∀ b : Bracketing, b.combined disjoin = disjoin b.goals) ∧
    (∀ g, conjoin [g] = g ∧ conjoin [succeed, g] = g ∧ conjoin [g, succeed] = g) ∧
    (∀ g, disjoin [g] = g ∧ disjoin [fail, g] = g ∧ disjoin [g, fail] = g) ∧
    conjoin [] = succeed ∧ disjoin [] = fail ∧
    (∀ gs, conjoin (fail :: gs) = fail) ∧
    (∀ gs hs, conjoin (disjoin gs :: hs) = disjoin (gs.map fun g => conjoin (g :: hs))) ∧
    (∀ g h hs s,
      ((conjoin [g, disjoin (h :: hs)] s).ending = none ↔
        (disjoin ((h :: hs).map fun h => conjoin [g, h]) s).ending = none) ∧
      ((conjoin [g, disjoin (h :: hs)] s).ending = none →
        (conjoin [g, disjoin (h :: hs)] s).items.Perm
          (disjoin ((h :: hs).map fun h => conjoin [g, h]) s).items)) ∧
    (∀ clauses, conde clauses = disjoin (clauses.map conjoin)) ∧
    conde [] = fail ∧ conde [[]] = succeed := by
  refine ⟨Bracketing.combined_eq flattens_conjoin, Bracketing.combined_eq flattens_disjoin,
    fun g => ?_, fun g => ?_, rfl, rfl, conjoin_fail, conjoin_disjoin_left, fun g h hs s => ?_,
    fun _ => rfl, rfl, disjoin_single succeed⟩
  · exact ⟨conjoin_single g, conjoin_succeed_left g, conjoin_succeed_right g⟩
  · exact ⟨disjoin_single g, disjoin_fail_left g, disjoin_fail_right g⟩
  · have hiff := ending_conjoin_disjoin g h hs s
    exact ⟨hiff, fun hleft => conjoin_disjoin_perm hleft (hiff.mp hleft)⟩

/-- Two states, each with or without a domain put in.  The four outcomes come in another order if
the second choice is made first. -/
theorem combinator_laws_twoChoices :
    let x := Var.named "x"
    let first : Goal := fun s => .ofList [s, s.addBinding x (.int 1)]
    let put : Goal := fun s => .one (s.put x (.interval 1 2))
    (conjoin [first, disjoin [succeed, put]] (.empty .midi)).ending = none ∧
      (conjoin [first, disjoin [succeed, put]] (.empty .midi)).items.length = 4 ∧
      (conjoin [first, disjoin [succeed, put]] (.empty .midi)).items.Perm
        (disjoin [conjoin [first, succeed], conjoin [first, put]] (.empty .midi)).items := by
  intro x first put
  have hending : (conjoin [first, disjoin [succeed, put]] (.empty .midi)).ending = none := rfl
  obtain ⟨-, -, -, -, -, -, -, -, hbehind, -⟩ := combinator_laws
  exact ⟨hending, rfl, (hbehind first succeed [put] (.empty .midi)).2 hending⟩

end Goal

end Consonance
