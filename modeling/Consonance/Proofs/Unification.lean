import Consonance.Proofs.Discrete
import Consonance.Proofs.Persistence

/-!
# Unification

Unification makes two terms equal by one binding at most.  It asks for no more than that: values
of the variables agree with the new bindings exactly if they agree with the earlier ones and give
both terms equal values (`Substitution.Unified.unify_mostGeneral`).

*Following.*  A term is looked up by following bindings one by one.  Nothing is checked for
occurrences, and this comes to an end all the same: both terms are walked before one of them is
bound, so a binding joins the ends of two chains (`Triangular.followed`).

*Equality.*  Values are equal if they are the same, and that is no equivalence on all values: an
undefined number without a mark is not the same as itself.  What is said here holds for every
class of values on which it is one (`Value.Comparable`).  Whole numbers of any kind and texts are
such a class (`Value.comparable_readable`).
-/

namespace Consonance

/-! ## Equality of values -/

/-- On the values of a class, being the same is an equivalence. -/
structure Value.Comparable (A : Value → Prop) : Prop where
  refl : ∀ v, A v → v.same v = true
  symm : ∀ v w, A v → A w → v.same w = true → w.same v = true
  trans : ∀ u v w, A u → A v → A w → u.same v = true → v.same w = true → u.same w = true

namespace Value

variable {v w : Value}

/-- The value is a whole number or a text. -/
def Readable (v : Value) : Prop := (∃ n, v.whole? = some n) ∨ ∃ s, v = .text s

theorem Readable.discrete (hv : v.Readable) : v.Discrete := by
  rintro x rfl
  rcases hv with ⟨n, hn⟩ | ⟨s, hs⟩
  · cases hn
  · cases hs

/-- Whole numbers of any kind are the same when they are equal as integers. -/
theorem same_whole {p q : Quantity} {m n : Int} (hp : p.whole? = some m) (hq : q.whole? = some n) :
    (ofQuantity p).same (ofQuantity q) = (m == n) := by
  rw [← Quantity.equal_whole hp hq]
  cases p <;> cases q <;> cases hp <;> cases hq <;>
    simp [ofQuantity, same, sameUndefined, equal, equalAtoms, quantity?]

/-- Whole numbers and texts are the same when they read the same. -/
theorem Readable.same_iff (hv : v.Readable) (hw : w.Readable) : v.same w = true ↔ v.Alike w := by
  refine ⟨alike_of_same hv.discrete hw.discrete, fun h => ?_⟩
  rcases hv with ⟨n, hn⟩ | ⟨s, rfl⟩
  · obtain ⟨p, hp, rfl⟩ := exists_ofQuantity hn
    obtain ⟨q, hq, rfl⟩ := exists_ofQuantity (h.1 ▸ hn)
    rw [same_whole hp hq]
    exact beq_self_eq_true n
  · rw [(h.2 s).mp rfl]
    simp [same, equal, equalAtoms]

theorem comparable_readable : Comparable Readable where
  refl v hv := (hv.same_iff hv).mpr (Alike.refl v)
  symm v w hv hw h := (hw.same_iff hv).mpr ((hv.same_iff hw).mp h).symm
  trans u v w hu hv hw huv hvw := by
    have huv := (hu.same_iff hv).mp huv
    have hvw := (hv.same_iff hw).mp hvw
    exact (hu.same_iff hw).mpr ⟨huv.1.trans hvw.1, fun s => (huv.2 s).trans (hvw.2 s)⟩

end Value

/-! ## Values of variables -/

/-- A value for every variable. -/
abbrev Valuation := Var → Value

namespace Term

/-- The value that a term stands for. -/
def valued (ρ : Valuation) : Term → Value
  | .var x => ρ x
  | .val v => v

/-- The term is a variable or a value of the class. -/
def Of (A : Value → Prop) : Term → Prop
  | .var _ => True
  | .val v => A v

theorem Of.valued {A : Value → Prop} {t : Term} (ht : t.Of A) {ρ : Valuation}
    (hρ : ∀ x, A (ρ x)) : A (t.valued ρ) := by
  cases t with
  | var x => exact hρ x
  | val v => exact ht

/-- The terms are one variable or values that are the same. -/
def Matches : Term → Term → Prop
  | .var x, .var y => x = y
  | .val v, .val w => v.same w = true
  | _, _ => False

end Term

namespace Substitution

variable {A : Value → Prop} {σ τ : Substitution} {a b t u : Term} {x : Var} {ρ : Valuation}

/-- The values agree with every binding. -/
def Agrees (σ : Substitution) (ρ : Valuation) : Prop :=
  ∀ b ∈ σ, (ρ b.1).same (b.2.valued ρ) = true

/-- The substitution makes two terms equal. -/
def Joins (σ : Substitution) (a b : Term) : Prop := (walk σ a).Matches (walk σ b)

/-! ## Following bindings -/

/-- A variable leads to what it is bound to. -/
def Leads (σ : Substitution) (t u : Term) : Prop := ∃ x, t = .var x ∧ σ.lookup x = some u

/-- Bindings can be followed from every term.  That comes to an end, and walking finds it: a value
or a variable that is not bound. -/
structure Followed (σ : Substitution) : Prop where
  ends : WellFounded fun u t => σ.Leads t u
  reaches : ∀ t, Relation.ReflTransGen σ.Leads t (walk σ t)
  unbound : ∀ t x, walk σ t = .var x → σ.lookup x = none

theorem mem_of_lookup (h : σ.lookup x = some t) : (x, t) ∈ σ := by
  obtain ⟨l, r, rfl, -⟩ := List.lookup_eq_some_iff.mp h
  exact List.mem_append_right _ (List.mem_cons_self ..)

theorem Triangular.lookup_eq_none (h : σ.Triangular) (hx : walk σ (.var x) = .var x) :
    σ.lookup x = none := by
  cases hl : σ.lookup x with
  | none => rfl
  | some t => exact absurd hx (h.walk_ne_self (mem_of_lookup hl))

/-- A new binding leaves the others as they are. -/
theorem Leads.cons {earlier : Substitution} (h : earlier.Leads t u)
    (hx : earlier.lookup x = none) (target : Term) :
    Leads ((x, target) :: earlier) t u := by
  obtain ⟨y, rfl, hy⟩ := h
  have hne : y ≠ x := by
    rintro rfl
    rw [hx] at hy
    cases hy
  exact ⟨y, rfl, by rwa [List.lookup_cons, beq_false_of_ne hne]⟩

theorem Triangular.reaches (h : σ.Triangular) (t : Term) :
    Relation.ReflTransGen σ.Leads t (walk σ t) := by
  induction σ with
  | nil => exact .refl
  | cons b earlier ih =>
      obtain ⟨x, target⟩ := b
      obtain ⟨hx, -, -, hearlier⟩ := h
      have hunbound := hearlier.lookup_eq_none hx
      have hwalk : Relation.ReflTransGen (Leads ((x, target) :: earlier)) t (walk earlier t) :=
        (ih hearlier).lift id fun _ _ hleads => hleads.cons hunbound target
      -- Following goes on by the new binding if it has come to its variable.
      by_cases hw : walk earlier t = .var x
      · rw [walk_cons_self target hw]
        exact hwalk.tail ⟨x, hw, List.lookup_cons_self⟩
      · rwa [walk_cons_ne target hw]

theorem Leads.unique {v w : Term} (hv : σ.Leads t v) (hw : σ.Leads t w) : v = w := by
  obtain ⟨x, rfl, hx⟩ := hv
  obtain ⟨y, hxy, hy⟩ := hw
  cases hxy
  exact Option.some.inj (hx.symm.trans hy)

/-- Where following can come to an end, it does: each term leads to one term only. -/
theorem acc_of_reaches {last : Term} (hlast : ∀ u, ¬ σ.Leads last u)
    (h : Relation.ReflTransGen σ.Leads t last) : Acc (fun u t => σ.Leads t u) t := by
  induction h using Relation.ReflTransGen.head_induction_on with
  | refl => exact ⟨_, fun u hu => absurd hu (hlast u)⟩
  | head hleads _ ih => exact ⟨_, fun u hu => hleads.unique hu ▸ ih⟩

theorem Triangular.followed (h : σ.Triangular) : σ.Followed := by
  have hunbound : ∀ t x, walk σ t = .var x → σ.lookup x = none := fun t x hw =>
    h.lookup_eq_none (hw ▸ walk_walk h t)
  refine ⟨⟨fun t => acc_of_reaches ?_ (h.reaches t)⟩, h.reaches, hunbound⟩
  rintro u ⟨x, hw, hx⟩
  rw [hunbound t x hw] at hx
  cases hx

/-! ## Agreement -/

theorem agrees_cons : Agrees ((x, t) :: σ) ρ ↔ (ρ x).same (t.valued ρ) = true ∧ σ.Agrees ρ := by
  simp [Agrees]

theorem walk_of (hσ : ∀ b ∈ σ, b.2.Of A) (ht : t.Of A) : (walk σ t).Of A := by
  induction σ with
  | nil => exact ht
  | cons b earlier ih =>
      obtain ⟨x, target⟩ := b
      obtain ⟨htarget, hearlier⟩ := List.forall_mem_cons.mp hσ
      by_cases hw : walk earlier t = .var x
      · rwa [walk_cons_self target hw]
      · rw [walk_cons_ne target hw]
        exact ih hearlier

/-- Walking keeps the value of a term. -/
theorem Agrees.walk_same (hA : Value.Comparable A) (hσ : ∀ b ∈ σ, b.2.Of A) (hρ : ∀ x, A (ρ x))
    (h : σ.Agrees ρ) (ht : t.Of A) :
    ((walk σ t).valued ρ).same (t.valued ρ) = true := by
  induction σ with
  | nil => exact hA.refl _ (ht.valued hρ)
  | cons b earlier ih =>
      obtain ⟨x, target⟩ := b
      obtain ⟨htarget, hearlier⟩ := List.forall_mem_cons.mp hσ
      obtain ⟨hx, hagrees⟩ := agrees_cons.mp h
      have hwalk := ih hearlier hagrees
      by_cases hw : walk earlier t = .var x
      · rw [hw] at hwalk
        rw [walk_cons_self target hw]
        have hback := hA.symm _ _ (hρ x) (htarget.valued hρ) hx
        exact hA.trans _ _ _ (htarget.valued hρ) (hρ x) (ht.valued hρ) hback hwalk
      · rwa [walk_cons_ne target hw]

/-- Walked terms have equal values when the terms themselves do. -/
theorem Agrees.same_iff_walk (hA : Value.Comparable A) (hσ : ∀ b ∈ σ, b.2.Of A)
    (hρ : ∀ x, A (ρ x)) (h : σ.Agrees ρ) (ha : a.Of A) (hb : b.Of A) :
    ((walk σ a).valued ρ).same ((walk σ b).valued ρ) = true ↔
      (a.valued ρ).same (b.valued ρ) = true := by
  have hwa := (walk_of hσ ha).valued hρ
  have hwb := (walk_of hσ hb).valued hρ
  have hva := ha.valued hρ
  have hvb := hb.valued hρ
  have hasame := h.walk_same hA hσ hρ ha
  have hbsame := h.walk_same hA hσ hρ hb
  constructor
  · intro hsame
    exact hA.trans _ _ _ hva hwa hvb (hA.symm _ _ hwa hva hasame)
      (hA.trans _ _ _ hwa hwb hvb hsame hbsame)
  · intro hsame
    exact hA.trans _ _ _ hwa hva hwb hasame
      (hA.trans _ _ _ hva hvb hwb hsame (hA.symm _ _ hwb hvb hbsame))

/-! ## One unification -/

/-- A binding that makes two walked terms equal: one of them is an open variable, and the other
one is its target. -/
structure Ties (σ : Substitution) (x : Var) (t a b : Term) : Prop where
  sides : walk σ a = .var x ∧ walk σ b = t ∨ walk σ a = t ∧ walk σ b = .var x
  ne : t ≠ .var x

/-- What unification can come to. -/
theorem unify_cases (σ : Substitution) (a b : Term) :
    (σ.Joins a b ∧ σ.unify a b = .ok σ) ∨
      (∃ x t, σ.Ties x t a b ∧ σ.unify a b = .ok ((x, t) :: σ)) ∨
      ∃ v w, walk σ a = .val v ∧ walk σ b = .val w ∧ v.same w = false ∧
        σ.unify a b = .error (Failure.deadEnd (.differentValues v w)).worded := by
  unfold Joins unify
  cases ha : walk σ a with
  | var x =>
      cases hb : walk σ b with
      | var y =>
          by_cases hxy : x = y
          · exact .inl ⟨hxy, by simp only [binding?, if_pos hxy]; rfl⟩
          · refine .inr (.inl ⟨x, .var y, ⟨.inl ⟨ha, hb⟩, fun h => hxy ?_⟩, ?_⟩)
            · exact (Term.var.inj h).symm
            · simp only [binding?, if_neg hxy]
              rfl
      | val w => exact .inr (.inl ⟨x, .val w, ⟨.inl ⟨ha, hb⟩, Term.noConfusion⟩, rfl⟩)
  | val v =>
      cases hb : walk σ b with
      | var y => exact .inr (.inl ⟨y, .val v, ⟨.inr ⟨ha, hb⟩, Term.noConfusion⟩, rfl⟩)
      | val w =>
          cases hsame : v.same w with
          | true => exact .inl ⟨hsame, by simp only [binding?, hsame, if_true]; rfl⟩
          | false =>
              refine .inr (.inr ⟨v, w, rfl, rfl, hsame, ?_⟩)
              simp only [binding?, hsame, Bool.false_eq_true, if_false]
              rfl

/-- Terms that are tied together are not equal yet. -/
theorem Ties.not_joins (h : σ.Ties x t a b) : ¬ σ.Joins a b := by
  obtain ⟨⟨ha, hb⟩ | ⟨ha, hb⟩, hne⟩ := h
  all_goals
    rw [Joins, ha, hb]
    cases t with
    | var y =>
        intro hxy
        simp only [Term.Matches] at hxy
        exact hne (by rw [hxy])
    | val v => exact id

/-- A tied variable is open and its target is walked. -/
theorem Ties.walked (hσ : σ.Triangular) (h : σ.Ties x t a b) :
    walk σ (.var x) = .var x ∧ walk σ t = t := by
  obtain ⟨⟨ha, hb⟩ | ⟨ha, hb⟩, -⟩ := h
  · exact ⟨ha ▸ walk_walk hσ a, hb ▸ walk_walk hσ b⟩
  · exact ⟨hb ▸ walk_walk hσ b, ha ▸ walk_walk hσ a⟩

theorem Ties.triangular (hσ : σ.Triangular) (h : σ.Ties x t a b) :
    Triangular ((x, t) :: σ) :=
  ⟨(h.walked hσ).1, (h.walked hσ).2, h.ne, hσ⟩

/-- The binding makes the terms equal. -/
theorem Ties.joins (hA : Value.Comparable A) (ht : t.Of A) (h : σ.Ties x t a b) :
    Joins ((x, t) :: σ) a b := by
  have hself : t.Matches t := by
    cases t with
    | var y => exact rfl
    | val v => exact hA.refl v ht
  obtain ⟨⟨ha, hb⟩ | ⟨ha, hb⟩, hne⟩ := h
  · rwa [Joins, walk_cons_self t ha, walk_cons_ne t (hb.trans_ne hne), hb]
  · rwa [Joins, walk_cons_ne t (ha.trans_ne hne), ha, walk_cons_self t hb]

/-- Values agree with the binding when they make the terms equal. -/
theorem Ties.agrees_iff (hA : Value.Comparable A) (hσ : ∀ b ∈ σ, b.2.Of A) (ha : a.Of A)
    (hb : b.Of A) (hρ : ∀ x, A (ρ x)) (h : σ.Ties x t a b) :
    Agrees ((x, t) :: σ) ρ ↔ σ.Agrees ρ ∧ (a.valued ρ).same (b.valued ρ) = true := by
  rw [agrees_cons, and_comm]
  refine and_congr_right fun hagrees => ?_
  rw [← hagrees.same_iff_walk hA hσ hρ ha hb]
  obtain ⟨⟨hwa, hwb⟩ | ⟨hwa, hwb⟩, -⟩ := h
  · rw [hwa, hwb]
    exact Iff.rfl
  · have ht : t.Of A := hwa ▸ walk_of hσ ha
    rw [hwa, hwb]
    exact ⟨hA.symm _ _ (hρ x) (ht.valued hρ), hA.symm _ _ (ht.valued hρ) (hρ x)⟩

/-- Terms that are equal already have equal values. -/
theorem Joins.agrees_iff (hA : Value.Comparable A) (hσ : ∀ b ∈ σ, b.2.Of A) (ha : a.Of A)
    (hb : b.Of A) (hρ : ∀ x, A (ρ x)) (h : σ.Joins a b) :
    σ.Agrees ρ ↔ σ.Agrees ρ ∧ (a.valued ρ).same (b.valued ρ) = true := by
  refine (and_iff_left_of_imp fun hagrees => ?_).symm
  rw [← hagrees.same_iff_walk hA hσ hρ ha hb]
  unfold Joins at h
  cases hwa : walk σ a with
  | var x =>
      cases hwb : walk σ b with
      | var y =>
          rw [hwa, hwb] at h
          cases (show x = y from h)
          exact hA.refl _ (hρ x)
      | val w => simp [hwa, hwb, Term.Matches] at h
  | val v =>
      cases hwb : walk σ b with
      | var y => simp [hwa, hwb, Term.Matches] at h
      | val w => rwa [hwa, hwb] at h

/-! ## Unification after unification -/

/-- The substitution comes from nothing by unifying variables and values of the class. -/
inductive Unified (A : Value → Prop) : Substitution → Prop where
  | empty : Unified A []
  | unify {σ τ : Substitution} {a b : Term} (earlier : Unified A σ) (left : a.Of A)
      (right : b.Of A) (result : σ.unify a b = .ok τ) : Unified A τ

/-- What every unification keeps: each binding joins the ends of two chains, and its target is a
variable or a value of the class. -/
theorem Unified.triangular (h : Unified A σ) : σ.Triangular ∧ ∀ b ∈ σ, b.2.Of A := by
  induction h with
  | empty => exact ⟨trivial, List.forall_mem_nil _⟩
  | @unify σ τ a b _ left right result ih =>
      obtain ⟨htriangular, hof⟩ := ih
      rcases unify_cases σ a b with ⟨-, hok⟩ | ⟨x, t, hties, hok⟩ | ⟨v, w, -, -, -, herror⟩
      · cases hok.symm.trans result
        exact ⟨htriangular, hof⟩
      · cases hok.symm.trans result
        have ht : t.Of A := by
          rcases hties.sides with ⟨-, hb⟩ | ⟨ha, -⟩
          · exact hb ▸ walk_of hof right
          · exact ha ▸ walk_of hof left
        exact ⟨hties.triangular htriangular, List.forall_mem_cons.mpr ⟨ht, hof⟩⟩
      · cases herror.symm.trans result

/-- Unification fails on different values only, adds one binding where the terms are not equal
yet and nothing where they are, and gives the most general substitution that makes them equal.
Bindings can always be followed to an end. -/
theorem Unified.unify_mostGeneral {A : Value → Prop} (hA : Value.Comparable A)
    {σ : Substitution} (hσ : Unified A σ) :
    σ.Followed ∧ ∀ a b : Term, a.Of A → b.Of A →
      (∀ f, σ.unify a b = .error f ↔ ∃ v w, walk σ a = .val v ∧ walk σ b = .val w ∧
        v.same w = false ∧ f = (Failure.deadEnd (.differentValues v w)).worded) ∧
      ∀ τ, σ.unify a b = .ok τ →
        (σ.Joins a b ∧ τ = σ ∨
          ¬ σ.Joins a b ∧ ∃ x t, σ.lookup x = none ∧ τ = (x, t) :: σ) ∧
        τ.Followed ∧ τ.Joins a b ∧
        ∀ ρ : Valuation, (∀ x, A (ρ x)) →
          (τ.Agrees ρ ↔ σ.Agrees ρ ∧ (a.valued ρ).same (b.valued ρ) = true) := by
  obtain ⟨htriangular, hof⟩ := hσ.triangular
  refine ⟨htriangular.followed, fun a b ha hb => ?_⟩
  rcases unify_cases σ a b with ⟨hjoins, hok⟩ | ⟨x, t, hties, hok⟩ | ⟨v, w, hv, hw, hne, herror⟩
  · refine ⟨fun f => ⟨fun hf => ?_, ?_⟩, fun τ hτ => ?_⟩
    · cases hok.symm.trans hf
    · rintro ⟨v, w, hv, hw, hne, -⟩
      rw [Joins, hv, hw] at hjoins
      exact absurd hjoins (by simp [Term.Matches, hne])
    · cases hok.symm.trans hτ
      exact ⟨.inl ⟨hjoins, rfl⟩, htriangular.followed, hjoins, fun ρ hρ =>
        hjoins.agrees_iff hA hof ha hb hρ⟩
  · refine ⟨fun f => ⟨fun hf => ?_, ?_⟩, fun τ hτ => ?_⟩
    · cases hok.symm.trans hf
    · rintro ⟨v, w, hv, hw, -, -⟩
      rcases hties.sides with ⟨hx, -⟩ | ⟨-, hx⟩
      · cases hv.symm.trans hx
      · cases hw.symm.trans hx
    · have hunified : Unified A τ := .unify hσ ha hb hτ
      cases hok.symm.trans hτ
      have ht : t.Of A := hunified.triangular.2 (x, t) (List.mem_cons_self ..)
      have hopen := htriangular.lookup_eq_none (hties.walked htriangular).1
      exact ⟨.inr ⟨hties.not_joins, x, t, hopen, rfl⟩, hunified.triangular.1.followed,
        hties.joins hA ht, fun ρ hρ => hties.agrees_iff hA hof ha hb hρ⟩
  · refine ⟨fun f => ⟨fun hf => ?_, ?_⟩, fun τ hτ => ?_⟩
    · cases herror.symm.trans hf
      exact ⟨v, w, hv, hw, hne, rfl⟩
    · rintro ⟨v', w', hv', hw', -, rfl⟩
      cases hv.symm.trans hv'
      cases hw.symm.trans hw'
      exact herror
    · cases herror.symm.trans hτ

/-- Two variables are bound along a chain to a third one, and the first of them is made equal to
a class.  The class is equal to its number, and the third variable is bound. -/
theorem Unified.unify_mostGeneral_chain :
    let x := Var.named "x"
    let y := Var.named "y"
    let z := Var.named "z"
    let c := Term.val (.pitchClass (.ofInt 1))
    let σ : Substitution := [(y, .var z), (x, .var y)]
    Value.Comparable Value.Readable ∧ Unified Value.Readable σ ∧ c.Of Value.Readable ∧
      σ.unify (.var x) c = .ok ((z, c) :: σ) ∧ σ.lookup z = none ∧
      Joins ((z, c) :: σ) (.var x) c ∧
      ∀ ρ : Valuation, (∀ v, (ρ v).Readable) →
        (Agrees ((z, c) :: σ) ρ ↔
          σ.Agrees ρ ∧ (ρ x).same (.pitchClass (.ofInt 1)) = true) := by
  intro x y z c σ
  have hc : c.Of Value.Readable := .inl ⟨1, rfl⟩
  have hfirst : Unified Value.Readable [(x, .var y)] :=
    .unify (a := .var x) (b := .var y) .empty trivial trivial rfl
  have hσ : Unified Value.Readable σ :=
    .unify (a := .var x) (b := .var z) hfirst trivial trivial rfl
  have hok : σ.unify (.var x) c = .ok ((z, c) :: σ) := rfl
  obtain ⟨-, hunify⟩ := hσ.unify_mostGeneral Value.comparable_readable
  obtain ⟨-, hresult⟩ := hunify (.var x) c trivial hc
  obtain ⟨-, -, hjoins, hagrees⟩ := hresult _ hok
  exact ⟨Value.comparable_readable, hσ, hc, hok, rfl, hjoins, hagrees⟩

end Substitution

end Consonance
