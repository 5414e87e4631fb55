import Consonance.Proofs.Escape
import Consonance.Proofs.Posting

/-!
# Pitch classes as numbers

A search that names pitch classes binds some variables to classes, and everything else that
it works with are integers.  Reading each class as its number gives a state over integers
(`State.numbered`), of which all is known that is known of such states.

The two states go the same way as long as classes and integers are kept apart: the variables
that stand for classes have no domains, no difference mentions them, and no other variable
is bound to one of them or to a class (`State.Sorted`).  Then an operation on integers does
the same in both states, and a class is given to a variable in the one where its number is
given in the other (`post_numbered`, `bind_class_numbered`).
-/

namespace Consonance

/-! ## Outcomes that go the same way -/

/-- Two outcomes are related results, the same failure, or dead ends both. -/
inductive Alike {α β : Type} (R : α → β → Prop) : Except Failure α → Except Failure β → Prop where
  | ok {a : α} {b : β} (related : R a b) : Alike R (.ok a) (.ok b)
  | error (f : Failure) : Alike R (.error f) (.error f)
  | deadEnd (cause cause' : DeadEnd) : Alike R (.error (.deadEnd cause)) (.error (.deadEnd cause'))

theorem Alike.bind {α β γ δ : Type} {R : α → β → Prop} {S : γ → δ → Prop} {x : Except Failure α}
    {y : Except Failure β} {k : α → Except Failure γ} {l : β → Except Failure δ} (h : Alike R x y)
    (hk : ∀ a b, R a b → Alike S (k a) (l b)) : Alike S (x >>= k) (y >>= l) := by
  cases h with
  | ok related => exact hk _ _ related
  | error f => exact .error f
  | deadEnd cause cause' => exact .deadEnd cause cause'

/-! ## Numbers of classes -/

theorem PitchClass.isWritable_toInt (c : PitchClass) : Number.isWritable c.toInt = true := by
  have hlow := c.toInt_nonneg
  have hhigh := c.toInt_lt
  refine Number.isWritable_of_natAbs_lt (k := 2) (by decide) ?_
  show c.toInt.natAbs < 100
  omega

/-- Classes are the same when their numbers are. -/
theorem Value.same_pitchClass (j k : PitchClass) :
    same (.pitchClass j) (.pitchClass k) = (j.toInt == k.toInt) := by
  have hquantity : same (.pitchClass j) (.pitchClass k) =
      Quantity.equal (.int j.toInt) (.int k.toInt) := by
    simp only [same, sameUndefined, equal, equalAtoms, quantity?, Bool.false_or]
    rfl
  rw [hquantity, Quantity.equal_int]

/-- The value, with a pitch class read as its number. -/
def Value.numbered : Value → Value
  | .pitchClass c => .int c.toInt
  | v => v

def Term.numbered : Term → Term
  | .var x => .var x
  | .val v => .val v.numbered

/-- The state with every class that a variable is bound to read as its number. -/
def State.numbered (s : State) : State :=
  { s with substitution := s.substitution.map fun b => (b.1, b.2.numbered) }

/-- The term is an integer, or a variable that stands for integers.  The variables of `C`
stand for classes. -/
def Term.Numeric (C : Var → Prop) (t : Term) : Prop := t.Among (fun _ => True) fun x => ¬ C x

/-- The term is a class, or a variable that stands for classes. -/
def Term.Classed (C : Var → Prop) : Term → Prop
  | .var x => C x
  | .val v => ∃ k, v = .pitchClass k

theorem Term.numeric_int (C : Var → Prop) (n : Int) : (Term.int n).Numeric C := ⟨n, rfl, trivial⟩

theorem Term.Numeric.numbered {C : Var → Prop} {t : Term} (h : t.Numeric C) : t.numbered = t := by
  cases t with
  | var x => rfl
  | val v =>
      obtain ⟨n, rfl, -⟩ := h
      rfl

namespace Substitution

variable {C : Var → Prop} {σ : Substitution}

/-- Variables that stand for classes are bound to classes, and the others to integers and to
one another. -/
def Sorted (C : Var → Prop) (σ : Substitution) : Prop :=
  ∀ b ∈ σ, (C b.1 → ∃ k, b.2 = .val (.pitchClass k)) ∧ (¬ C b.1 → b.2.Numeric C)

theorem walk_numbered (σ : Substitution) (t : Term) :
    walk (σ.map fun b => (b.1, b.2.numbered)) t.numbered = (walk σ t).numbered := by
  induction σ with
  | nil => rfl
  | cons b earlier ih =>
      obtain ⟨x, target⟩ := b
      simp only [List.map_cons, walk, ih]
      cases walk earlier t with
      | var y =>
          simp only [Term.numbered]
          split <;> rfl
      | val v => rfl

theorem Sorted.walk_numeric (h : σ.Sorted C) {t : Term} (ht : t.Numeric C) :
    (walk σ t).Numeric C := by
  induction σ with
  | nil => exact ht
  | cons b earlier ih =>
      obtain ⟨x, target⟩ := b
      obtain ⟨hb, hearlier⟩ := List.forall_mem_cons.mp h
      have hwalk := ih hearlier
      by_cases hx : walk earlier t = .var x
      · rw [walk_cons_self target hx]
        rw [hx] at hwalk
        exact hb.2 hwalk
      · rwa [walk_cons_ne target hx]

/-- A variable that stands for a class is open or bound to one. -/
theorem Sorted.walk_class (h : σ.Sorted C) {x : Var} (hx : C x) :
    walk σ (.var x) = .var x ∨ ∃ k, walk σ (.var x) = .val (.pitchClass k) := by
  induction σ with
  | nil => exact .inl rfl
  | cons b earlier ih =>
      obtain ⟨y, target⟩ := b
      obtain ⟨hb, hearlier⟩ := List.forall_mem_cons.mp h
      by_cases hy : walk earlier (.var x) = .var y
      · have hxy : x = y := by
          rcases ih hearlier with heq | ⟨k, heq⟩
          · exact Term.var.inj (heq.symm.trans hy)
          · rw [heq] at hy
            cases hy
        obtain ⟨k, hk⟩ := hb.1 (hxy ▸ hx)
        exact .inr ⟨k, (walk_cons_self target hy).trans hk⟩
      · rw [walk_cons_ne target hy]
        exact ih hearlier

end Substitution

namespace State

variable {C : Var → Prop} {s : State}

/-- Classes and integers are kept apart in the state. -/
structure Sorted (C : Var → Prop) (s : State) : Prop where
  bindings : s.substitution.Sorted C
  /-- Domains are those of variables that stand for integers. -/
  domains : ∀ x d, s.stored? x = some d → ¬ C x ∧ d.Integral
  differences : ∀ c ∈ s.differences, ∀ t ∈ c.terms, t.Numeric C

theorem sorted_empty (C : Var → Prop) (space : PitchSpace) : (empty space).Sorted C :=
  ⟨nofun, nofun, nofun⟩

/-- The second state is the first one with its classes numbered. -/
def NumberedAs (C : Var → Prop) (s n : State) : Prop := s.Sorted C ∧ n = s.numbered

/-! ## Looking up -/

@[simp] theorem stored?_numbered (s : State) (x : Var) : s.numbered.stored? x = s.stored? x := rfl

theorem walk_numbered (s : State) (t : Term) : s.numbered.walk t.numbered = (s.walk t).numbered :=
  Substitution.walk_numbered s.substitution t

theorem Sorted.walk_numeric (hs : s.Sorted C) {t : Term} (ht : t.Numeric C) :
    (s.walk t).Numeric C :=
  hs.bindings.walk_numeric ht

/-- A term that stands for a class is open or known to be one. -/
theorem Sorted.walk_classed (hs : s.Sorted C) {t : Term} (ht : t.Classed C) :
    (∃ x, s.walk t = .var x ∧ C x) ∨ ∃ k, s.walk t = .val (.pitchClass k) := by
  cases t with
  | var x => exact (hs.bindings.walk_class ht).imp (fun h => ⟨x, h, ht⟩) id
  | val v =>
      obtain ⟨k, rfl⟩ := ht
      exact .inr ⟨k, Substitution.walk_val _ _⟩

/-- Terms over integers are walked to the same terms. -/
theorem Sorted.walk_eq (hs : s.Sorted C) {t : Term} (ht : t.Numeric C) :
    s.numbered.walk t = s.walk t := by
  have h := s.walk_numbered t
  rwa [ht.numbered, (hs.walk_numeric ht).numbered] at h

/-- Terms that are the same once classes are numbered are the same. -/
theorem Sorted.walk_inj (hs : s.Sorted C) {a b : Term}
    (hab : a.Numeric C ∧ b.Numeric C ∨ a.Classed C ∧ b.Classed C)
    (h : s.numbered.walk a.numbered = s.numbered.walk b.numbered) : s.walk a = s.walk b := by
  rw [s.walk_numbered, s.walk_numbered] at h
  rcases hab with ⟨ha, hb⟩ | ⟨ha, hb⟩
  · rwa [(hs.walk_numeric ha).numbered, (hs.walk_numeric hb).numbered] at h
  · rcases hs.walk_classed ha with ⟨x, hx, -⟩ | ⟨j, hj⟩
    · rcases hs.walk_classed hb with ⟨y, hy, -⟩ | ⟨k, hk⟩
      · rw [hx, hy] at h ⊢
        exact h
      · rw [hx, hk] at h
        cases h
    · rcases hs.walk_classed hb with ⟨y, hy, -⟩ | ⟨k, hk⟩
      · rw [hj, hy] at h
        cases h
      · rw [hj, hk] at h ⊢
        simp only [Term.numbered, Value.numbered, Term.val.injEq, Value.int.injEq] at h
        rw [← PitchClass.ofInt_toInt j, h, PitchClass.ofInt_toInt]

theorem Sorted.domain?_eq (hs : s.Sorted C) {t : Term} (ht : t.Numeric C) :
    s.numbered.domain? t = s.domain? t := by
  simp only [domain?, hs.walk_eq ht, stored?_numbered]

theorem Sorted.domain?_integral (hs : s.Sorted C) {t : Term} {e : Domain}
    (h : s.domain? t = some e) : e.Integral := by
  unfold domain? at h
  split at h
  next x _ => exact (hs.domains x e h).2
  next => cases h

theorem Sorted.rank_eq (hs : s.Sorted C) : s.numbered.rank = s.rank := by
  have hterm : ∀ t : Term, t.Numeric C → s.numbered.rankOfTerm t = s.rankOfTerm t := by
    intro t ht
    simp only [rankOfTerm, hs.walk_eq ht, stored?_numbered]
  have hall : ∀ cs : List Difference, (∀ c ∈ cs, ∀ t ∈ c.terms, t.Numeric C) →
      cs.foldr (fun c r => (s.numbered.rankOfDifference c).add r) .zero =
        cs.foldr (fun c r => (s.rankOfDifference c).add r) .zero := by
    intro cs hcs
    induction cs with
    | nil => rfl
    | cons c rest ih =>
        obtain ⟨hc, hrest⟩ := List.forall_mem_cons.mp hcs
        obtain ⟨ha, hb, hd⟩ := Difference.forall_terms.mp hc
        rw [List.foldr_cons, List.foldr_cons, ih hrest]
        simp only [rankOfDifference, hterm _ ha, hterm _ hb, hterm _ hd]
  exact hall s.differences hs.differences

/-! ## Changes -/

/-- A variable that stands for integers is bound. -/
theorem Sorted.bind_numeric (hs : s.Sorted C) {x : Var} (hx : ¬ C x) {t : Term}
    (ht : t.Numeric C) : NumberedAs C (s.addBinding x t) (s.numbered.addBinding x t) := by
  have hover : t.Over fun _ => True := ht.isOver
  refine ⟨⟨?_, hs.domains, hs.differences⟩, ?_⟩
  · rw [substitution_addBinding s x hover]
    exact List.forall_mem_cons.mpr ⟨⟨fun h => absurd h hx, fun _ => ht⟩, hs.bindings⟩
  · cases t with
    | var y => rfl
    | val v =>
        obtain ⟨n, rfl, -⟩ := ht
        rfl

/-- A variable that stands for a class is bound to one. -/
theorem Sorted.bind_class (hs : s.Sorted C) {x : Var} (hx : C x) (k : PitchClass) :
    NumberedAs C (s.addBinding x (.val (.pitchClass k)))
      (s.numbered.addBinding x (.int k.toInt)) := by
  refine ⟨⟨?_, hs.domains, hs.differences⟩, rfl⟩
  exact List.forall_mem_cons.mpr ⟨⟨fun _ => ⟨k, rfl⟩, fun h => absurd hx h⟩, hs.bindings⟩

theorem Sorted.put (hs : s.Sorted C) {x : Var} (hx : ¬ C x) {d : Domain} (hd : d.Integral) :
    (s.put x d).Sorted C := by
  refine ⟨hs.bindings, fun y e he => ?_, hs.differences⟩
  by_cases hy : y = x
  · subst hy
    rw [stored?_put_self] at he
    cases he
    exact ⟨hx, hd⟩
  · exact hs.domains y e ((stored?_put_ne s d hy).symm.trans he)

theorem Sorted.withDifferences (hs : s.Sorted C) {cs : List Difference}
    (hcs : ∀ c ∈ cs, ∀ t ∈ c.terms, t.Numeric C) :
    NumberedAs C { s with differences := cs } { s.numbered with differences := cs } :=
  ⟨⟨hs.bindings, hs.domains, hcs⟩, rfl⟩

/-! ## Equations -/

theorem bindValue_numbered (hs : s.Sorted C) {x : Var} (hx : ¬ C x) (n : Int) :
    Alike (NumberedAs C) (s.bindValue x (.int n)) (s.numbered.bindValue x (.int n)) := by
  have hbound := hs.bind_numeric hx (Term.numeric_int C n)
  cases hd : s.stored? x with
  | none =>
      simp only [bindValue, stored?_numbered, hd]
      exact .ok hbound
  | some d =>
      have hint := (hs.domains x d hd).2
      obtain ⟨b, hb, -⟩ := Domain.contains_int hint n
      simp only [bindValue, stored?_numbered, hd, hb]
      cases b with
      | true => exact .ok hbound
      | false =>
          cases (Value.int n).quotedFault? with
          | none =>
              simp only [hint.requireShown]
              exact .error _
          | some fault => exact .error _

theorem bindVar_numbered (hs : s.Sorted C) {x y : Var} (hx : ¬ C x) (hy : ¬ C y) :
    Alike (NumberedAs C) (s.bindVar x y) (s.numbered.bindVar x y) := by
  have hmerge : ∀ m : Domain, m.Integral →
      Alike (NumberedAs C)
        (if m.isEmpty then Failure.raise (.deadEnd (.noSharedValue x y))
          else .ok ((s.put y m).addBinding x (.var y)))
        (if m.isEmpty then Failure.raise (.deadEnd (.noSharedValue x y))
          else .ok ((s.numbered.put y m).addBinding x (.var y))) := by
    intro m hm
    split
    · exact .error _
    · exact .ok ((hs.put hy hm).bind_numeric (t := .var y) hx hy)
  cases hd : s.stored? x with
  | none =>
      simp only [bindVar, stored?_numbered, hd]
      exact .ok (hs.bind_numeric (t := .var y) hx hy)
  | some d =>
      have hint := (hs.domains x d hd).2
      cases he : s.stored? y with
      | none =>
          simp only [bindVar, stored?_numbered, hd, he]
          exact hmerge d hint
      | some e =>
          simp only [bindVar, stored?_numbered, hd, he]
          exact hmerge _ (Domain.intersect_spec hint (hs.domains y e he).2).1

theorem equate_numbered (hs : s.Sorted C) {a b : Term} (ha : a.Numeric C) (hb : b.Numeric C) :
    Alike (NumberedAs C) (s.equate a b) (s.numbered.equate a b) := by
  have hwa := hs.walk_numeric ha
  have hwb := hs.walk_numeric hb
  simp only [equate, hs.walk_eq ha, hs.walk_eq hb]
  cases h : s.walk a with
  | var x =>
      rw [h] at hwa
      cases h' : s.walk b with
      | var y =>
          rw [h'] at hwb
          simp only [Substitution.binding?]
          by_cases hxy : x = y
          · simp only [if_pos hxy]
            exact .ok ⟨hs, rfl⟩
          · simp only [if_neg hxy]
            exact bindVar_numbered hs hwa hwb
      | val v =>
          rw [h'] at hwb
          obtain ⟨n, rfl, -⟩ := hwb
          exact bindValue_numbered hs hwa n
  | val v =>
      rw [h] at hwa
      obtain ⟨m, rfl, -⟩ := hwa
      cases h' : s.walk b with
      | var y =>
          rw [h'] at hwb
          exact bindValue_numbered hs hwb m
      | val w =>
          rw [h'] at hwb
          obtain ⟨n, rfl, -⟩ := hwb
          simp only [Substitution.binding?]
          cases (Value.int m).same (.int n) with
          | true => exact .ok ⟨hs, rfl⟩
          | false => exact .error _

/-- A class is given to a term that stands for one where its number is given. -/
theorem equate_class_numbered (hs : s.Sorted C) {t : Term} (ht : t.Classed C) (k : PitchClass) :
    Alike (NumberedAs C) (s.equate t (.val (.pitchClass k)))
      (s.numbered.equate t.numbered (.int k.toInt)) := by
  have hclass : s.walk (.val (.pitchClass k)) = .val (.pitchClass k) := Substitution.walk_val _ _
  have hnumber : s.numbered.walk (.int k.toInt) = .int k.toInt := Substitution.walk_val _ _
  simp only [equate, hclass, hnumber, walk_numbered]
  rcases hs.walk_classed ht with ⟨x, hw, hx⟩ | ⟨j, hw⟩
  · have hbare : s.stored? x = none := by
      cases hd : s.stored? x with
      | none => rfl
      | some d => exact absurd hx (hs.domains x d hd).1
    have hbound : s.bindValue x (.pitchClass k) = .ok (s.addBinding x (.val (.pitchClass k))) := by
      simp only [bindValue, hbare]
      rfl
    have hbound' : s.numbered.bindValue x (.int k.toInt) =
        .ok (s.numbered.addBinding x (.int k.toInt)) := by
      simp only [bindValue, stored?_numbered, hbare]
      rfl
    simp only [hw, Term.numbered, Substitution.binding?]
    show Alike _ (s.bindValue x (.pitchClass k)) (s.numbered.bindValue x (.int k.toInt))
    rw [hbound, hbound']
    exact .ok (hs.bind_class hx k)
  · simp only [hw, Term.numbered, Value.numbered, Substitution.binding?, Value.same_pitchClass,
      Value.same_int]
    cases j.toInt == k.toInt with
    | true => exact .ok ⟨hs, rfl⟩
    | false =>
        have hj := PitchClass.isWritable_toInt j
        have hk := PitchClass.isWritable_toInt k
        have hclasses :
            (Failure.deadEnd (.differentValues (.pitchClass j) (.pitchClass k))).worded =
              .deadEnd (.differentValues (.pitchClass j) (.pitchClass k)) := rfl
        have hnumbers : (Failure.deadEnd (.differentValues (.int j.toInt) (.int k.toInt))).worded =
            .deadEnd (.differentValues (.int j.toInt) (.int k.toInt)) := by
          refine Failure.worded_of_shown ?_
          simp [Failure.shown, DeadEnd.shown, Shown.fault?, Value.quotedFault?,
            Value.numberFault?, hj, hk]
        show Alike _ (.error (Failure.worded _)) (.error (Failure.worded _))
        rw [hclasses, hnumbers]
        exact .deadEnd _ _

/-! ## Restrictions -/

theorem settleDomain_numbered (hs : s.Sorted C) {x : Var} (hx : ¬ C x) {d : Domain}
    (hd : d.Integral) :
    Alike (NumberedAs C) (narrowVar.settleDomain s x d)
      (narrowVar.settleDomain s.numbered x d) := by
  unfold narrowVar.settleDomain
  split
  · exact .error _
  · cases hone : d.single? with
    | none => exact .ok ⟨hs.put hx hd, rfl⟩
    | some v =>
        obtain ⟨n, rfl, -⟩ := Domain.single?_eq_some hd hone
        exact .ok ((hs.put hx hd).bind_numeric hx (Term.numeric_int C n))

theorem narrow_numbered (hs : s.Sorted C) {t : Term} (ht : t.Numeric C) {d : Domain}
    (hd : d.Integral) :
    Alike (NumberedAs C) (s.narrow t (.domain d)) (s.numbered.narrow t (.domain d)) := by
  have hw := hs.walk_numeric ht
  simp only [narrow, hs.walk_eq ht]
  cases h : s.walk t with
  | val v =>
      rw [h] at hw
      obtain ⟨n, rfl, -⟩ := hw
      obtain ⟨b, hb, -⟩ := Domain.contains_int hd n
      simp only [Allowed.admits, hb]
      cases b with
      | true => exact .ok ⟨hs, rfl⟩
      | false => exact .error _
  | var x =>
      rw [h] at hw
      cases hc : s.stored? x with
      | none =>
          simp only [narrowVar, stored?_numbered, hc]
          exact settleDomain_numbered hs hw hd
      | some current =>
          have hint := (Domain.intersect_spec (hs.domains x current hc).2 hd).1
          simp only [narrowVar, stored?_numbered, hc, Allowed.toDomain]
          show Alike (NumberedAs C) (if _ then _ else _) (if _ then _ else _)
          split
          · exact .ok ⟨hs, rfl⟩
          · exact settleDomain_numbered hs hw hint

theorem narrowTo_numbered (hs : s.Sorted C) {t : Term} (ht : t.Numeric C) {source : Option Domain}
    (hsource : ∀ e, source = some e → e.Integral) {move : Domain → Except Failure Domain}
    (hmove : ∀ e : Domain, e.Integral → ∃ m, move e = .ok m ∧ m.Integral) :
    Alike (NumberedAs C) (s.narrowTo t source move) (s.numbered.narrowTo t source move) := by
  cases source with
  | none => exact .ok ⟨hs, rfl⟩
  | some e =>
      obtain ⟨m, hm, hint⟩ := hmove e (hsource e rfl)
      simp only [narrowTo, hm]
      exact narrow_numbered hs ht hint

/-- Two terms are narrowed against each other. -/
theorem narrowBoth_numbered (hs : s.Sorted C) {t u : Term} (ht : t.Numeric C) (hu : u.Numeric C)
    {moveT moveU : Domain → Except Failure Domain}
    (hmoveT : ∀ e : Domain, e.Integral → ∃ m, moveT e = .ok m ∧ m.Integral)
    (hmoveU : ∀ e : Domain, e.Integral → ∃ m, moveU e = .ok m ∧ m.Integral) :
    Alike (fun r r' => NumberedAs C r.1 r'.1 ∧ r'.2 = r.2)
      (s.narrowTo t (s.domain? u) moveT >>= fun v =>
        v.narrowTo u (s.domain? t) moveU >>= fun w => pure (w, false))
      (s.numbered.narrowTo t (s.domain? u) moveT >>= fun v =>
        v.narrowTo u (s.domain? t) moveU >>= fun w => pure (w, false)) := by
  refine (narrowTo_numbered hs ht (fun e => hs.domain?_integral) hmoveT).bind ?_
  rintro v _ ⟨hv, rfl⟩
  refine (narrowTo_numbered hv hu (fun e => hs.domain?_integral) hmoveU).bind ?_
  exact fun w w' hw => .ok ⟨hw, rfl⟩

/-! ## Differences -/

theorem settle_numbered (hs : s.Sorted C) {c : Difference} (hc : ∀ t ∈ c.terms, t.Numeric C) :
    Alike (fun r r' => NumberedAs C r.1 r'.1 ∧ r'.2 = r.2) (s.settle c) (s.numbered.settle c) := by
  obtain ⟨a, b, d⟩ := c
  have hshift : ∀ k e, Domain.Integral e → ∃ m, e.shift (.int k) = .ok m ∧ m.Integral :=
    fun k e he => (Domain.shift_spec he k).imp fun m hm => ⟨hm.1, hm.2.1⟩
  have hreflect : ∀ k e, Domain.Integral e → ∃ m, e.reflect (.int k) = .ok m ∧ m.Integral :=
    fun k e he => (Domain.reflect_spec he k).imp fun m hm => ⟨hm.1, hm.2.1⟩
  have hequate : ∀ {t : Term}, t.Numeric C → ∀ n : Int,
      Alike (fun r r' : State × Bool => NumberedAs C r.1 r'.1 ∧ r'.2 = r.2)
        (s.equate t (.int n) >>= fun u => pure (u, true))
        (s.numbered.equate t (.int n) >>= fun u => pure (u, true)) := by
    intro t ht n
    refine (equate_numbered hs ht (Term.numeric_int C n)).bind ?_
    exact fun u u' hu => .ok ⟨hu, rfl⟩
  obtain ⟨ha, hb, hd⟩ := Difference.forall_terms.mp hc
  have hwa := hs.walk_numeric ha
  have hwb := hs.walk_numeric hb
  have hwd := hs.walk_numeric hd
  simp only [settle, hs.walk_eq ha, hs.walk_eq hb, hs.walk_eq hd]
  cases hxa : s.walk a with
  | val u =>
      rw [hxa] at hwa
      obtain ⟨m, rfl, -⟩ := hwa
      cases hxb : s.walk b with
      | val v =>
          rw [hxb] at hwb
          obtain ⟨n, rfl, -⟩ := hwb
          cases hxd : s.walk d with
          | val w =>
              rw [hxd] at hwd
              obtain ⟨k, rfl, -⟩ := hwd
              simp only [Value.sub_int]
              show Alike _ (if _ then _ else _) (if _ then _ else _)
              split
              · exact .ok ⟨⟨hs, rfl⟩, rfl⟩
              · exact .error _
          | var z =>
              rw [hxd] at hwd
              exact hequate hwd (m - n)
      | var y =>
          rw [hxb] at hwb
          cases hxd : s.walk d with
          | val w =>
              rw [hxd] at hwd
              obtain ⟨k, rfl, -⟩ := hwd
              exact hequate hwb (m - k)
          | var z =>
              rw [hxd] at hwd
              simp only [hs.domain?_eq hwb, hs.domain?_eq hwd]
              exact narrowBoth_numbered hs hwb hwd (hreflect m) (hreflect m)
  | var x =>
      rw [hxa] at hwa
      cases hxb : s.walk b with
      | val v =>
          rw [hxb] at hwb
          obtain ⟨n, rfl, -⟩ := hwb
          cases hxd : s.walk d with
          | val w =>
              rw [hxd] at hwd
              obtain ⟨k, rfl, -⟩ := hwd
              exact hequate hwa (n + k)
          | var z =>
              rw [hxd] at hwd
              simp only [hs.domain?_eq hwa, hs.domain?_eq hwd]
              exact narrowBoth_numbered hs hwa hwd (hshift n) (hshift (-n))
      | var y =>
          rw [hxb] at hwb
          cases hxd : s.walk d with
          | val w =>
              rw [hxd] at hwd
              obtain ⟨k, rfl, -⟩ := hwd
              simp only [hs.domain?_eq hwa, hs.domain?_eq hwb]
              exact narrowBoth_numbered hs hwa hwb (hshift k) (hshift (-k))
          | var z => exact .ok ⟨⟨hs, rfl⟩, rfl⟩

theorem settleAll_numbered (hs : s.Sorted C) {cs : List Difference}
    (hcs : ∀ c ∈ cs, ∀ t ∈ c.terms, t.Numeric C) :
    Alike (fun r r' => NumberedAs C r.1 r'.1 ∧ r'.2 = r.2 ∧ ∀ c ∈ r.2, ∀ t ∈ c.terms, t.Numeric C)
      (s.settleAll cs) (s.numbered.settleAll cs) := by
  induction cs generalizing s with
  | nil => exact .ok ⟨⟨hs, rfl⟩, rfl, List.forall_mem_nil _⟩
  | cons c rest ih =>
      obtain ⟨hc, hrest⟩ := List.forall_mem_cons.mp hcs
      simp only [settleAll]
      refine (settle_numbered hs hc).bind fun r r' hr => ?_
      obtain ⟨t, done⟩ := r
      obtain ⟨t', done'⟩ := r'
      obtain ⟨⟨ht, ht'⟩, hdone⟩ := hr
      cases ht'
      cases hdone
      refine (ih ht hrest).bind fun r r' hr => ?_
      obtain ⟨u, pending⟩ := r
      obtain ⟨u', pending'⟩ := r'
      obtain ⟨hu, hpending, hnumeric⟩ := hr
      cases hpending
      refine .ok ⟨hu, rfl, ?_⟩
      cases done with
      | true => exact hnumeric
      | false => exact List.forall_mem_cons.mpr ⟨hc, hnumeric⟩

theorem pass_numbered (hs : s.Sorted C) : Alike (NumberedAs C) s.pass s.numbered.pass := by
  unfold pass
  refine (settleAll_numbered hs hs.differences).bind fun r r' hr => ?_
  obtain ⟨t, pending⟩ := r
  obtain ⟨t', pending'⟩ := r'
  obtain ⟨⟨ht, ht'⟩, hpending, hnumeric⟩ := hr
  cases ht'
  cases hpending
  exact .ok (ht.withDifferences hnumeric)

theorem propagate_numbered (hs : s.Sorted C) :
    Alike (NumberedAs C) s.propagate s.numbered.propagate := by
  induction s using propagate.induct with
  | case1 s ih =>
      rw [propagate, propagate]
      refine (pass_numbered hs).bind fun t t' ht => ?_
      obtain ⟨ht, rfl⟩ := ht
      simp only [ht.rank_eq, hs.rank_eq]
      split
      next hbelow => exact ih t hbelow ht
      next => exact .ok ⟨ht, rfl⟩

/-! ## Operations -/

theorem bind_numbered (hs : s.Sorted C) {a b : Term} (ha : a.Numeric C) (hb : b.Numeric C) :
    Alike (NumberedAs C) (s.bind a b) (s.numbered.bind a b) := by
  refine (equate_numbered hs ha hb).bind fun t t' ht => ?_
  obtain ⟨ht, rfl⟩ := ht
  exact propagate_numbered ht

/-- A class is given to a term that stands for one where its number is given. -/
theorem bind_class_numbered (hs : s.Sorted C) {t : Term} (ht : t.Classed C) (k : PitchClass) :
    Alike (NumberedAs C) (s.bind t (.val (.pitchClass k)))
      (s.numbered.bind t.numbered (.int k.toInt)) := by
  refine (equate_class_numbered hs ht k).bind fun u u' hu => ?_
  obtain ⟨hu, rfl⟩ := hu
  exact propagate_numbered hu

theorem restrict_numbered (hs : s.Sorted C) {t : Term} (ht : t.Numeric C) {d : Domain}
    (hd : d.Integral) :
    Alike (NumberedAs C) (s.restrict t (.domain d)) (s.numbered.restrict t (.domain d)) := by
  refine (narrow_numbered hs ht hd).bind fun u u' hu => ?_
  obtain ⟨hu, rfl⟩ := hu
  exact propagate_numbered hu

theorem assertDifference_numbered (hs : s.Sorted C) {a b d : Term} (ha : a.Numeric C)
    (hb : b.Numeric C) (hd : d.Numeric C) :
    Alike (NumberedAs C) (s.assertDifference a b d) (s.numbered.assertDifference a b d) := by
  refine propagate_numbered (hs.withDifferences fun c hc => ?_).1
  rcases List.mem_append.mp hc with hc | hc
  · exact hs.differences c hc
  · cases List.mem_singleton.mp hc
    exact Difference.forall_terms.mpr ⟨ha, hb, hd⟩

end State

end Consonance
