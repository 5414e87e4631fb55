import Consonance.Proofs.Untouched

/-!
# Rows of terms

A query for given and open arguments gives rows that agree with what is given (`Term.allAgree`).
Where the open arguments are distinct variables, every such row is that of an assignment
(`Term.exists_eval`).  A search that gives rows in a fixed order is compared with a table by its
members only, since an ascending list is known by them (`eq_of_ascending`).
-/

namespace Consonance

/-- Whether a term may be an integer: a constant is that integer only. -/
def Term.agrees : Term → Int → Bool
  | .var _, _ => true
  | .val v, n => v.whole? == some n

/-- Whether the terms may be the integers of a row. -/
def Term.allAgree : List Term → List Int → Bool
  | [], [] => true
  | t :: ts, n :: ns => t.agrees n && allAgree ts ns
  | _, _ => false

theorem Term.allAgree_eval {ts : List Term} (hts : ∀ t ∈ ts, t.Over fun _ => True)
    (ρ : Assignment) : Term.allAgree ts (ts.map (Term.eval ρ)) = true := by
  induction ts with
  | nil => rfl
  | cons t ts ih =>
      obtain ⟨ht, hrest⟩ := List.forall_mem_cons.mp hts
      rw [List.map_cons, allAgree, ih hrest, Bool.and_true]
      cases t with
      | var x => rfl
      | val v =>
          obtain ⟨n, rfl, -⟩ := ht
          exact beq_self_eq_true (some n)

/-- A constant among the terms is in every row that agrees with them. -/
theorem Term.mem_of_allAgree {ts : List Term} {row : List Int} {n : Int}
    (h : Term.allAgree ts row = true) (hn : .int n ∈ ts) : n ∈ row := by
  induction ts generalizing row with
  | nil => cases hn
  | cons t ts ih =>
      cases row with
      | nil => cases h
      | cons m ms =>
          obtain ⟨hm, hms⟩ := Bool.and_eq_true_iff.mp h
          rcases List.mem_cons.mp hn with rfl | hn
          · exact List.mem_cons.mpr (.inl (Option.some.inj (beq_iff_eq.mp hm)))
          · exact List.mem_cons_of_mem m (ih hms hn)

/-- The variables of the terms are distinct. -/
def Term.Distinct (ts : List Term) : Prop := ts.Pairwise fun t u => ∀ x, t = .var x → u ≠ .var x

/-- Terms of distinct variables take every row that agrees with them. -/
theorem Term.exists_eval {ts : List Term} {row : List Int} (hts : ∀ t ∈ ts, t.Over fun _ => True)
    (hdistinct : Term.Distinct ts) (h : Term.allAgree ts row = true) :
    ∃ ρ : Assignment, ts.map (Term.eval ρ) = row := by
  induction ts generalizing row with
  | nil =>
      cases row with
      | nil => exact ⟨fun _ => 0, rfl⟩
      | cons n ns => cases h
  | cons t ts ih =>
      cases row with
      | nil => cases h
      | cons n ns =>
          obtain ⟨ht, hrest⟩ := List.forall_mem_cons.mp hts
          obtain ⟨hne, hdistinct⟩ := List.pairwise_cons.mp hdistinct
          obtain ⟨hn, hns⟩ := Bool.and_eq_true_iff.mp h
          obtain ⟨ρ, hρ⟩ := ih hrest hdistinct hns
          cases t with
          | var x =>
              refine ⟨Function.update ρ x n, ?_⟩
              rw [List.map_cons, Term.eval_var, Function.update_self, ← hρ]
              refine congrArg (n :: ·) (List.map_congr_left fun u hu => ?_)
              exact Term.eval_update (hne u hu x rfl) ρ n
          | val v =>
              obtain ⟨m, rfl, -⟩ := ht
              refine ⟨ρ, ?_⟩
              rw [List.map_cons, Term.eval_int, hρ]
              exact congrArg (· :: ns) (Option.some.inj (beq_iff_eq.mp hn))

/-- Strictly ascending lists with the same members are the same. -/
theorem eq_of_ascending {α : Type} [LT α] [Std.Asymm fun a b : α => a < b] {as bs : List α}
    (has : as.Pairwise (· < ·)) (hbs : bs.Pairwise (· < ·)) (hmem : ∀ a, a ∈ as ↔ a ∈ bs) :
    as = bs := by
  have hasymm : ∀ a b : α, a < b → ¬ b < a := Std.Asymm.asymm
  have hperm := (List.perm_ext_iff_of_nodup has.nodup hbs.nodup).mpr hmem
  exact hperm.eq_of_pairwise (fun a b _ _ hab hba => absurd hba (hasymm a b hab)) has hbs

end Consonance
