import Consonance.Proofs.Limits

/-!
# Described rows under a limit

The rows of a search are described one after the other, and a row that cannot be described spoils
the whole answer.  What lies beyond a limit is neither searched for nor described, so an answer
with a limit could be given where the answer in full fails.

This cannot happen where the rows are *uniform*: every row can be described and the search does not
fail, or no row can be described (`Answers.Uniform`).  Then an answer with a limit is the beginning
of the answer in full (`Answers.Uniform.exists_full`).
-/

namespace Consonance

variable {α β : Type} {describe : α → Except Failure β} {P : β → Prop}

/-- Where all answers can be described, the first of them are described as they are among all. -/
theorem exists_mapM_take {as : List α} (h : ∀ a ∈ as, ∃ b, describe a = .ok b) :
    ∃ bs, as.mapM describe = .ok bs ∧ ∀ n, (as.take n).mapM describe = .ok (bs.take n) := by
  induction as with
  | nil => exact ⟨[], rfl, fun n => by rw [List.take_nil, List.take_nil]; rfl⟩
  | cons a rest ih =>
      obtain ⟨⟨b, hb⟩, hrest⟩ := List.forall_mem_cons.mp h
      obtain ⟨bs, hall, htake⟩ := ih hrest
      refine ⟨b :: bs, ?_, fun n => ?_⟩
      · rw [List.mapM_cons]
        exact bind_eq_ok.mpr ⟨b, hb, bind_eq_ok.mpr ⟨bs, hall, rfl⟩⟩
      · cases n with
        | zero => rfl
        | succ n =>
            rw [List.take_succ_cons, List.mapM_cons]
            exact bind_eq_ok.mpr ⟨b, hb, bind_eq_ok.mpr ⟨_, htake n, rfl⟩⟩

namespace Answers

/-- All answers can be described, with the property, and the stream does not fail, or no answer
can be described. -/
inductive Uniform (describe : α → Except Failure β) (P : β → Prop) (xs : Answers α) : Prop where
  | described (ending : xs.ending = none)
      (each : ∀ a ∈ xs.items, ∃ b, describe a = .ok b ∧ P b) : Uniform describe P xs
  | rejected (each : ∀ a ∈ xs.items, ∃ f, describe a = .error f) : Uniform describe P xs

theorem Uniform.of_empty {xs : Answers α} (h : xs.items = []) : Uniform describe P xs :=
  .rejected fun _ ha => absurd (h ▸ ha) List.not_mem_nil

/-- Where no answer can be described, the first answers are described only if there are none. -/
theorem piece_rejected {xs : Answers α} (h : ∀ a ∈ xs.items, ∃ f, describe a = .error f) {n : Nat}
    (hn : 0 < n) {as : List α} {bs : List β} (hpiece : xs.piece 0 n = .ok as)
    (hbs : as.mapM describe = .ok bs) : xs.ending = none ∧ xs.items = [] ∧ bs = [] := by
  have has : as = xs.items.take n := eq_of_piece hpiece
  cases hitems : xs.items with
  | nil =>
      rw [hitems, List.take_nil] at has
      subst has
      cases hbs
      refine ⟨?_, rfl, rfl⟩
      cases hending : xs.ending with
      | none => rfl
      | some f =>
          have hfails := piece_of_ending (Nat.zero_le _) (by rw [hitems]; exact hn) hending
          exact nomatch hpiece.symm.trans hfails
  | cons a rest =>
      obtain ⟨n, rfl⟩ := Nat.exists_eq_succ_of_ne_zero (Nat.ne_of_gt hn)
      rw [hitems, List.take_succ_cons] at has
      subst has
      obtain ⟨f, hf⟩ := h a (hitems ▸ List.mem_cons_self ..)
      rw [List.mapM_cons] at hbs
      obtain ⟨b, hb, -⟩ := bind_eq_ok.mp hbs
      exact nomatch hf.symm.trans hb

variable {describe : Row → Except Failure β} {goal : Goal} {query : List Term}
  {space : PitchSpace}

/-- Where the rows are uniform, an answer with a limit is the beginning of the answer in full. -/
theorem Uniform.exists_full (h : (solutions goal query space).Uniform describe P) {limit : Value}
    {n : Nat} (hlimit : limit.whole? = some (n : Int)) (hpos : 0 < n)
    (hle : (n : Int) ≤ greatestCount) {shown : List β}
    (hshown : (do (← run goal query limit space).mapM describe) = .ok shown) :
    ∃ found, (do (← run goal query .nothing space).mapM describe) = .ok found ∧
      shown = found.take n ∧ ∀ b ∈ found, P b := by
  have hfull : run goal query .nothing space = _ := Answers.all_eq (solutions goal query space)
  obtain ⟨rows, hrows, hshown⟩ := bind_eq_ok.mp hshown
  rw [run_eq_piece hlimit hle] at hrows
  cases h with
  | described ending each =>
      have heach : ∀ a ∈ (solutions goal query space).items, ∃ b, describe a = .ok b :=
        fun a ha => (each a ha).imp fun b hb => hb.1
      obtain ⟨found, hall, htake⟩ := exists_mapM_take heach
      rw [eq_of_piece hrows, List.drop_zero, htake n] at hshown
      rw [ending] at hfull
      refine ⟨found, bind_eq_ok.mpr ⟨_, hfull, hall⟩, (Except.ok.inj hshown).symm, fun b hb => ?_⟩
      obtain ⟨a, ha, hab⟩ := Domain.exists_of_mapM hall hb
      obtain ⟨c, hc, hP⟩ := each a ha
      exact Except.ok.inj (hc.symm.trans hab) ▸ hP
  | rejected each =>
      obtain ⟨hending, hitems, rfl⟩ := piece_rejected each hpos hrows hshown
      simp only [hending, hitems] at hfull
      exact ⟨[], bind_eq_ok.mpr ⟨[], hfull, rfl⟩, List.take_nil.symm, nofun⟩

end Answers

end Consonance
