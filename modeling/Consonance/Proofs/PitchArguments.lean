import Mathlib.Algebra.Ring.Nat
import Consonance.Proofs.Rows
import Consonance.Query.Solution

/-!
# Pitch arguments

The pitches that a query is asked with are open or given, as whole numbers or as names of notes
(`PitchArgument`).  A note has one octave of few enough digits, and so its pitch can be written.

Each argument becomes a term that allows the same pitches (`Builder.Poses`).  Open arguments become
variables of their own, so the terms of several arguments are distinct (`Builder.InTurn.distinct`).
-/

namespace Consonance

open Consonance.Text

/-! ## Octaves of few digits -/

namespace Number

theorem ofDigits_lt {digits : List Nat} (h : ∀ d ∈ digits, d < 10) :
    ofDigits digits < 10 ^ digits.length := by
  induction digits using List.reverseRecOn with
  | nil => decide
  | append_singleton digits d ih =>
      obtain ⟨hdigits, hd⟩ := List.forall_mem_append.mp h
      have hlast : d < 10 := hd d (List.mem_singleton_self d)
      have hrest := ih hdigits
      rw [ofDigits_append_singleton, List.length_append, List.length_singleton, Nat.pow_succ]
      omega

/-- A class in an octave of few digits can be written. -/
theorem isWritable_place {c : PitchClass} {octave : Int} {k : Nat} (hk : k + 2 ≤ digitLimit)
    (h : octave.natAbs < 10 ^ k) : isWritable (c.toInt + 12 * (octave + 1)) = true := by
  have hlow := c.toInt_nonneg
  have hhigh := c.toInt_lt
  refine isWritable_of_natAbs_lt hk ?_
  show _ < 10 ^ (k + 2)
  have hpos : 0 < 10 ^ k := Nat.pow_pos (by decide)
  rw [Nat.pow_add]
  omega

end Number

theorem Text.decimalValue?_lt {c : Char} {d : Nat} (h : decimalValue? c = some d) : d < 10 := by
  unfold decimalValue? at h
  split at h
  · split at h
    next hdigit =>
      simp only [Char.isDigit, Bool.and_eq_true, decide_eq_true_eq, ge_iff_le,
        UInt32.le_iff_toNat_le] at hdigit
      cases h
      have hnine : c.toNat ≤ 57 := hdigit.2
      show c.toNat - 48 < 10
      omega
    next => cases h
  · exact decimalValueIn_lt h

namespace NoteName

variable {cs : List Char} {n : NoteName}

theorem toNat_letter_lt {c : Char} (h : isLetter c = true) : c.toNat < 128 := by
  simp only [isLetter, Bool.or_eq_true, Bool.and_eq_true, decide_eq_true_eq, Char.le_def,
    UInt32.le_iff_toNat_le] at h
  have hG : 'G'.val.toNat = 71 := rfl
  have hg : 'g'.val.toNat = 103 := rfl
  show c.val.toNat < 128
  omega

/-- What holds of the letters of a table of characters holds of every letter of the scale. -/
theorem of_letter {P : Char → Prop} (htable : ∀ n < 128, isLetter (Char.ofNat n) = true →
    P (Char.ofNat n)) {c : Char} (h : isLetter c = true) : P c := by
  have hc := htable c.toNat (toNat_letter_lt h)
  rw [Char.ofNat_toNat] at hc
  exact hc h

/-- No letter of the scale looks like a digit. -/
theorem isDigitLike_letter {c : Char} (h : isLetter c = true) : isDigitLike c = false := by
  have htable : ∀ n < 128, isLetter (Char.ofNat n) = true → isDigitLike (Char.ofNat n) = false := by
    decide +kernel
  exact of_letter (P := fun c => isDigitLike c = false) htable h

theorem exists_letter (h : split cs = some n) : ∃ c ∈ cs, isLetter c = true := by
  unfold split at h
  split at h
  · cases h
  next letter rest hcs =>
    split at h
    next hletter =>
      have hmem : letter ∈ cs.dropWhile isBlank := hcs ▸ List.mem_cons_self ..
      exact ⟨letter, (List.dropWhile_sublist _).subset hmem, hletter⟩
    next => cases h

/-- The name of a note is not read as a number. -/
theorem not_isNumeral (h : split cs = some n) : isNumeral cs = false := by
  obtain ⟨c, hc, hletter⟩ := exists_letter h
  have hminus : c ∉ cs.takeWhile (· == '-') := by
    intro hmem
    have heq : (c == '-') = true := List.mem_takeWhile_imp (p := (· == '-')) hmem
    rw [eq_of_beq heq] at hletter
    exact absurd hletter (by decide)
  have hrest : c ∈ cs.dropWhile (· == '-') := by
    rw [← List.takeWhile_append_dropWhile (p := (· == '-')) (l := cs)] at hc
    exact (List.mem_append.mp hc).resolve_left hminus
  cases hnumeral : isNumeral cs with
  | false => rfl
  | true =>
      have hall := List.all_eq_true.mp (Bool.and_eq_true_iff.mp hnumeral).2 c hrest
      rw [isDigitLike_letter hletter] at hall
      cases hall

/-- An octave of few digits can be read, and is not large. -/
theorem exists_octave {k : Nat} (hk : k ≤ Number.digitLimit) (h : n.digits.length ≤ k) :
    ∃ o, n.octave = .ok o ∧ o.natAbs < 10 ^ k := by
  refine ⟨_, if_neg (Nat.not_lt.mpr (Nat.le_trans h hk)), ?_⟩
  have hdigits : ∀ d ∈ n.digits.filterMap decimalValue?, d < 10 := by
    intro d hd
    obtain ⟨c, -, hc⟩ := List.mem_filterMap.mp hd
    exact decimalValue?_lt hc
  have hlength := Nat.le_trans (List.length_filterMap_le decimalValue? n.digits) h
  have hlt := Nat.lt_of_lt_of_le (Number.ofDigits_lt hdigits)
    (Nat.pow_le_pow_right (by decide) hlength)
  split
  · rwa [Int.natAbs_neg, Int.natAbs_natCast]
  · rwa [Int.natAbs_natCast]

/-- A text that is read as a class and an octave stands for the pitch of the class in the octave. -/
theorem resolves_of_read {s : String} {c : PitchClass} {o : Int}
    (hread : read (strip s) = .ok (c, o)) :
    resolvePitch (.text s) = .ok (.int (c.toInt + 12 * (o + 1))) := by
  cases hsplit : split (strip s).toList with
  | none =>
      simp only [read, hsplit] at hread
      cases hread
  | some n =>
      refine bind_eq_ok.mpr ⟨s, rfl, ?_⟩
      rw [if_neg (by simp [not_isNumeral hsplit])]
      exact bind_eq_ok.mpr ⟨(c, o), hread, rfl⟩

/-- The name of a note stands for the pitch of its class in its octave. -/
theorem resolves {s : String} {c : PitchClass} {k : Nat} (hk : k + 2 ≤ Number.digitLimit)
    (hsplit : split (strip s).toList = some n)
    (hclass : PitchClass.ofValue (.text n.className) = .ok c)
    (hshort : n.digits.length ≤ k) :
    ∃ p, resolvePitch (.text s) = .ok (.int p) ∧ Number.isWritable p = true := by
  obtain ⟨o, ho, hsmall⟩ := exists_octave (by omega) hshort
  have hread : read (strip s) = .ok (c, o) := by
    simp only [read, hsplit, hclass, ho]
    rfl
  exact ⟨c.toInt + 12 * (o + 1), resolves_of_read hread, Number.isWritable_place hk hsmall⟩

end NoteName

/-! ## Arguments -/

/-- The value is absent, a whole number that can be written, or the name of a note with an octave
of at most 4000 digits. -/
inductive PitchArgument : Value → Prop where
  | nothing : PitchArgument .nothing
  | whole {n : Int} (written : Number.isWritable n = true) : PitchArgument (.int n)
  | note {s : String} {name : NoteName} {c : PitchClass}
      (isName : NoteName.split (strip s).toList = some name)
      (isClass : PitchClass.ofValue (.text name.className) = .ok c)
      (short : name.digits.length ≤ 4000) : PitchArgument (.text s)

/-- The argument is absent or stands for the pitch. -/
def Value.AllowsPitch (v : Value) (pitch : Int) : Prop :=
  v = .nothing ∨ resolvePitch v = .ok (.int pitch)

/-- A pitch argument that is given stands for an integer that can be written. -/
theorem PitchArgument.resolves {v : Value} (h : PitchArgument v) (hgiven : v ≠ .nothing) :
    ∃ n, resolvePitch v = .ok (.int n) ∧ Number.isWritable n = true := by
  cases h with
  | nothing => exact absurd rfl hgiven
  | whole written => exact ⟨_, rfl, written⟩
  | note isName isClass short => exact NoteName.resolves (by decide) isName isClass short

namespace Builder

theorem bind_eq {α β : Type} {x : Builder α} {k : α → Builder β} {n m : Nat} {a : α}
    {r : Except Failure (β × Nat)} (hx : x n = .ok (a, m)) (hk : k a m = r) : (x >>= k) n = r := by
  show (x n >>= fun p => k p.1 p.2) = r
  rw [hx]
  exact hk

/-- If the term is a variable, it is one of those numbered from `n` up to `m`. -/
structure Numbers (n : Nat) (t : Term) (m : Nat) : Prop where
  le : n ≤ m
  fresh : ∀ x, t = .var x → ∃ i, x = .fresh i ∧ n ≤ i ∧ i < m

theorem numbers_fresh (n : Nat) : Numbers n (.var (.fresh n)) (n + 1) where
  le := Nat.le_succ n
  fresh _ hx := ⟨n, (Term.var.inj hx).symm, Nat.le_refl n, Nat.lt_succ_self n⟩

theorem numbers_val (n : Nat) (v : Value) : Numbers n (.val v) n := ⟨Nat.le_refl n, nofun⟩

/-- The terms are made one after the other, and the variables among them are numbered in turn. -/
inductive InTurn : Nat → List Term → Nat → Prop where
  | nil (n : Nat) : InTurn n [] n
  | cons {n k m : Nat} {t : Term} {ts : List Term} (first : Numbers n t k)
      (rest : InTurn k ts m) : InTurn n (t :: ts) m

theorem InTurn.fresh {n m : Nat} {ts : List Term} (h : InTurn n ts m) :
    ∀ t ∈ ts, ∀ x, t = .var x → ∃ i, x = .fresh i ∧ n ≤ i := by
  induction h with
  | nil n => exact nofun
  | cons first _ ih =>
      refine List.forall_mem_cons.mpr ⟨fun x hx => ?_, fun t ht x hx => ?_⟩
      · obtain ⟨i, hi, hle, -⟩ := first.fresh x hx
        exact ⟨i, hi, hle⟩
      · obtain ⟨i, hi, hle⟩ := ih t ht x hx
        exact ⟨i, hi, Nat.le_trans first.le hle⟩

/-- Terms that are made one after the other have no variable in common. -/
theorem InTurn.distinct {n m : Nat} {ts : List Term} (h : InTurn n ts m) : Term.Distinct ts := by
  induction h with
  | nil => exact .nil
  | cons first rest ih =>
      refine List.pairwise_cons.mpr ⟨fun u hu x hx hux => ?_, ih⟩
      obtain ⟨i, rfl, -, hi⟩ := first.fresh x hx
      obtain ⟨j, heq, hj⟩ := rest.fresh u hu _ hux
      cases heq
      omega

section

variable {v : Value} {t : Term} {n m : Nat}

theorem openOr_numbers (h : openOr (.val v) n = .ok (t, m)) : Numbers n t m := by
  cases v with
  | nothing =>
      cases h
      exact numbers_fresh n
  | _ =>
      cases h
      exact numbers_val n _

theorem pitchArgument_numbers (h : pitchArgument v n = .ok (t, m)) : Numbers n t m := by
  unfold pitchArgument at h
  split at h
  · cases h
    exact numbers_fresh n
  · obtain ⟨⟨p, k⟩, hp, h⟩ := bind_eq_ok.mp h
    cases h
    obtain ⟨w, -, hlift⟩ := bind_eq_ok.mp hp
    cases hlift
    exact numbers_val n p

/-- A class that is given is read before the search. -/
theorem pitchClass_numbers (h : pitchClass (.val v) n = .ok (t, m)) :
    Numbers n t m ∧ ∀ w, t = .val w → ∃ j, w = .pitchClass j := by
  cases v with
  | nothing =>
      cases h
      exact ⟨numbers_fresh n, nofun⟩
  | pitchClass j =>
      cases h
      exact ⟨numbers_val n _, fun w hw => ⟨j, (Term.val.inj hw).symm⟩⟩
  | text s =>
      obtain ⟨⟨j, k⟩, hj, h⟩ := bind_eq_ok.mp h
      cases h
      obtain ⟨i, -, hlift⟩ := bind_eq_ok.mp hj
      cases hlift
      exact ⟨numbers_val n _, fun w hw => ⟨j, (Term.val.inj hw).symm⟩⟩
  | _ => cases h

end

/-- An argument has become a term that allows the same pitches.  If it is a variable, that is one
of those numbered from `n` up to `m`. -/
structure Poses (v : Value) (n : Nat) (t : Term) (m : Nat) : Prop where
  isOver : t.Over fun k => Number.isWritable k = true
  agrees : ∀ p, t.agrees p = true ↔ v.AllowsPitch p
  le : n ≤ m
  fresh : ∀ x, t = .var x → ∃ i, x = .fresh i ∧ n ≤ i ∧ i < m

theorem exists_poses {v : Value} (h : PitchArgument v) (n : Nat) :
    ∃ t m, pitchArgument v n = .ok (t, m) ∧ Poses v n t m := by
  by_cases hgiven : v = .nothing
  · subst hgiven
    refine ⟨.var (.fresh n), n + 1, rfl, trivial, fun p => ⟨fun _ => .inl rfl, fun _ => rfl⟩,
      Nat.le_succ n, ?_⟩
    rintro _ ⟨⟩
    exact ⟨n, rfl, Nat.le_refl n, Nat.lt_succ_self n⟩
  · obtain ⟨p, hp, hwritten⟩ := h.resolves hgiven
    refine ⟨.int p, n, ?_, Term.over_int hwritten, fun p' => ?_, Nat.le_refl n, nofun⟩
    · unfold pitchArgument
      split
      next => exact absurd rfl hgiven
      next =>
        rw [hp]
        rfl
    · have hsame : (Term.int p).agrees p' = true ↔ p = p' := by simp [Term.agrees]
      rw [hsame, Value.AllowsPitch, hp]
      constructor
      · rintro rfl
        exact .inr rfl
      · rintro (hnothing | heq)
        · exact absurd hnothing hgiven
        · cases heq
          rfl

theorem Poses.numbers {v : Value} {n m : Nat} {t : Term} (h : Poses v n t m) : Numbers n t m :=
  ⟨h.le, h.fresh⟩

end Builder

end Consonance
