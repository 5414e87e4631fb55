import Consonance.Solver.State
import Mathlib.Data.List.Chain
import Mathlib.Data.List.Perm.Subperm
import Mathlib.Data.List.TakeWhile

/-!
# Domains of integers

A domain is *integral* when its values are integers in strictly ascending order.
All domains that a search over integers meets are integral: the intervals, the
domains of listed integers, and whatever `intersect`, `filter`, `shift` and
`reflect` make of them.

`n ∈ d` says that the integer `n` is a value of the domain `d`.  Each operation
has one lemma that gives its members and says that it stays integral.  On
integral domains none of them fails.  `same` and `isEmpty` mean what they say of
the members, since the order leaves one list for each set of integers.
-/

namespace Consonance.Domain

/-- An integer is a value of the domain. -/
instance : Membership Int Domain := ⟨fun d n => Value.int n ∈ d.values⟩

/-- The domain of a list of integers, as they stand. -/
def ofInts (ns : List Int) : Domain := ⟨ns.map Value.int⟩

/-- The values are integers in ascending order. -/
def Integral (d : Domain) : Prop := ∃ ns : List Int, ns.Pairwise (· < ·) ∧ d = ofInts ns

theorem integral_ofInts {ns : List Int} (h : ns.Pairwise (· < ·)) : (ofInts ns).Integral :=
  ⟨ns, h, rfl⟩

@[simp] theorem mem_ofInts {n : Int} {ns : List Int} : n ∈ ofInts ns ↔ n ∈ ns := by
  show Value.int n ∈ ns.map Value.int ↔ n ∈ ns
  simp

/-! ## Ascending lists of integers -/

theorem isAscending_ints (ns : List Int) :
    isAscending (ns.map Value.int) = true ↔ ns.Pairwise (· < ·) := by
  rw [← List.isChain_iff_pairwise]
  induction ns with
  | nil => simp [isAscending]
  | cons m rest ih =>
      cases rest with
      | nil => simp [isAscending]
      | cons n rest =>
          rw [List.isChain_cons_cons, ← ih]
          simp [isAscending, Int.compare_eq_lt]

theorem dropRepeats'_ints (k : Int) (ns : List Int) (h : (k :: ns).Pairwise (· ≤ ·)) :
    ∃ ms : List Int, dropRepeats.dropRepeats' (.int k) (ns.map Value.int) = ms.map Value.int ∧
      (k :: ms).Pairwise (· < ·) ∧ ∀ n, n ∈ k :: ms ↔ n ∈ k :: ns := by
  induction ns generalizing k with
  | nil => exact ⟨[], rfl, by simp, by simp⟩
  | cons m rest ih =>
      obtain ⟨hk, hrest⟩ := List.pairwise_cons.mp h
      by_cases hkm : k = m
      · subst hkm
        obtain ⟨ms, heq, hms, hmem⟩ := ih k hrest
        refine ⟨ms, ?_, hms, fun n => ?_⟩
        · simpa [dropRepeats.dropRepeats'] using heq
        · rw [hmem n]
          simp
      · obtain ⟨ms, heq, hms, hmem⟩ := ih m hrest
        have hlt : k < m := Int.lt_iff_le_and_ne.mpr ⟨hk m (List.mem_cons_self ..), hkm⟩
        refine ⟨m :: ms, ?_, List.pairwise_cons.mpr ⟨fun n hn => ?_, hms⟩, fun n => ?_⟩
        · simpa [dropRepeats.dropRepeats', hkm] using heq
        · rcases List.mem_cons.mp hn with rfl | hn
          · exact hlt
          · exact Int.lt_trans hlt ((List.pairwise_cons.mp hms).1 n hn)
        · rw [List.mem_cons, hmem n, ← List.mem_cons]

/-- Integers in any order make an integral domain of the same members. -/
theorem ofMembers_ints (ns : List Int) :
    (ofMembers (ns.map Value.int)).Integral ∧ ∀ n, n ∈ ofMembers (ns.map Value.int) ↔ n ∈ ns := by
  unfold ofMembers
  split
  next hasc => exact ⟨integral_ofInts ((isAscending_ints ns).mp hasc), fun n => mem_ofInts⟩
  next =>
    -- Values have no order that is total on all of them, so the sort is done on the integers.
    have hsort : (ns.map Value.int).mergeSort (fun v w => v.order w != .gt) =
        (ns.mergeSort fun m n => m ≤ n).map Value.int := by
      refine (List.map_mergeSort fun m _ n _ => ?_).symm
      rw [Value.order_int, Bool.eq_iff_iff]
      simp [Int.compare_eq_gt]
    have hle : (ns.mergeSort fun m n => m ≤ n).Pairwise (· ≤ ·) := by
      have htrans : ∀ a b c : Int, decide (a ≤ b) = true → decide (b ≤ c) = true →
          decide (a ≤ c) = true := fun a b c hab hbc => by
        simp only [decide_eq_true_eq] at *
        omega
      have htotal : ∀ a b : Int, (decide (a ≤ b) || decide (b ≤ a)) = true := fun a b => by
        simp only [Bool.or_eq_true, decide_eq_true_eq]
        omega
      simpa using List.pairwise_mergeSort htrans htotal ns
    have hmem : ∀ n, n ∈ ns.mergeSort (fun m n => m ≤ n) ↔ n ∈ ns := fun n => List.mem_mergeSort
    rw [hsort]
    cases hns : ns.mergeSort fun m n => m ≤ n with
    | nil =>
        rw [hns] at hmem
        refine ⟨integral_ofInts List.Pairwise.nil, fun n => ?_⟩
        exact (mem_ofInts.trans (hmem n) : n ∈ ofInts [] ↔ n ∈ ns)
    | cons k rest =>
        rw [hns] at hle hmem
        obtain ⟨ms, heq, hms, hmem'⟩ := dropRepeats'_ints k rest hle
        have hof : (⟨dropRepeats ((k :: rest).map Value.int)⟩ : Domain) = ofInts (k :: ms) := by
          simp [dropRepeats, ofInts, heq]
        rw [hof]
        exact ⟨integral_ofInts hms, fun n => mem_ofInts.trans ((hmem' n).trans (hmem n))⟩

theorem requireMember_ints (ns : List Int) :
    (ns.map Value.int).forM Value.requireMember = .ok () := by
  induction ns with
  | nil => rfl
  | cons n rest ih => exact ih

/-- Listed integers make a domain. -/
theorem ofList_ints (ns : List Int) :
    ∃ d, ofList (ns.map Value.int) = .ok d ∧ d.Integral ∧ ∀ n, n ∈ d ↔ n ∈ ns := by
  obtain ⟨hd, hmem⟩ := ofMembers_ints ns
  refine ⟨ofMembers (ns.map Value.int), ?_, hd, hmem⟩
  simp only [ofList, requireMember_ints]
  rfl

/-! ## Intervals -/

theorem pairwise_run (lo hi : Int) : (PitchSpace.run lo hi).Pairwise (· < ·) := by
  unfold PitchSpace.run
  rw [List.pairwise_map]
  exact List.pairwise_lt_range.imp fun h => by omega

theorem integral_interval (lo hi : Int) : (interval lo hi).Integral :=
  integral_ofInts (pairwise_run lo hi)

@[simp] theorem mem_interval {n lo hi : Int} : n ∈ interval lo hi ↔ lo ≤ n ∧ n ≤ hi :=
  Iff.trans (mem_ofInts : n ∈ ofInts (PitchSpace.run lo hi) ↔ _) PitchSpace.mem_run

/-! ## Observation -/

theorem contains_int {d : Domain} (hd : d.Integral) (n : Int) :
    ∃ b, d.contains (.int n) = .ok b ∧ (b = true ↔ n ∈ d) := by
  obtain ⟨ns, -, rfl⟩ := hd
  refine ⟨(ns.map Value.int).any (Value.int n).same, rfl, ?_⟩
  rw [mem_ofInts]
  simp [List.any_map, List.any_eq_true]

theorem isEmpty_iff {d : Domain} (hd : d.Integral) : d.isEmpty = true ↔ ∀ n : Int, n ∉ d := by
  obtain ⟨ns, -, rfl⟩ := hd
  cases ns with
  | nil => exact iff_of_true rfl fun n hn => List.not_mem_nil (mem_ofInts.mp hn)
  | cons m rest =>
      refine iff_of_false (by simp [isEmpty, ofInts]) fun h => h m ?_
      exact mem_ofInts.mpr (List.mem_cons_self ..)

theorem exists_mem {d : Domain} (hd : d.Integral) (h : d.isEmpty = false) : ∃ n : Int, n ∈ d := by
  by_contra hnone
  rw [(isEmpty_iff hd).mpr fun n hn => hnone ⟨n, hn⟩] at h
  cases h

/-- The only value of an integral domain is its only member. -/
theorem single?_eq_some {d : Domain} (hd : d.Integral) {v : Value} (h : d.single? = some v) :
    ∃ n : Int, v = .int n ∧ ∀ m, m ∈ d ↔ m = n := by
  obtain ⟨ns, -, rfl⟩ := hd
  match ns with
  | [] => simp [single?, ofInts] at h
  | [n] =>
      refine ⟨n, ?_, fun m => by simp⟩
      simpa [single?, ofInts] using h.symm
  | _ :: _ :: _ => simp [single?, ofInts] at h

theorem sameItems_ints (ms ns : List Int) :
    Value.sameItems (ms.map Value.int) (ns.map Value.int) = true ↔ ms = ns := by
  induction ms generalizing ns with
  | nil => cases ns <;> simp [Value.sameItems]
  | cons m rest ih =>
      cases ns with
      | nil => simp [Value.sameItems]
      | cons n others =>
          have h : (Value.sameUndefined (.int m) (.int n) || Value.equal (.int m) (.int n)) =
              (m == n) := Value.same_int m n
          simp only [List.map_cons, Value.sameItems, h, Bool.and_eq_true, ih, beq_iff_eq,
            List.cons.injEq]

theorem eq_of_same {d e : Domain} (hd : d.Integral) (he : e.Integral) (h : d.same e = true) :
    d = e := by
  obtain ⟨ms, -, rfl⟩ := hd
  obtain ⟨ns, -, rfl⟩ := he
  rw [(sameItems_ints ms ns).mp h]

/-- Integral domains with the same members are the same. -/
theorem Integral.ext {d e : Domain} (hd : d.Integral) (he : e.Integral)
    (h : ∀ n : Int, n ∈ d ↔ n ∈ e) : d = e := by
  obtain ⟨ms, hms, rfl⟩ := hd
  obtain ⟨ns, hns, rfl⟩ := he
  have hperm : ms.Perm ns := by
    refine (List.perm_ext_iff_of_nodup (hms.imp Int.ne_of_lt) (hns.imp Int.ne_of_lt)).mpr ?_
    exact fun n => mem_ofInts.symm.trans ((h n).trans mem_ofInts)
  rw [hperm.eq_of_pairwise (fun m n _ _ hmn hnm => absurd hnm (Int.lt_asymm hmn)) hms hns]

/-- An integral domain inside another one, and different from it, is smaller. -/
theorem Integral.size_lt {d e : Domain} (hd : d.Integral) (he : e.Integral)
    (hsub : ∀ n : Int, n ∈ d → n ∈ e) (hne : d ≠ e) : d.size < e.size := by
  obtain ⟨ms, hms, rfl⟩ := hd
  obtain ⟨ns, hns, rfl⟩ := he
  have hsubperm : ms.Subperm ns := by
    refine List.subperm_of_subset (hms.imp Int.ne_of_lt) fun n hn => ?_
    exact mem_ofInts.mp (hsub n (mem_ofInts.mpr hn))
  simp only [size, ofInts, List.length_map]
  refine Nat.lt_of_le_of_ne hsubperm.length_le fun hlength => hne ?_
  have hperm := hsubperm.perm_of_length_le hlength.ge
  rw [hperm.eq_of_pairwise (fun m n _ _ hmn hnm => absurd hnm (Int.lt_asymm hmn)) hms hns]

theorem one_le_size {d : Domain} (h : ∃ n : Int, n ∈ d) : 1 ≤ d.size := by
  obtain ⟨n, hn⟩ := h
  exact List.length_pos_of_mem hn

/-- A domain of several integers has two different ones. -/
theorem Integral.exists_ne {d : Domain} (hd : d.Integral) (h : 2 ≤ d.size) (n : Int) :
    ∃ m : Int, m ∈ d ∧ m ≠ n := by
  obtain ⟨ns, hns, rfl⟩ := hd
  match ns with
  | [] => simp [size, ofInts] at h
  | [_] => simp [size, ofInts] at h
  | a :: b :: rest =>
      have hab : a < b := (List.pairwise_cons.mp hns).1 b (List.mem_cons_self ..)
      by_cases hne : a = n
      · exact ⟨b, mem_ofInts.mpr (by simp), by omega⟩
      · exact ⟨a, mem_ofInts.mpr (by simp), hne⟩

/-- No domain has every integer. -/
theorem exists_not_mem (d : Domain) : ∃ n : Int, n ∉ d := by
  have hbound : ∀ vs : List Value, ∃ n : Int, ∀ m : Int, Value.int m ∈ vs → m < n := by
    intro vs
    induction vs with
    | nil => exact ⟨0, nofun⟩
    | cons v rest ih =>
        obtain ⟨n, hn⟩ := ih
        cases v with
        | int k =>
            refine ⟨max n (k + 1), fun m hm => ?_⟩
            rcases List.mem_cons.mp hm with heq | hm
            · cases heq
              omega
            · have := hn m hm
              omega
        | _ => exact ⟨n, fun m hm => hn m ((List.mem_cons.mp hm).resolve_left nofun)⟩
  obtain ⟨n, hn⟩ := hbound d.values
  exact ⟨n, fun h => absurd (hn n h) (Int.lt_irrefl n)⟩

/-- A domain with values, but without an only one, has several. -/
theorem two_le_size {d : Domain} (hempty : d.isEmpty = false) (hone : d.single? = none) :
    2 ≤ d.size := by
  obtain ⟨values⟩ := d
  match values with
  | [] => cases hempty
  | [v] => cases hone
  | _ :: _ :: rest => exact Nat.le_add_left 2 rest.length

theorem requireOrdered_ints (ns : List Int) : requireOrdered (ns.map Value.int) = .ok () := by
  induction ns with
  | nil => rfl
  | cons m rest ih =>
      cases rest with
      | nil => rfl
      | cons n rest =>
          simp only [List.map_cons, requireOrdered, Value.holds] at ih ⊢
          exact ih

theorem Integral.toList {d : Domain} (hd : d.Integral) : d.toList = .ok d.values := by
  obtain ⟨ns, -, rfl⟩ := hd
  simp only [Domain.toList, ofInts, requireOrdered_ints]
  rfl

/-- A domain of integers can be shown. -/
theorem Integral.requireShown {d : Domain} (hd : d.Integral) : d.requireShown = .ok () := by
  obtain ⟨ns, -, rfl⟩ := hd
  cases ns with
  | nil => rfl
  | cons n rest =>
      have hlast : ((n :: rest).map Value.int).getLast? =
          some (.int ((n :: rest).getLast (List.cons_ne_nil n rest))) := by
        rw [List.getLast?_map, List.getLast?_eq_some_getLast (List.cons_ne_nil n rest)]
        rfl
      simp only [Domain.requireShown, isEmpty, greatest, least, ofInts, requireOrdered_ints, hlast]
      rfl

/-! ## Operations -/

theorem dropWhile_below_ints (m : Int) (ns : List Int) :
    (ns.map Value.int).dropWhile (fun w => w.order (.int m) == .lt) =
      (ns.dropWhile (· < m)).map Value.int := by
  rw [List.dropWhile_map]
  congr 2
  funext k
  rw [Function.comp_apply, Value.order_int, Bool.eq_iff_iff, beq_iff_eq, decide_eq_true_iff]
  exact Int.compare_eq_lt

/-- Dropping what lies below an integer drops nothing else. -/
theorem mem_dropWhile_below {m k : Int} (hk : m ≤ k) (ns : List Int) :
    k ∈ ns.dropWhile (· < m) ↔ k ∈ ns := by
  constructor
  · intro h
    exact (List.dropWhile_sublist _).subset h
  · intro h
    rw [← List.takeWhile_append_dropWhile (p := (· < m)) (l := ns), List.mem_append] at h
    rcases h with h | h
    · have := List.mem_takeWhile_imp h
      simp at this
      omega
    · exact h

/-- The meet takes from the first list what is in the second one as well. -/
theorem meet_ints (ms ns : List Int) (hns : ns.Pairwise (· < ·)) (hms : ms.Pairwise (· < ·)) :
    meet (ms.map Value.int) (ns.map Value.int) = (ms.filter (· ∈ ns)).map Value.int := by
  induction ms generalizing ns with
  | nil => simp [meet]
  | cons m rest ih =>
      obtain ⟨hm, hrest⟩ := List.pairwise_cons.mp hms
      have hsuffix : (ns.dropWhile (· < m)).Pairwise (· < ·) :=
        hns.sublist (List.dropWhile_sublist _)
      -- What is dropped lies below `m`, so it is no member of the rest either.
      have hmem : ∀ k, m ≤ k → (k ∈ ns.dropWhile (· < m) ↔ k ∈ ns) := fun k hk =>
        mem_dropWhile_below hk ns
      have hfilter : (rest.filter (· ∈ ns.dropWhile (· < m))) = rest.filter (· ∈ ns) := by
        refine List.filter_congr fun k hk => ?_
        simp [hmem k (Int.le_of_lt (hm k hk))]
      simp only [List.map_cons, meet, dropWhile_below_ints]
      cases hns' : ns.dropWhile (· < m) with
      | nil =>
          rw [hns'] at hmem hfilter
          have hnot : m ∉ ns := fun h => by simpa using (hmem m (Int.le_refl m)).mpr h
          simp only [List.map_nil, List.filter_cons, hnot]
          rw [← hfilter]
          simp
      | cons k more =>
          rw [hns'] at hmem hfilter hsuffix
          have hkm : m ≤ k := by
            have h := List.head_dropWhile_not (p := (· < m)) (l := ns) (by simp [hns'])
            simp [hns'] at h
            exact h
          simp only [List.map_cons, Value.order_int]
          by_cases heq : m = k
          · subst heq
            have hin : m ∈ ns := (hmem m (Int.le_refl m)).mp (List.mem_cons_self ..)
            have htail : rest.filter (· ∈ more) = rest.filter (· ∈ ns) := by
              rw [← hfilter]
              refine List.filter_congr fun k hk => ?_
              have := hm k hk
              simp
              omega
            simp [hin, ih more (List.pairwise_cons.mp hsuffix).2 hrest, htail]
          · have hnot : m ∉ ns := by
              intro h
              rcases List.mem_cons.mp ((hmem m (Int.le_refl m)).mpr h) with h | h
              · exact heq h
              · have := (List.pairwise_cons.mp hsuffix).1 m h
                omega
            have hrec := ih (k :: more) hsuffix hrest
            rw [hfilter] at hrec
            simpa [hnot, heq, Int.compare_eq_eq] using hrec

/-- An integer is in the common domain when it is in both. -/
theorem intersect_spec {d e : Domain} (hd : d.Integral) (he : e.Integral) :
    (d.intersect e).Integral ∧ ∀ n : Int, n ∈ d.intersect e ↔ n ∈ d ∧ n ∈ e := by
  obtain ⟨ms, hms, rfl⟩ := hd
  obtain ⟨ns, hns, rfl⟩ := he
  unfold intersect
  split
  next =>
    have h : (⟨meet (ofInts ms).values (ofInts ns).values⟩ : Domain) =
        ofInts (ms.filter (· ∈ ns)) := congrArg Domain.mk (meet_ints ms ns hns hms)
    rw [h]
    exact ⟨integral_ofInts (hms.filter _), fun n => by simp⟩
  next =>
    have h : (⟨meet (ofInts ns).values (ofInts ms).values⟩ : Domain) =
        ofInts (ns.filter (· ∈ ms)) := congrArg Domain.mk (meet_ints ns ms hms hns)
    rw [h]
    exact ⟨integral_ofInts (hns.filter _), fun n => by simp [and_comm]⟩

/-- A test that answers on integers leaves the members that pass it. -/
theorem filter_spec {d : Domain} (hd : d.Integral) {test : Value → Except Failure Bool}
    (htest : ∀ n : Int, ∃ b, test (.int n) = .ok b) :
    ∃ e, d.filter test = .ok e ∧ e.Integral ∧
      ∀ n : Int, n ∈ e ↔ n ∈ d ∧ test (.int n) = .ok true := by
  obtain ⟨ns, hns, rfl⟩ := hd
  choose answer hanswer using htest
  have haux : ∀ (ms : List Int) (kept : List Value),
      (ms.map Value.int).filterAuxM test kept =
        .ok (((ms.filter answer).map Value.int).reverse ++ kept) := by
    intro ms
    induction ms with
    | nil => exact fun kept => rfl
    | cons m rest ih =>
        intro kept
        have hstep : ((m :: rest).map Value.int).filterAuxM test kept =
            (rest.map Value.int).filterAuxM test (cond (answer m) (.int m :: kept) kept) := by
          simp only [List.map_cons, List.filterAuxM, hanswer]
          rfl
        rw [hstep, ih]
        cases h : answer m <;> simp [h]
  have hfilter : (ns.map Value.int).filterM test = .ok ((ns.filter answer).map Value.int) := by
    simp only [List.filterM, haux, List.append_nil]
    exact congrArg Except.ok (List.reverse_reverse _)
  refine ⟨ofInts (ns.filter answer), ?_, integral_ofInts (hns.filter _), fun n => ?_⟩
  · simp only [filter, ofInts, hfilter]
    rfl
  · simp [hanswer]

/-- Every member moves by the offset. -/
theorem shift_spec {d : Domain} (hd : d.Integral) (k : Int) :
    ∃ e, d.shift (.int k) = .ok e ∧ e.Integral ∧ ∀ n : Int, n ∈ e ↔ n - k ∈ d := by
  obtain ⟨ns, -, rfl⟩ := hd
  have hmap : (ns.map Value.int).mapM (fun v => v.add (.int k)) =
      .ok ((ns.map (· + k)).map Value.int) := by
    induction ns with
    | nil => rfl
    | cons n rest ih =>
        simp only [List.map_cons, List.mapM_cons, Value.add_int, ih]
        rfl
  obtain ⟨hint, hmem⟩ := ofMembers_ints (ns.map (· + k))
  refine ⟨_, ?_, hint, fun n => ?_⟩
  · simp only [shift, ofInts, hmap]
    rfl
  · rw [hmem n, mem_ofInts, List.mem_map]
    exact ⟨fun ⟨m, hm, h⟩ => by rwa [← h, Int.add_sub_cancel], fun h => ⟨n - k, h, by omega⟩⟩

/-- Every member is taken away from the pivot. -/
theorem reflect_spec {d : Domain} (hd : d.Integral) (p : Int) :
    ∃ e, d.reflect (.int p) = .ok e ∧ e.Integral ∧ ∀ n : Int, n ∈ e ↔ p - n ∈ d := by
  obtain ⟨ns, -, rfl⟩ := hd
  have hmap : ∀ ms : List Int, (ms.map Value.int).mapM (fun v => (Value.int p).sub v) =
      .ok ((ms.map (p - ·)).map Value.int) := by
    intro ms
    induction ms with
    | nil => rfl
    | cons n rest ih =>
        simp only [List.map_cons, List.mapM_cons, Value.sub_int, ih]
        rfl
  obtain ⟨hint, hmem⟩ := ofMembers_ints (ns.reverse.map (p - ·))
  refine ⟨_, ?_, hint, fun n => ?_⟩
  · simp only [reflect, ofInts, ← List.map_reverse, hmap]
    rfl
  · rw [hmem n, mem_ofInts, List.mem_map]
    constructor
    · rintro ⟨m, hm, rfl⟩
      have : p - (p - m) = m := by omega
      rwa [this, ← List.mem_reverse]
    · intro h
      exact ⟨p - n, List.mem_reverse.mpr h, by omega⟩

end Consonance.Domain
