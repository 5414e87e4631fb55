import Consonance.Proofs.Assignment
import Consonance.Proofs.Stream

/-!
# Discrete values

A value is *discrete* if it is no floating-point number.  A discrete number is a whole number, and
sums and differences of discrete values are discrete.  So a search that is given no floating-point
numbers never meets one, and the domains that it works out stay discrete.

Equal values may be of different kinds, as a class and its number are.  Where two domains meet, or
a value is looked up in a domain, one of them may take the place of the other.  What is read of a
discrete value, its whole number or its text, is the same for both (`Value.Alike`).

A discrete value is bound as it is, and only undefined numbers are marked
(`State.walk_addBinding_discrete`).
-/

namespace Consonance

/-- The value is no floating-point number. -/
def Value.Discrete (v : Value) : Prop := ∀ x, v ≠ .float x

/-- The term is no floating-point number. -/
def Term.Discrete : Term → Prop
  | .var _ => True
  | .val v => v.Discrete

theorem Term.discrete_int (n : Int) : (Term.int n).Discrete := nofun

/-! ## Whole quantities -/

namespace Comparison

theorem admits_lt (m n : Int) : lt.admits (compare m n) = decide (m < n) := by
  rw [admits, Bool.eq_iff_iff, beq_iff_eq, decide_eq_true_iff, Int.compare_eq_lt]

theorem admits_le (m n : Int) : le.admits (compare m n) = decide (m ≤ n) := by
  rw [admits, Bool.eq_iff_iff, bne_iff_ne, decide_eq_true_iff, Ne, Int.compare_eq_gt, Int.not_lt]

theorem admits_ge (m n : Int) : ge.admits (compare m n) = decide (n ≤ m) := by
  rw [admits, Bool.eq_iff_iff, bne_iff_ne, decide_eq_true_iff, Ne, Int.compare_eq_lt, Int.not_lt]

end Comparison

namespace Quantity

theorem exactValue?_whole {p : Quantity} {m : Int} (h : p.whole? = some m) :
    p.exactValue? = some (.ratio m 1) := by
  cases p <;> cases h <;> rfl

theorem order_whole (m n : Int) :
    (Number.Binary64.Exact.ratio m 1).order (.ratio n 1) = compare m n := by
  show compare (m * 1) (n * 1) = _
  rw [Int.mul_one, Int.mul_one]

theorem equal_whole {p q : Quantity} {m n : Int} (hp : p.whole? = some m)
    (hq : q.whole? = some n) : p.equal q = (m == n) := by
  simp only [equal, exactValue?_whole hp, exactValue?_whole hq, order_whole]
  rw [Bool.eq_iff_iff, beq_iff_eq, beq_iff_eq, Int.compare_eq_eq]

theorem orderNumbers_whole {p q : Quantity} {m n : Int} (hp : p.whole? = some m)
    (hq : q.whole? = some n) : Value.orderNumbers p q = compare m n := by
  simp only [Value.orderNumbers, exactValue?_whole hp, exactValue?_whole hq, order_whole]

end Quantity

namespace Value

/-- A whole number is a quantity. -/
theorem exists_ofQuantity {v : Value} {n : Int} (h : v.whole? = some n) :
    ∃ p : Quantity, p.whole? = some n ∧ v = ofQuantity p := by
  obtain ⟨p, hp, hn⟩ := Option.bind_eq_some_iff.mp h
  refine ⟨p, hn, ?_⟩
  cases v <;> cases hp <;> rfl

theorem add_whole {p q : Quantity} {m n : Int} (hp : p.whole? = some m)
    (hq : q.whole? = some n) :
    (ofQuantity p).add (ofQuantity q) = .ok (.int (m + n)) := by
  cases p <;> cases q <;> cases hp <;> cases hq <;> rfl

theorem sub_whole {p q : Quantity} {m n : Int} (hp : p.whole? = some m)
    (hq : q.whole? = some n) :
    (ofQuantity p).sub (ofQuantity q) = .ok (.int (m - n)) := by
  cases p <;> cases q <;> cases hp <;> cases hq <;> rfl

theorem equal_whole {p : Quantity} {m : Int} (h : p.whole? = some m) (n : Int) :
    (ofQuantity p).equal (.int n) = (m == n) := by
  rw [← Quantity.equal_whole h (Quantity.whole?_int n)]
  cases p with
  | int k => simp [ofQuantity]
  | _ => simp [ofQuantity, equal, equalAtoms, quantity?]

theorem holds_whole {p q : Quantity} {m n : Int} (hp : p.whole? = some m)
    (hq : q.whole? = some n) (c : Comparison) :
    (ofQuantity p).holds c (ofQuantity q) = .ok (c.admits (compare m n)) := by
  unfold holds
  split
  next ha hb =>
    cases p <;> cases ha
    cases q <;> cases hb
    cases hp
    cases hq
    rfl
  next ha _ => cases p <;> cases ha
  next ha _ => cases p <;> cases ha
  next => simp only [quantity?_ofQuantity, Quantity.exactValue?_whole hp,
      Quantity.exactValue?_whole hq, Quantity.order_whole]

theorem holds_lt_zero {v : Value} {n : Int} (h : v.whole? = some n) :
    v.holds .lt (.int 0) = .ok (decide (n < 0)) := by
  obtain ⟨p, hp, rfl⟩ := exists_ofQuantity h
  rw [← Comparison.admits_lt]
  exact holds_whole (q := .int 0) hp rfl .lt

/-- A whole number is within a range of integers if it lies between its ends. -/
theorem within_whole {v : Value} {n : Int} (h : v.whole? = some n) (lowest highest : Int) :
    v.within lowest highest = .ok (decide (lowest ≤ n ∧ n ≤ highest)) := by
  obtain ⟨p, hp, rfl⟩ := exists_ofQuantity h
  have hlower : holds .le (.int lowest) (.ofQuantity p) = .ok (decide (lowest ≤ n)) := by
    rw [← Comparison.admits_le]
    exact holds_whole (p := .int lowest) rfl hp .le
  have hupper : holds .le (.ofQuantity p) (.int highest) = .ok (decide (n ≤ highest)) := by
    rw [← Comparison.admits_le]
    exact holds_whole (q := .int highest) hp rfl .le
  rw [within, hlower]
  show (if decide (lowest ≤ n) = true then _ else _) = _
  rw [hupper]
  by_cases hle : lowest ≤ n
  · rw [if_pos (decide_eq_true hle)]
    simp [hle]
  · rw [if_neg (by simp [hle])]
    simp [hle]
    rfl

theorem order_whole {p q : Quantity} {m n : Int} (hp : p.whole? = some m)
    (hq : q.whole? = some n) : (ofQuantity p).order (ofQuantity q) = compare m n := by
  have hatoms : (ofQuantity p).order (ofQuantity q) = (ofQuantity p).orderAtoms (ofQuantity q) := by
    cases p <;> rfl
  rw [hatoms]
  unfold orderAtoms
  split
  next ha hb =>
    cases p <;> cases ha
    cases q <;> cases hb
    cases hp
    cases hq
    rfl
  next ha _ => cases p <;> cases ha
  next ha _ => cases p <;> cases ha
  next ha _ => cases p <;> cases ha
  next => simp only [quantity?_ofQuantity, Quantity.orderNumbers_whole hp hq]

end Value

/-! ## Values that read the same -/

namespace Value

variable {v w : Value}

/-- Two values read the same: as one whole number, as one text, or as neither. -/
def Alike (v w : Value) : Prop := v.whole? = w.whole? ∧ ∀ s, v = .text s ↔ w = .text s

theorem Alike.refl (v : Value) : v.Alike v := ⟨rfl, fun _ => Iff.rfl⟩

theorem Alike.symm (h : v.Alike w) : w.Alike v := ⟨h.1.symm, fun s => (h.2 s).symm⟩

/-- A discrete number is a whole number. -/
theorem Discrete.exists_whole (hv : v.Discrete) {p : Quantity} (hp : v.quantity? = some p) :
    ∃ n, p.whole? = some n ∧ v.whole? = some n := by
  cases v with
  | float x => exact absurd rfl (hv x)
  | int n =>
      cases hp
      exact ⟨n, rfl, rfl⟩
  | truth b =>
      cases hp
      exact ⟨_, rfl, rfl⟩
  | pitchClass c =>
      cases hp
      exact ⟨_, rfl, rfl⟩
  | _ => cases hp

theorem alike_of_quantities {p q : Quantity} (hp : v.quantity? = some p)
    (hq : w.quantity? = some q) (h : p.whole? = q.whole?) : v.Alike w := by
  refine ⟨by rw [whole?, whole?, hp, hq]; exact h, fun s => ⟨?_, ?_⟩⟩
  · rintro rfl
    cases hp
  · rintro rfl
    cases hq

/-- Of values that are neither numbers nor texts nothing is read. -/
theorem alike_of_other (hv : v.quantity? = none) (hw : w.quantity? = none)
    (htext : ∀ s, v ≠ .text s ∧ w ≠ .text s) : v.Alike w := by
  refine ⟨by rw [whole?, whole?, hv, hw], fun s => ?_⟩
  exact ⟨fun h => absurd h (htext s).1, fun h => absurd h (htext s).2⟩

theorem alike_of_equalAtoms (hv : v.Discrete) (hw : w.Discrete) (h : v.equalAtoms w = true) :
    v.Alike w := by
  unfold equalAtoms at h
  split at h
  next => exact beq_iff_eq.mp h ▸ Alike.refl _
  next => exact beq_iff_eq.mp h ▸ Alike.refl _
  next => exact Alike.refl _
  next => exact alike_of_other rfl rfl (by simp)
  next => exact alike_of_other rfl rfl (by simp)
  next =>
    split at h
    next p q hp hq =>
      obtain ⟨m, hm, -⟩ := hv.exists_whole hp
      obtain ⟨n, hn, -⟩ := hw.exists_whole hq
      rw [Quantity.equal_whole hm hn, beq_iff_eq] at h
      exact alike_of_quantities hp hq (by rw [hm, hn, h])
    next => cases h

theorem alike_of_equal (hv : v.Discrete) (hw : w.Discrete) (h : v.equal w = true) : v.Alike w := by
  unfold equal at h
  split at h
  next =>
    split at h
    next => exact alike_of_other rfl rfl (by simp)
    next => cases h
  next =>
    split at h
    next => exact alike_of_other rfl rfl (by simp)
    next => cases h
  next =>
    split at h
    next => exact alike_of_other rfl rfl (by simp)
    next => cases h
  next =>
    split at h
    next => exact alike_of_other rfl rfl (by simp)
    next => cases h
  next => exact alike_of_equalAtoms hv hw h

theorem alike_of_same (hv : v.Discrete) (hw : w.Discrete) (h : v.same w = true) : v.Alike w := by
  refine alike_of_equal hv hw ?_
  have hundefined : v.sameUndefined w = false := by
    cases v with
    | float x => exact absurd rfl (hv x)
    | _ => rfl
  rwa [same, hundefined, Bool.false_or] at h

/-- Only numbers have the first rank. -/
theorem quantity?_eq_none (h : v.rank ≠ 0) : v.quantity? = none := by
  cases v with
  | int n => exact absurd rfl h
  | truth b => exact absurd rfl h
  | float x => exact absurd rfl h
  | pitchClass c => exact absurd rfl h
  | _ => rfl

theorem exists_quantity (h : v.rank = 0) : ∃ p, v.quantity? = some p := by
  cases v with
  | int n => exact ⟨_, rfl⟩
  | truth b => exact ⟨_, rfl⟩
  | float x => exact ⟨_, rfl⟩
  | pitchClass c => exact ⟨_, rfl⟩
  | _ => cases h

theorem exists_text (h : v.rank = 2) : ∃ s, v = .text s := by
  cases v with
  | text s => exact ⟨s, rfl⟩
  | _ => cases h

theorem alike_of_orderAtoms (hv : v.Discrete) (hw : w.Discrete)
    (h : v.orderAtoms w = .eq) : v.Alike w := by
  unfold orderAtoms at h
  split at h
  next => exact Std.LawfulEqCmp.eq_of_compare h ▸ Alike.refl _
  next => exact Std.LawfulEqCmp.eq_of_compare h ▸ Alike.refl _
  next => exact alike_of_other rfl rfl (by simp)
  next => exact alike_of_other rfl rfl (by simp)
  next _ htexts _ _ =>
    split at h
    next p q hp hq =>
      obtain ⟨m, hm, -⟩ := hv.exists_whole hp
      obtain ⟨n, hn, -⟩ := hw.exists_whole hq
      rw [Quantity.orderNumbers_whole hm hn, Int.compare_eq_eq] at h
      exact alike_of_quantities hp hq (by rw [hm, hn, h])
    next hnot =>
      have hrank : v.rank = w.rank := Nat.compare_eq_eq.mp h
      have hne : v.rank ≠ 0 := fun hzero => by
        obtain ⟨p, hp⟩ := exists_quantity hzero
        obtain ⟨q, hq⟩ := exists_quantity (hrank ▸ hzero)
        exact hnot p q hp hq
      refine alike_of_other (quantity?_eq_none hne) (quantity?_eq_none (hrank ▸ hne)) fun s => ?_
      constructor
      · rintro rfl
        obtain ⟨t, rfl⟩ := exists_text hrank.symm
        exact htexts s t rfl rfl
      · rintro rfl
        obtain ⟨t, rfl⟩ := exists_text hrank
        exact htexts t s rfl rfl

theorem alike_of_order (hv : v.Discrete) (hw : w.Discrete) (h : v.order w = .eq) :
    v.Alike w := by
  unfold order at h
  split at h
  next =>
    split at h
    next => exact alike_of_other rfl rfl (by simp)
    next hpair =>
      have hrank : (5 : Nat) = w.rank := Nat.compare_eq_eq.mp h
      refine alike_of_other rfl (quantity?_eq_none (by omega)) fun s => ⟨?_, ?_⟩
      · rintro ⟨⟩
      · rintro rfl
        cases hrank
  next => exact alike_of_orderAtoms hv hw h

/-! ### Sums and differences -/

theorem common_whole {p q : Quantity} {m n : Int} (hp : p.whole? = some m)
    (hq : q.whole? = some n) : Quantity.common p q = .ok (.whole m n) := by
  cases p <;> cases q <;> cases hp <;> cases hq <;> rfl

/-- Sums and differences of discrete numbers are integers. -/
theorem discrete_of_calculate {r : Value} {op : Operation} {whole : Int → Int → Int}
    {floating : Number.Binary64 → Number.Binary64 → Number.Binary64}
    (hop : Quantity.apply op = Quantity.combine whole floating) (hv : v.Discrete)
    (hw : w.Discrete) (h : calculate op v w = .ok r) :
    ∃ m n, v.whole? = some m ∧ w.whole? = some n ∧ r = .int (whole m n) := by
  unfold calculate numeric? at h
  cases hp : v.quantity? with
  | none => simp [hp] at h
  | some p =>
      cases hq : w.quantity? with
      | none => simp [hp, hq] at h
      | some q =>
          obtain ⟨m, hm, hvm⟩ := hv.exists_whole hp
          obtain ⟨n, hn, hwn⟩ := hw.exists_whole hq
          simp only [hp, hq, hop, Quantity.combine, common_whole hm hn] at h
          cases h
          exact ⟨m, n, hvm, hwn, rfl⟩

theorem discrete_add {r : Value} (hv : v.Discrete) (hw : w.Discrete) (h : v.add w = .ok r) :
    r.Discrete := by
  unfold add at h
  split at h
  · cases h
    exact nofun
  · cases h
    exact nofun
  · cases hsum : Quantity.apply .add _ _ with
    | error f => rw [hsum] at h; cases h
    | ok q =>
      rw [hsum] at h
      cases h
      exact nofun
  · cases h
  · cases h
  · obtain ⟨m, n, -, -, rfl⟩ := discrete_of_calculate rfl hv hw h
    exact nofun

/-- Only whole numbers have a sum with an integer. -/
theorem add_int_eq_ok {r : Value} {k : Int} (hv : v.Discrete) (h : v.add (.int k) = .ok r) :
    ∃ m, v.whole? = some m ∧ r = .int (m + k) := by
  have hcalculate : ∀ h : calculate .add v (.int k) = .ok r,
      ∃ m, v.whole? = some m ∧ r = .int (m + k) := by
    intro h
    obtain ⟨m, n, hm, hn, rfl⟩ := discrete_of_calculate rfl hv (w := .int k) nofun h
    cases hn
    exact ⟨m, hm, rfl⟩
  cases v with
  | text s => cases h
  | list items => cases h
  | _ => exact hcalculate h

theorem discrete_sub {r : Value} (hv : v.Discrete) (hw : w.Discrete) (h : v.sub w = .ok r) :
    r.Discrete := by
  obtain ⟨m, n, -, -, rfl⟩ := discrete_of_calculate rfl hv hw h
  exact nofun

theorem discrete_neg {r : Value} (hv : v.Discrete) (h : v.neg = .ok r) : r.Discrete := by
  unfold neg at h
  split at h
  next x => exact absurd rfl (hv x)
  next =>
    split at h
    · cases h
      exact nofun
    · cases h

end Value

/-! ## Domains -/

namespace Domain

variable {d e : Domain} {v w : Value} {vs : List Value}

theorem subset_dropRepeats (vs : List Value) : dropRepeats vs ⊆ vs := by
  have hafter : ∀ (kept : Value) (vs : List Value), dropRepeats.dropRepeats' kept vs ⊆ vs := by
    intro kept vs
    induction vs generalizing kept with
    | nil => exact List.Subset.refl _
    | cons w rest ih =>
        rw [dropRepeats.dropRepeats']
        split
        · exact List.subset_cons_of_subset w (ih kept)
        · exact List.cons_subset_cons _ (ih w)
  cases vs with
  | nil => exact List.Subset.refl _
  | cons v rest => exact List.cons_subset_cons _ (hafter v rest)

theorem mem_of_mem_ofMembers (h : v ∈ (ofMembers vs).values) : v ∈ vs := by
  unfold ofMembers at h
  split at h
  · exact h
  · exact List.mem_mergeSort.mp (subset_dropRepeats _ h)

theorem mem_of_mem_ofList (hd : ofList vs = .ok d) (h : v ∈ d.values) : v ∈ vs := by
  unfold ofList at hd
  cases hmembers : vs.forM Value.requireMember with
  | error f =>
      rw [hmembers] at hd
      cases hd
  | ok _ =>
      rw [hmembers] at hd
      cases hd
      exact mem_of_mem_ofMembers h

theorem exists_of_mem_meet {others : List Value} (h : v ∈ meet vs others) :
    v ∈ vs ∧ ∃ w ∈ others, v.order w = .eq := by
  induction vs generalizing others with
  | nil => cases h
  | cons u rest ih =>
      rw [meet] at h
      have hsuffix := List.dropWhile_suffix (l := others) fun w => w.order u == .lt
      split at h
      next => cases h
      next w more hdrop =>
        have hmore : w :: more ⊆ others := hdrop ▸ hsuffix.subset
        split at h
        next heq =>
          rcases List.mem_cons.mp h with rfl | h
          · exact ⟨List.mem_cons_self .., w, hmore (List.mem_cons_self ..), beq_iff_eq.mp heq⟩
          · obtain ⟨hv, w', hw', horder⟩ := ih h
            exact ⟨List.mem_cons_of_mem _ hv, w', hmore (List.mem_cons_of_mem _ hw'), horder⟩
        next =>
          obtain ⟨hv, w', hw', horder⟩ := ih h
          exact ⟨List.mem_cons_of_mem _ hv, w', hmore hw', horder⟩

/-- The members are no floating-point numbers. -/
def Discrete (d : Domain) : Prop := ∀ v ∈ d.values, v.Discrete

/-- What is in the intersection of two domains reads like a member of each. -/
theorem Discrete.exists_of_mem_intersect (hd : d.Discrete) (he : e.Discrete)
    (h : v ∈ (d.intersect e).values) :
    v.Discrete ∧ (∃ w ∈ d.values, w.Alike v) ∧ ∃ w ∈ e.values, w.Alike v := by
  unfold intersect at h
  split at h
  · obtain ⟨hv, w, hw, horder⟩ := exists_of_mem_meet h
    have halike := Value.alike_of_order (hd v hv) (he w hw) horder
    exact ⟨hd v hv, ⟨v, hv, .refl v⟩, w, hw, halike.symm⟩
  · obtain ⟨hv, w, hw, horder⟩ := exists_of_mem_meet h
    have halike := Value.alike_of_order (he v hv) (hd w hw) horder
    exact ⟨he v hv, ⟨w, hw, halike.symm⟩, v, hv, .refl v⟩

theorem mem_of_mem_filterM {test : Value → Except Failure Bool} {ws : List Value}
    (h : vs.filterM test = .ok ws) (hv : v ∈ ws) : v ∈ vs := by
  have haux : ∀ acc us : List Value, vs.filterAuxM test acc = .ok us → v ∈ us →
      v ∈ vs ∨ v ∈ acc := by
    clear h
    induction vs with
    | nil =>
        intro acc us h hv
        cases h
        exact .inr hv
    | cons w rest ih =>
        intro acc us h hv
        obtain ⟨b, -, h⟩ := bind_eq_ok.mp h
        rcases ih _ us h hv with hrest | hacc
        · exact .inl (List.mem_cons_of_mem _ hrest)
        · cases b with
          | false => exact .inr hacc
          | true =>
              rcases List.mem_cons.mp hacc with rfl | hacc
              · exact .inl (List.mem_cons_self ..)
              · exact .inr hacc
  obtain ⟨us, hus, h⟩ := bind_eq_ok.mp h
  cases h
  exact (haux [] us hus (List.mem_reverse.mp hv)).resolve_right List.not_mem_nil

theorem mem_of_mem_filter {test : Value → Except Failure Bool} (he : d.filter test = .ok e)
    (h : v ∈ e.values) : v ∈ d.values := by
  obtain ⟨ws, hws, he⟩ := bind_eq_ok.mp he
  cases he
  exact mem_of_mem_filterM hws h

theorem exists_of_mapM {α β : Type} {f : α → Except Failure β} {as : List α} {bs : List β}
    (h : as.mapM f = .ok bs) {b : β} (hb : b ∈ bs) : ∃ a ∈ as, f a = .ok b := by
  induction as generalizing bs with
  | nil =>
      cases h
      cases hb
  | cons a rest ih =>
      rw [List.mapM_cons] at h
      obtain ⟨c, hc, h⟩ := bind_eq_ok.mp h
      obtain ⟨cs, hcs, h⟩ := bind_eq_ok.mp h
      cases h
      rcases List.mem_cons.mp hb with rfl | hb
      · exact ⟨a, List.mem_cons_self .., hc⟩
      · obtain ⟨a', ha', hf⟩ := ih hcs hb
        exact ⟨a', List.mem_cons_of_mem _ ha', hf⟩

theorem Discrete.shift (hd : d.Discrete) (hw : w.Discrete) (he : d.shift w = .ok e) :
    e.Discrete := by
  obtain ⟨ws, hws, he⟩ := bind_eq_ok.mp he
  cases he
  intro v hv
  obtain ⟨u, hu, hadd⟩ := exists_of_mapM hws (mem_of_mem_ofMembers hv)
  exact Value.discrete_add (hd u hu) hw hadd

/-- Shifting back by a value shifts by its negation. -/
theorem Discrete.unshift (hd : d.Discrete) (hw : w.Discrete)
    (he : (w.neg >>= fun m => d.shift m) = .ok e) : e.Discrete := by
  obtain ⟨m, hm, he⟩ := bind_eq_ok.mp he
  exact hd.shift (Value.discrete_neg hw hm) he

theorem Discrete.reflect (hd : d.Discrete) (hw : w.Discrete) (he : d.reflect w = .ok e) :
    e.Discrete := by
  obtain ⟨ws, hws, he⟩ := bind_eq_ok.mp he
  cases he
  intro v hv
  obtain ⟨u, hu, hsub⟩ := exists_of_mapM hws (mem_of_mem_ofMembers hv)
  exact Value.discrete_sub hw (hd u (List.mem_reverse.mp hu)) hsub

theorem discrete_interval (lowest highest : Int) : (interval lowest highest).Discrete := by
  intro v hv
  obtain ⟨n, -, rfl⟩ := List.mem_map.mp hv
  exact nofun

/-- Of two domains with the same members, each member of the second is the same as one of the
first. -/
theorem exists_of_sameItems {ws : List Value} (h : Value.sameItems vs ws = true) (hv : v ∈ ws) :
    ∃ u ∈ vs, u.same v = true := by
  induction vs generalizing ws with
  | nil =>
      rw [Value.sameItems, List.isEmpty_iff] at h
      rw [h] at hv
      cases hv
  | cons u rest ih =>
      cases ws with
      | nil => cases hv
      | cons w more =>
          rw [Value.sameItems, Bool.and_eq_true] at h
          rcases List.mem_cons.mp hv with rfl | hv
          · exact ⟨u, List.mem_cons_self .., h.1⟩
          · obtain ⟨u', hu', hsame⟩ := ih h.2 hv
            exact ⟨u', List.mem_cons_of_mem _ hu', hsame⟩

/-- A value that a domain contains is the same as a member. -/
theorem exists_of_contains (h : d.contains v = .ok true) : ∃ w ∈ d.values, v.same w = true := by
  obtain ⟨_, -, h⟩ := bind_eq_ok.mp h
  exact List.any_eq_true.mp (Except.ok.inj h)

end Domain

/-! ## Bindings -/

namespace State

/-- Only undefined numbers are marked when they are bound. -/
theorem substitution_addBinding_discrete (s : State) (x : Var) {t : Term} (ht : t.Discrete) :
    (s.addBinding x t).substitution = (x, t) :: s.substitution := by
  unfold addBinding
  split
  next => exact absurd rfl (ht _)
  next => rfl

theorem walk_addBinding_discrete {s : State} {x : Var} {t u : Term} (ht : t.Discrete)
    (h : s.walk u = .var x) : (s.addBinding x t).walk u = t := by
  rw [walk, substitution_addBinding_discrete s x ht]
  exact Substitution.walk_cons_self t h

theorem walk_addBinding_other {s : State} {x : Var} {t u : Term} (ht : t.Discrete)
    (h : s.walk u ≠ .var x) : (s.addBinding x t).walk u = s.walk u := by
  rw [walk, substitution_addBinding_discrete s x ht]
  exact Substitution.walk_cons_ne t h

end State

end Consonance
