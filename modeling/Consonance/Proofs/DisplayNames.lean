import Consonance.Interval.Table
import Consonance.Proofs.Discrete
import Mathlib.Data.List.MinMax

/-!
# The name shown for a distance

Of the names for a distance, one of the best quality is shown: the first of these in table order
(`IntervalTable.nameOf?_eq`).  Which names are best does not depend on the order of the table
(`IntervalTable.isBest_congr`), but which of them comes first does.

So the order of the entries matters where two names of the best quality share a distance, and
nowhere else (`IntervalTable.nameOf?_reordered_iff`).  In the common table no two names do
(`IntervalTable.common_nameOf?_of_perm`).
-/

namespace Consonance.IntervalTable

variable {entries named named' short : List (String × Value)} {t t' : IntervalTable} {d : Value}
  {name : String}

/-! ## Tables from entries -/

/-- The value can be the distance of a name: it is a number and not negative. -/
structure IsDistance (v : Value) : Prop where
  number : v.isNumber = true
  notNegative : v.holds .lt (.int 0) = .ok false

/-- Entries with their distances as numbers. -/
def withNumbers (entries : List (String × Value)) : List (String × Quantity) :=
  entries.filterMap fun entry => entry.2.quantity?.map fun q => (entry.1, q)

theorem withNumbers_cons {v : Value} {q : Quantity} (hq : v.quantity? = some q)
    (rest : List (String × Value)) :
    withNumbers ((name, v) :: rest) = (name, q) :: withNumbers rest := by
  simp [withNumbers, hq]

theorem mem_withNumbers {q : Quantity} :
    (name, q) ∈ withNumbers entries ↔ ∃ v, (name, v) ∈ entries ∧ v.quantity? = some q := by
  simp [withNumbers]

theorem checked_of_isDistance (h : ∀ entry ∈ entries, IsDistance entry.2) :
    checked entries = .ok (withNumbers entries) := by
  induction entries with
  | nil => rfl
  | cons entry rest ih =>
      obtain ⟨name, v⟩ := entry
      obtain ⟨hv, hrest⟩ := List.forall_mem_cons.mp h
      obtain ⟨q, hq⟩ := Option.isSome_iff_exists.mp hv.number
      rw [withNumbers_cons hq, checked, hv.notNegative]
      simp only [hq, ih hrest]
      rfl

theorem isDistance_of_checked {numbers : List (String × Quantity)}
    (h : checked entries = .ok numbers) : ∀ entry ∈ entries, IsDistance entry.2 := by
  induction entries generalizing numbers with
  | nil => exact List.forall_mem_nil _
  | cons entry rest ih =>
      obtain ⟨name, v⟩ := entry
      unfold checked at h
      obtain ⟨negative, hnegative, h⟩ := bind_eq_ok.mp h
      cases negative with
      | true => cases h
      | false =>
          cases hq : v.quantity? with
          | none =>
              rw [hq] at h
              cases h
          | some q =>
              rw [hq] at h
              obtain ⟨others, hothers, -⟩ := bind_eq_ok.mp h
              exact List.forall_mem_cons.mpr
                ⟨⟨Option.isSome_iff_exists.mpr ⟨q, hq⟩, hnegative⟩, ih hothers⟩

/-- A table is made just of names with distances. -/
theorem make_eq_ok_iff :
    make named short = .ok t ↔
      (∀ entry ∈ named ++ short, IsDistance entry.2) ∧
        t = ⟨withNumbers named, withNumbers short⟩ := by
  rw [List.forall_mem_append]
  constructor
  · intro h
    obtain ⟨longs, hlongs, h⟩ := bind_eq_ok.mp h
    obtain ⟨shorts, hshorts, h⟩ := bind_eq_ok.mp h
    cases h
    have hnamed := isDistance_of_checked hlongs
    have hshort := isDistance_of_checked hshorts
    cases (checked_of_isDistance hnamed).symm.trans hlongs
    cases (checked_of_isDistance hshort).symm.trans hshorts
    exact ⟨⟨hnamed, hshort⟩, rfl⟩
  · rintro ⟨⟨hnamed, hshort⟩, rfl⟩
    rw [make, checked_of_isDistance hnamed, checked_of_isDistance hshort]
    rfl

/-- The same entries make a table in every order. -/
theorem make_of_perm (hperm : named'.Perm named) (h : make named short = .ok t) :
    make named' short = .ok ⟨withNumbers named', t.short⟩ := by
  obtain ⟨hentries, rfl⟩ := make_eq_ok_iff.mp h
  exact make_eq_ok_iff.mpr
    ⟨fun entry hentry => hentries entry ((hperm.append_right short).subset hentry), rfl⟩

theorem named_perm {short' : List (String × Value)} (hperm : named'.Perm named)
    (h : make named short = .ok t) (h' : make named' short' = .ok t') :
    t'.named.Perm t.named := by
  obtain ⟨-, rfl⟩ := make_eq_ok_iff.mp h
  obtain ⟨-, rfl⟩ := make_eq_ok_iff.mp h'
  exact hperm.filterMap _

/-! ## The best names -/

/-- The rank of a long name, zero for the best quality. -/
def rank (name : String) : Nat := qualities.idxOf (firstWord name)

theorem rankOf_eq (h : firstWord name ∈ qualities) : rankOf name = .ok (rank name) := by
  obtain ⟨k, hk⟩ := Option.isSome_iff_exists.mp (List.isSome_idxOf?.mpr h)
  rw [rankOf, rank, List.idxOf_eq_getD_idxOf?, hk]
  rfl

/-- Every name starts with a quality. -/
def Ranked {α : Type} (entries : List (String × α)) : Prop :=
  ∀ entry ∈ entries, firstWord entry.1 ∈ qualities

theorem Ranked.named_of_make (h : Ranked named) (hmake : make named short = .ok t) :
    Ranked t.named := by
  obtain ⟨-, rfl⟩ := make_eq_ok_iff.mp hmake
  rintro ⟨name, q⟩ hentry
  obtain ⟨v, hv, -⟩ := mem_withNumbers.mp hentry
  exact h (name, v) hv

/-- The name has the distance, and no name that has it is of a better quality. -/
structure IsBest (t : IntervalTable) (d : Value) (name : String) : Prop where
  mem : name ∈ t.namesFor d
  le : ∀ other ∈ t.namesFor d, rank name ≤ rank other

instance : Decidable (t.IsBest d name) :=
  decidable_of_iff (name ∈ t.namesFor d ∧ ∀ other ∈ t.namesFor d, rank name ≤ rank other)
    ⟨fun h => ⟨h.1, h.2⟩, fun h => ⟨h.mem, h.le⟩⟩

/-- The first minimum of a list is its first member that is no greater than any other. -/
theorem argmin_eq_find? {α : Type} [DecidableEq α] {f : α → Nat} {l : List α} {p : α → Bool}
    (hp : ∀ a ∈ l, p a = true ↔ ∀ b ∈ l, f a ≤ f b) : l.argmin f = l.find? p := by
  cases hmin : l.argmin f with
  | none => rw [List.argmin_eq_none.mp hmin, List.find?_nil]
  | some m =>
      obtain ⟨hm, hle, hfirst⟩ := List.argmin_eq_some_iff.mp hmin
      obtain ⟨before, after, hl, hbefore⟩ := List.eq_append_cons_of_mem hm
      refine (List.find?_eq_some_iff_append.mpr
        ⟨(hp m hm).mpr hle, before, after, hl, fun a ha => ?_⟩).symm
      have hal : a ∈ l := hl ▸ List.mem_append_left _ ha
      -- An earlier minimum would have been the first one.
      rw [Bool.not_eq_true', Bool.eq_false_iff]
      intro hpa
      have hindex : l.idxOf m ≤ l.idxOf a := hfirst a hal ((hp a hal).mp hpa m hm)
      have hlt : before.idxOf a < before.length := List.idxOf_lt_length_iff.mpr ha
      rw [hl, List.idxOf_append_of_notMem hbefore, List.idxOf_append_of_mem ha] at hindex
      omega

/-- The fold that keeps the best entry so far is the one that looks for the first minimum. -/
theorem foldl_best (first : String) (rest : List String) :
    some ((rest.map fun name => (name, rank name)).foldl
        (fun best entry => if entry.2 < best.2 then entry else best) (first, rank first)).1 =
      rest.foldl (List.argAux fun a b => rank a < rank b) (some first) := by
  induction rest generalizing first with
  | nil => rfl
  | cons next rest ih =>
      rw [List.map_cons, List.foldl_cons, List.foldl_cons]
      by_cases hlt : rank next < rank first
      · simpa only [List.argAux, if_pos hlt] using ih next
      · simpa only [List.argAux, if_neg hlt] using ih first

theorem bestOf_eq (names : List String) :
    bestOf (names.map fun name => (name, rank name)) = names.argmin rank := by
  cases names with
  | nil => rfl
  | cons first rest => exact foldl_best first rest

theorem argmin_rank_eq :
    (t.namesFor d).argmin rank = (t.namesFor d).find? fun name => t.IsBest d name :=
  argmin_eq_find? fun _ hname => decide_eq_true_iff.trans ⟨IsBest.le, IsBest.mk hname⟩

theorem mem_namesFor :
    name ∈ t.namesFor d ↔ ∃ q, (name, q) ∈ t.named ∧ (Value.ofQuantity q).equal d = true := by
  simp [namesFor]

/-- The first of the best names is shown. -/
theorem nameOf?_eq (h : Ranked t.named) (d : Value) :
    t.nameOf? d = .ok ((t.namesFor d).find? fun name => t.IsBest d name) := by
  have hrank : ∀ name ∈ t.namesFor d, rankOf name = .ok (rank name) := by
    intro name hname
    obtain ⟨q, hq, -⟩ := mem_namesFor.mp hname
    exact rankOf_eq (h (name, q) hq)
  have hranked : (t.namesFor d).mapM (fun name => return (name, ← rankOf name)) =
      .ok ((t.namesFor d).map fun name => (name, rank name)) :=
    mapM_eq_ok fun name hname => by rw [hrank name hname]; rfl
  rw [nameOf?, hranked, ← argmin_rank_eq, ← bestOf_eq]
  rfl

/-- Among the names for a distance there is a first one that is best. -/
theorem exists_first (h : t.namesFor d ≠ []) :
    ∃ first, (t.namesFor d).find? (fun name => t.IsBest d name) = some first ∧
      t.IsBest d first := by
  cases hfind : (t.namesFor d).find? (fun name => t.IsBest d name) with
  | none => exact absurd (List.argmin_eq_none.mp (argmin_rank_eq.trans hfind)) h
  | some first => exact ⟨first, rfl, by simpa using List.find?_some hfind⟩

/-! ## Other orders -/

theorem namesFor_perm (hperm : t'.named.Perm t.named) :
    (t'.namesFor d).Perm (t.namesFor d) :=
  (hperm.filter _).map _

/-- Which names are best does not depend on the order of the table. -/
theorem isBest_congr (hperm : t'.named.Perm t.named) : t'.IsBest d name ↔ t.IsBest d name := by
  have hnames : (t'.namesFor d).Perm (t.namesFor d) := namesFor_perm hperm
  constructor
  · exact fun h => ⟨hnames.mem_iff.mp h.mem, fun other ho => h.le other (hnames.mem_iff.mpr ho)⟩
  · exact fun h => ⟨hnames.mem_iff.mpr h.mem, fun other ho => h.le other (hnames.mem_iff.mp ho)⟩

/-- Where only one name is best, it is shown in every order. -/
theorem nameOf?_of_perm (hperm : t'.named.Perm t.named) (hranked : Ranked t.named)
    (hunique : ∀ a b, t.IsBest d a → t.IsBest d b → a = b) : t'.nameOf? d = t.nameOf? d := by
  have hranked' : Ranked t'.named := fun entry hentry => hranked entry (hperm.subset hentry)
  have hnames : (t'.namesFor d).Perm (t.namesFor d) := namesFor_perm hperm
  rw [nameOf?_eq hranked, nameOf?_eq hranked']
  congr 1
  by_cases hnone : t.namesFor d = []
  · rw [hnone] at hnames ⊢
    rw [hnames.eq_nil]
    rfl
  · obtain ⟨first, hfirst, hbest⟩ := exists_first hnone
    obtain ⟨first', hfirst', hbest'⟩ := exists_first fun hnil => hnone (hnil ▸ hnames).nil_eq.symm
    rw [hfirst, hfirst', hunique first first' hbest ((isBest_congr hperm).mp hbest')]

/-- A name is shown if it is best and comes first. -/
theorem nameOf?_of_head (hranked : Ranked t.named) (hfirst : (t.namesFor d).head? = some name)
    (hbest : t.IsBest d name) : t.nameOf? d = .ok (some name) := by
  obtain ⟨others, hnames⟩ := List.head?_eq_some_iff.mp hfirst
  rw [nameOf?_eq hranked, hnames, List.find?_cons_of_pos]
  exact decide_eq_true hbest

/-- Each of the best names is shown in some order, where it comes first. -/
theorem exists_perm_nameOf? (hmake : make named short = .ok t) (hranked : Ranked named)
    (h : t.IsBest d name) :
    ∃ named' t', named'.Perm named ∧ make named' short = .ok t' ∧
      t'.nameOf? d = .ok (some name) := by
  obtain ⟨q, hq, hequal⟩ := mem_namesFor.mp h.mem
  rw [(make_eq_ok_iff.mp hmake).2] at hq
  obtain ⟨v, hv, hnumber⟩ := mem_withNumbers.mp hq
  obtain ⟨before, after, rfl⟩ := List.append_of_mem hv
  have hperm : ((name, v) :: (before ++ after)).Perm (before ++ (name, v) :: after) :=
    List.perm_middle.symm
  have hmake' := make_of_perm hperm hmake
  have hranked' : Ranked ((name, v) :: (before ++ after)) := fun entry hentry =>
    hranked entry (hperm.subset hentry)
  refine ⟨_, _, hperm, hmake', nameOf?_of_head (hranked'.named_of_make hmake') ?_ ?_⟩
  · simp [namesFor, withNumbers_cons hnumber, hequal]
  · exact (isBest_congr (named_perm hperm hmake hmake')).mpr h

/-- The name shown for a distance does not depend on the order of the entries just when no two
names of the best quality share the distance.

Entries make a table if their distances are numbers and not negative, and then they do in every
order, and with the same best names for a distance.  Let their long names start with a quality.
The first of the best names is shown if there is a name for the distance, and nothing otherwise.
It is the same name in every order if only one name is best, and not in every order otherwise. -/
theorem nameOf?_reordered_iff (hdistances : ∀ entry ∈ named ++ short, IsDistance entry.2)
    (hranked : ∀ entry ∈ named, firstWord entry.1 ∈ qualities) (d : Value) :
    ∃ t, make named short = .ok t ∧
      (t.nameOf? d = .ok ((t.namesFor d).find? fun name => t.IsBest d name) ∧
        (t.namesFor d ≠ [] → ∃ name, t.IsBest d name ∧ t.nameOf? d = .ok (some name))) ∧
      (∀ named' : List (String × Value), named'.Perm named → ∃ t', make named' short = .ok t' ∧
        ∀ name, t'.IsBest d name ↔ t.IsBest d name) ∧
      ((∀ named' short' t', named'.Perm named → make named' short' = .ok t' →
          t'.nameOf? d = t.nameOf? d) ↔
        ∀ a b, t.IsBest d a → t.IsBest d b → a = b) := by
  have hmake := make_eq_ok_iff.mpr ⟨hdistances, rfl⟩
  have hnamed := Ranked.named_of_make hranked hmake
  have hshown := nameOf?_eq hnamed d
  refine ⟨_, hmake, ⟨hshown, fun hsome => ?_⟩, fun named' hperm => ?_, fun horder a b ha hb => ?_,
    fun hunique named' short' t' hperm hmake' =>
      nameOf?_of_perm (named_perm hperm hmake hmake') hnamed hunique⟩
  · obtain ⟨first, hfirst, hbest⟩ := exists_first hsome
    exact ⟨first, hbest, hshown.trans (congrArg _ hfirst)⟩
  · have hmake' := make_of_perm hperm hmake
    exact ⟨_, hmake', fun name => isBest_congr (named_perm hperm hmake hmake')⟩
  · obtain ⟨_, _, hperm, hmadeA, hshownA⟩ := exists_perm_nameOf? hmake hranked ha
    obtain ⟨_, _, hperm', hmadeB, hshownB⟩ := exists_perm_nameOf? hmake hranked hb
    have hsame := (horder _ _ _ hperm hmadeA).trans (horder _ _ _ hperm' hmadeB).symm
    rw [hshownA, hshownB] at hsame
    exact Option.some.inj (Except.ok.inj hsame)

/-- The octave under two perfect names.  Whichever comes first is shown. -/
theorem nameOf?_reordered_iff_octave :
    ∃ t t', make [("augmented-seventh", .int 12), ("perfect-eighth", .int 12),
        ("perfect-octave", .int 12), ("minor-ninth", .int 13)] [] = .ok t ∧
      make [("minor-ninth", .int 13), ("perfect-octave", .int 12), ("perfect-eighth", .int 12),
        ("augmented-seventh", .int 12)] [] = .ok t' ∧
      t.nameOf? (.int 12) = .ok (some "perfect-eighth") ∧
      t'.nameOf? (.int 12) = .ok (some "perfect-octave") ∧
      ¬ ∀ a b, t.IsBest (.int 12) a → t.IsBest (.int 12) b → a = b := by
  let named : List (String × Value) := [("augmented-seventh", .int 12),
    ("perfect-eighth", .int 12), ("perfect-octave", .int 12), ("minor-ninth", .int 13)]
  have hranked : ∀ entry ∈ named, firstWord entry.1 ∈ qualities := by decide +kernel
  have hperm : named.reverse.Perm named := List.reverse_perm named
  have hmake : make named [] = .ok ⟨withNumbers named, []⟩ := rfl
  have hmake' : make named.reverse [] = .ok ⟨withNumbers named.reverse, []⟩ := rfl
  obtain ⟨t, hmade, ⟨hshown, -⟩, -, horder⟩ :=
    nameOf?_reordered_iff (make_eq_ok_iff.mp hmake).1 hranked (.int 12)
  obtain ⟨t', hmade', ⟨hshown', -⟩, -⟩ := nameOf?_reordered_iff (make_eq_ok_iff.mp hmake').1
    (fun entry hentry => hranked entry (hperm.subset hentry)) (.int 12)
  obtain rfl : t = ⟨withNumbers named, []⟩ := Except.ok.inj (hmade.symm.trans hmake)
  obtain rfl : t' = ⟨withNumbers named.reverse, []⟩ := Except.ok.inj (hmade'.symm.trans hmake')
  have heighth : nameOf? ⟨withNumbers named, []⟩ (.int 12) = .ok (some "perfect-eighth") :=
    hshown.trans (congrArg Except.ok (by decide +kernel))
  have hoctave : nameOf? ⟨withNumbers named.reverse, []⟩ (.int 12) = .ok (some "perfect-octave") :=
    hshown'.trans (congrArg Except.ok (by decide +kernel))
  refine ⟨_, _, hmake, hmake', heighth, hoctave, fun hunique => ?_⟩
  have hsame := horder.mpr hunique _ _ _ hperm hmake'
  rw [heighth, hoctave] at hsame
  exact absurd (Except.ok.inj hsame) (by decide)

/-! ## The common table -/

theorem mem_common_namesFor {n : Int} :
    name ∈ common.namesFor (.int n) ↔ ∃ k : Nat, (name, k) ∈ commonNamed ∧ (k : Int) = n := by
  have hequal : ∀ k : Nat, (Value.ofQuantity (.int k)).equal (.int n) = true ↔ (k : Int) = n :=
    fun k => by rw [Value.equal_whole (Quantity.whole?_int k), beq_iff_eq]
  simp [mem_namesFor, common, withWholes, hequal]

/-- No two names of one distance in the common table share a quality. -/
theorem common_isBest_unique {n : Int} {a b : String} (ha : common.IsBest (.int n) a)
    (hb : common.IsBest (.int n) b) : a = b := by
  have htable : ∀ entry ∈ commonNamed, ∀ other ∈ commonNamed,
      entry.2 = other.2 → rank entry.1 = rank other.1 → entry.1 = other.1 := by decide +kernel
  obtain ⟨k, hk, hkn⟩ := mem_common_namesFor.mp ha.mem
  obtain ⟨l, hl, hln⟩ := mem_common_namesFor.mp hb.mem
  exact htable _ hk _ hl (by omega) ((ha.le b hb.mem).antisymm (hb.le a ha.mem))

/-- For each distance, the common names show the same name in every order. -/
theorem common_nameOf?_of_perm (hperm : t.named.Perm common.named) (n : Int) :
    t.nameOf? (.int n) = common.nameOf? (.int n) := by
  have htable : ∀ entry ∈ common.named, firstWord entry.1 ∈ qualities := by decide +kernel
  exact nameOf?_of_perm hperm htable fun a b => common_isBest_unique

end Consonance.IntervalTable
