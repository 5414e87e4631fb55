import Consonance.Solver.Search
import Mathlib.Data.List.Forall2
import Mathlib.Data.List.Nodup

/-!
# What a stream of answers holds

Every stream comes to an end.  So it is described by the list of its answers
(`Answers.items`) and by how it ends (`Answers.ending`), and the operations of
streams are operations of these.

A search is described more loosely.  `Answers.Gives` says that each answer has a
property and that the list of all answers has another one, unless the search ended
with a failure of a given kind before it was complete.  Properties of lists are put
together along `append` and `bind` in the same way as the streams are.
-/

namespace Consonance

/-- Each member of the second list has a partner in the first one. -/
theorem exists_of_forall₂ {α β : Type} {R : α → β → Prop} {as : List α} {bs : List β}
    (h : List.Forall₂ R as bs) {b : β} (hb : b ∈ bs) : ∃ a ∈ as, R a b := by
  induction h with
  | nil => cases hb
  | @cons a c as bs hac _ ih =>
      rcases List.mem_cons.mp hb with rfl | hb
      · exact ⟨a, List.mem_cons_self .., hac⟩
      · obtain ⟨a', ha', hR⟩ := ih hb
        exact ⟨a', List.mem_cons_of_mem _ ha', hR⟩

theorem bind_eq_ok {α β : Type} {x : Except Failure α} {k : α → Except Failure β} {b : β} :
    x >>= k = .ok b ↔ ∃ a, x = .ok a ∧ k a = .ok b := by
  cases x with
  | error f => exact ⟨nofun, nofun⟩
  | ok a => exact ⟨fun h => ⟨a, rfl, h⟩, fun ⟨_, ha, h⟩ => Except.ok.inj ha ▸ h⟩

theorem bind_eq_error {α β : Type} {x : Except Failure α} {k : α → Except Failure β}
    {f : Failure} :
    x >>= k = .error f ↔ x = .error f ∨ ∃ a, x = .ok a ∧ k a = .error f := by
  cases x with
  | error g =>
      show Except.error g = _ ↔ _
      simp
  | ok a =>
      show k a = _ ↔ _
      simp

theorem mapM_eq_ok {α β : Type} {f : α → Except Failure β} {g : α → β} {l : List α}
    (h : ∀ a ∈ l, f a = .ok (g a)) : l.mapM f = .ok (l.map g) := by
  induction l with
  | nil => rfl
  | cons a rest ih =>
      obtain ⟨ha, hrest⟩ := List.forall_mem_cons.mp h
      rw [List.mapM_cons]
      exact bind_eq_ok.mpr ⟨g a, ha, bind_eq_ok.mpr ⟨_, ih hrest, rfl⟩⟩

namespace Answers

variable {α β γ : Type}

/-- The answers of a stream. -/
def items : Answers α → List α
  | .done => []
  | .raise _ => []
  | .next a rest => a :: items (rest ())

/-- The failure that a stream ends with, if it does. -/
def ending : Answers α → Option Failure
  | .done => none
  | .raise f => some f
  | .next _ rest => ending (rest ())

/-! ## Laws -/

theorem append_bind (xs : Answers α) (ys : Unit → Answers α) (k : α → Answers β) :
    (xs.append ys).bind k = (xs.bind k).append fun _ => (ys ()).bind k := by
  induction xs with
  | done => rfl
  | raise f => rfl
  | next a rest ih =>
      simp only [append_next, bind_next, ih, append_assoc]

theorem bind_assoc (xs : Answers α) (k : α → Answers β) (h : β → Answers γ) :
    (xs.bind k).bind h = xs.bind fun a => (k a).bind h := by
  induction xs with
  | done => rfl
  | raise f => rfl
  | next a rest ih =>
      simp only [bind_next, append_bind, ih]

theorem bind_one (xs : Answers α) : xs.bind one = xs := by
  induction xs with
  | done => rfl
  | raise f => rfl
  | next a rest ih =>
      simp only [bind_next, one, append_next, append_done, ih]

theorem one_bind (a : α) (k : α → Answers β) : (one a).bind k = k a := by
  simp only [one, bind_next, bind_done, append_none]

/-! ## Answers and ending -/

theorem items_append (xs : Answers α) (ys : Unit → Answers α) :
    (xs.append ys).items = xs.items ++ if xs.ending.isNone then (ys ()).items else [] := by
  induction xs with
  | done => rfl
  | raise f => rfl
  | next a rest ih =>
      simp only [append_next, items, ih, List.cons_append]
      rfl

theorem ending_append (xs : Answers α) (ys : Unit → Answers α) :
    (xs.append ys).ending = xs.ending.or (ys ()).ending := by
  induction xs with
  | done => rfl
  | raise f => rfl
  | next a rest ih => simp only [append_next, ending, ih]

/-- The first failure among the streams of the answers comes before that of the stream itself. -/
theorem ending_bind (xs : Answers α) (k : α → Answers β) :
    (xs.bind k).ending = (xs.items.findSome? fun a => (k a).ending).or xs.ending := by
  induction xs with
  | done => rfl
  | raise f => rfl
  | next a rest ih =>
      rw [bind_next, ending_append, ih, items, List.findSome?_cons]
      cases (k a).ending <;> rfl

theorem items_ofList (l : List α) : (ofList l).items = l := by
  induction l with
  | nil => rfl
  | cons a rest ih => exact congrArg (a :: ·) ih

theorem ending_ofList (l : List α) : (ofList l).ending = none := by
  induction l with
  | nil => rfl
  | cons a rest ih => exact ih

/-- Where no stream fails, each answer gives all of its own stream. -/
theorem of_ending_bind {xs : Answers α} {k : α → Answers β} (h : (xs.bind k).ending = none) {a : α}
    (ha : a ∈ xs.items) : (k a).ending = none ∧ ∀ b ∈ (k a).items, b ∈ (xs.bind k).items := by
  induction xs with
  | done => cases ha
  | raise f => cases ha
  | next c rest ih =>
      rw [bind_next, ending_append, Option.or_eq_none_iff] at h
      obtain ⟨hfirst, hrest⟩ := h
      rw [bind_next, items_append, hfirst]
      rcases List.mem_cons.mp ha with rfl | ha
      · exact ⟨hfirst, fun b hb => List.mem_append_left _ hb⟩
      · obtain ⟨hending, hmem⟩ := ih () hrest ha
        exact ⟨hending, fun b hb => List.mem_append_right _ (hmem b hb)⟩

theorem items_map (f : α → β) (xs : Answers α) : (xs.map f).items = xs.items.map f := by
  induction xs with
  | done => rfl
  | raise e => rfl
  | next a rest ih => simp only [map, items, ih, List.map_cons]

theorem ending_map (f : α → β) (xs : Answers α) : (xs.map f).ending = xs.ending := by
  induction xs with
  | done => rfl
  | raise e => rfl
  | next a rest ih => simp only [map, ending, ih]

theorem allAfter_eq (earlier : List α) (xs : Answers α) :
    allAfter earlier xs =
      match xs.ending with
      | none => .ok (earlier.reverse ++ xs.items)
      | some f => .error f := by
  induction xs generalizing earlier with
  | done => simp [allAfter, ending, items]
  | raise f => rfl
  | next a rest ih => simp [allAfter, ending, items, ih]

/-- All answers are the answers of the stream, unless it ends with a failure. -/
theorem all_eq (xs : Answers α) :
    xs.all =
      match xs.ending with
      | none => .ok xs.items
      | some f => .error f :=
  allAfter_eq [] xs

theorem all_eq_ok_iff {xs : Answers α} {l : List α} :
    xs.all = .ok l ↔ xs.ending = none ∧ xs.items = l := by
  rw [all_eq]
  cases xs.ending <;> simp

theorem all_eq_error_iff {xs : Answers α} {f : Failure} :
    xs.all = .error f ↔ xs.ending = some f := by
  rw [all_eq]
  cases xs.ending <;> simp

theorem takeAfter_eq_error_iff {earlier : List α} {n : Nat} {xs : Unit → Answers α}
    {f : Failure} :
    takeAfter earlier n xs = .error f ↔ (xs ()).items.length < n ∧ (xs ()).ending = some f := by
  induction n generalizing earlier xs with
  | zero => simp [takeAfter]
  | succ n ih =>
      unfold takeAfter
      cases xs () with
      | done => simp [ending]
      | raise e => simp [items, ending]
      | next a rest => simp only [ih, items, ending, List.length_cons, Nat.add_lt_add_iff_right]

/-- Taking some answers fails when the stream fails before it has so many. -/
theorem take_eq_error_iff {n : Nat} {xs : Unit → Answers α} {f : Failure} :
    take n xs = .error f ↔ (xs ()).items.length < n ∧ (xs ()).ending = some f :=
  takeAfter_eq_error_iff

/-! ## Streams with a property -/

/-- Every answer has a property, and the list of the answers has another one, unless the stream
ends with a failure of some kind. -/
structure Gives (bad : Failure → Prop) (C : α → Prop) (xs : Answers α) (P : List α → Prop) :
    Prop where
  /-- Each answer has the property of answers. -/
  each : ∀ a ∈ xs.items, C a
  /-- All answers together have the property of lists. -/
  together : xs.ending = none → P xs.items
  /-- Only a failure of the kind ends the stream early. -/
  failure : ∀ f, xs.ending = some f → bad f

section Gives

variable {bad : Failure → Prop} {C : α → Prop} {D : β → Prop} {xs : Answers α}
  {P Q : List α → Prop}

theorem Gives.mono (h : xs.Gives bad C P) (hPQ : ∀ l, P l → Q l) : xs.Gives bad C Q :=
  ⟨h.each, fun he => hPQ _ (h.together he), h.failure⟩

theorem Gives.imp {D : α → Prop} (h : xs.Gives bad C P) (hCD : ∀ a, C a → D a) :
    xs.Gives bad D P :=
  ⟨fun a ha => hCD a (h.each a ha), h.together, h.failure⟩

/-- What holds of each answer holds of all of them. -/
theorem Gives.with_each (h : xs.Gives bad C P) : xs.Gives bad C fun l => P l ∧ ∀ a ∈ l, C a :=
  ⟨h.each, fun he => ⟨h.together he, h.each⟩, h.failure⟩

theorem gives_done (h : P []) : (done : Answers α).Gives bad C P :=
  ⟨nofun, fun _ => h, nofun⟩

theorem gives_raise {f : Failure} (h : bad f) : (raise f : Answers α).Gives bad C P :=
  ⟨nofun, nofun, fun _ he => Option.some.inj he ▸ h⟩

theorem gives_one {a : α} (ha : C a) (h : P [a]) : (one a).Gives bad C P :=
  ⟨fun _ hb => List.mem_singleton.mp hb ▸ ha, fun _ => h, nofun⟩

theorem gives_ofList {l : List α} (hl : ∀ a ∈ l, C a) : (ofList l).Gives bad C (· = l) := by
  induction l with
  | nil => exact gives_done rfl
  | cons a rest ih =>
      obtain ⟨ha, hrest⟩ := List.forall_mem_cons.mp hl
      have htail := ih hrest
      refine ⟨?_, fun he => congrArg (a :: ·) (htail.together he), htail.failure⟩
      exact List.forall_mem_cons.mpr ⟨ha, htail.each⟩

theorem Gives.append {ys : Unit → Answers α} (hx : xs.Gives bad C P) (hy : (ys ()).Gives bad C Q) :
    (xs.append ys).Gives bad C fun l => ∃ l₁ l₂, P l₁ ∧ Q l₂ ∧ l = l₁ ++ l₂ := by
  cases he : xs.ending with
  | some f =>
      refine ⟨?_, ?_, ?_⟩
      · rw [items_append, he]
        exact fun a ha => hx.each a (by simpa using ha)
      · rw [ending_append, he]
        exact nofun
      · rw [ending_append, he]
        exact fun g hg => hx.failure g (he.trans hg)
  | none =>
      refine ⟨?_, ?_, ?_⟩
      · rw [items_append, he]
        exact List.forall_mem_append.mpr ⟨hx.each, hy.each⟩
      · rw [ending_append, items_append, he]
        exact fun hnone => ⟨_, _, hx.together he, hy.together hnone, rfl⟩
      · rw [ending_append, he]
        exact hy.failure

/-- Each answer replaced by a stream that has a property of its own. -/
theorem Gives.bind {k : α → Answers β} {R : α → List β → Prop} (hx : xs.Gives bad C P)
    (hk : ∀ a, C a → (k a).Gives bad D (R a)) :
    (xs.bind k).Gives bad D fun l => ∃ as ls, P as ∧ List.Forall₂ R as ls ∧ l = ls.flatten := by
  induction xs generalizing P with
  | done => exact gives_done ⟨[], [], hx.together rfl, .nil, rfl⟩
  | raise f => exact gives_raise (hx.failure f rfl)
  | next a rest ih =>
      obtain ⟨ha, hrest⟩ := List.forall_mem_cons.mp hx.each
      have htail := ih () (P := fun as => P (a :: as)) ⟨hrest, hx.together, hx.failure⟩
      rw [bind_next]
      refine ((hk a ha).append htail).mono fun l hl => ?_
      obtain ⟨l₁, l₂, h₁, ⟨as, ls, hP, hls, rfl⟩, rfl⟩ := hl
      exact ⟨a :: as, l₁ :: ls, hP, .cons h₁ hls, rfl⟩

theorem Gives.map {f : α → β} (hx : xs.Gives bad C P) :
    (xs.map f).Gives bad (fun b => ∃ a, C a ∧ b = f a) fun l => ∃ as, P as ∧ l = as.map f := by
  refine ⟨?_, ?_, ?_⟩
  · rw [items_map]
    intro b hb
    obtain ⟨a, ha, rfl⟩ := List.mem_map.mp hb
    exact ⟨a, hx.each a ha, rfl⟩
  · rw [ending_map, items_map]
    exact fun he => ⟨_, hx.together he, rfl⟩
  · rw [ending_map]
    exact hx.failure

/-- All answers of a stream have the property, or there is a failure of the kind. -/
theorem Gives.all (hx : xs.Gives bad C P) :
    (P xs.items ∧ xs.all = .ok xs.items) ∨ ∃ f, bad f ∧ xs.all = .error f := by
  rw [all_eq]
  cases he : xs.ending with
  | none => exact .inl ⟨hx.together he, rfl⟩
  | some f => exact .inr ⟨f, hx.failure f he, rfl⟩

end Gives

end Answers

/-! ## Goals -/

namespace Goal

theorem lift_of_ok {operation : State → Except Failure State} {s t : State}
    (h : operation s = .ok t) : lift operation s = .one t := by
  rw [lift, h]

/-- The first goal runs, and the others run on each of its states. -/
theorem conjoin_cons (g : Goal) (rest : List Goal) (s : State) :
    conjoin (g :: rest) s = (g s).bind (conjoin rest) := by
  induction rest generalizing g s with
  | nil => exact (Answers.bind_one (g s)).symm
  | cons h rest ih =>
      have hboth := ih (both g h) s
      have hrest : conjoin (h :: rest) = fun t => (h t).bind (conjoin rest) :=
        funext fun t => ih h t
      calc conjoin (g :: h :: rest) s = conjoin (both g h :: rest) s := rfl
        _ = ((g s).bind h).bind (conjoin rest) := hboth
        _ = (g s).bind fun t => (h t).bind (conjoin rest) := Answers.bind_assoc ..
        _ = (g s).bind (conjoin (h :: rest)) := by rw [hrest]

theorem conjoin_append (gs hs : List Goal) (s : State) :
    conjoin (gs ++ hs) s = (conjoin gs s).bind (conjoin hs) := by
  induction gs generalizing s with
  | nil => exact (Answers.one_bind s (conjoin hs)).symm
  | cons g gs ih =>
      have hrest : conjoin (gs ++ hs) = fun t => (conjoin gs t).bind (conjoin hs) :=
        funext fun t => ih t
      rw [List.cons_append, conjoin_cons, conjoin_cons, hrest, Answers.bind_assoc]

end Goal

end Consonance
