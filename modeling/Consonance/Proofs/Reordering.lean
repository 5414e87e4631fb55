import Consonance.Proofs.Distances
import Consonance.Proofs.Placement

/-!
# The order of relations

A query for the variables of some relations gives the same rows in whatever order the relations
are put, and each row as often (`Formula.run_perm`).

Each relation has a weight, which says how often it finds an assignment, and which does not
depend on what is known when the relation is reached (`Formula.IsRelation.weighs`).  Weights
multiply along a conjunction, so the weight of all relations does not depend on their order
(`Formula.buildAll_weighs`).  In the end every variable of the query is known, and the states
with a row are those that have its assignment (`Setting.count_rows`).
-/

namespace Consonance

/-! ## Relations over roles -/

/-- A variable of the role, or a constant that a relation takes for it. -/
def Role.Takes (roles : String → Role) (r : Role) : Term → Prop
  | .var (.named x) => roles x = r
  | .var (.fresh _) => False
  | .val v =>
    match r with
    | .pitchClass => ∃ c, PitchClass.ofValue v = .ok c
    | .distance => ∃ n : Int, v = .int n ∧ 0 ≤ n
    | _ => ∃ n : Int, v = .int n

namespace Formula

/-- The arguments of a relation, with their roles. -/
def places : Formula → List (Role × Term)
  | .note c octave pitch => [(.pitchClass, c), (.octave, octave), (.pitch, pitch)]
  | .interval d first second => [(.distance, d), (.pitch, first), (.pitch, second)]
  | .above d low high => [(.distance, d), (.pitch, low), (.pitch, high)]
  | .majorTriad root third fifth => [(.pitch, root), (.pitch, third), (.pitch, fifth)]
  | .minorTriad root third fifth => [(.pitch, root), (.pitch, third), (.pitch, fifth)]
  | .chord _ pitches => pitches.map fun t => (.pitch, t)
  | _ => []

/-- The formula is one of the relations.  The quality of a chord has a name, and a chord has
three voices, which may come after a root. -/
inductive IsRelation : Formula → Prop where
  | note (c octave pitch : Term) : IsRelation (.note c octave pitch)
  | interval (d first second : Term) : IsRelation (.interval d first second)
  | above (d low high : Term) : IsRelation (.above d low high)
  | majorTriad (root third fifth : Term) : IsRelation (.majorTriad root third fifth)
  | minorTriad (root third fifth : Term) : IsRelation (.minorTriad root third fifth)
  | chord {name : String} {q : ChordQuality} (known : ChordQuality.ofName? name = some q)
      (root low middle high : Term) :
      IsRelation (.chord (.val (.text name)) [root, low, middle, high])
  | voices {name : String} {q : ChordQuality} (known : ChordQuality.ofName? name = some q)
      (low middle high : Term) : IsRelation (.chord (.val (.text name)) [low, middle, high])

/-- A relation of which each argument is taken for its role. -/
structure Relates (roles : String → Role) (f : Formula) : Prop where
  relation : f.IsRelation
  takes : ∀ p ∈ f.places, p.1.Takes roles p.2

/-- The variable is an argument of the formula. -/
def Mentions (f : Formula) (x : Var) : Prop := ∃ p ∈ f.places, p.2 = .var x

/-- The integers that terms of a role may be in a search for some relations: those that a search
gives them, the constants of the role, and the distances within an octave. -/
def Stands (space : PitchSpace) (fs : List Formula) (r : Role) (n : Int) : Prop :=
  r.Ranges space n ∨ (∃ f ∈ fs, (r, .int n) ∈ f.places) ∨ (r = .distance ∧ 0 ≤ n ∧ n ≤ 12)

/-- The integers that a search for some relations works with. -/
def Arises (space : PitchSpace) (fs : List Formula) (n : Int) : Prop :=
  (∃ r, Stands space fs r n) ∨
    ∃ q : PitchClass × Int, Stands space fs .octave q.2 ∧ n = PitchSpace.place q

/-- The setting of a query for the variables of some relations. -/
def setting (roles : String → Role) (fs : List Formula) (names : List String)
    (space : PitchSpace) : Setting where
  space := space
  role
    | .named x => roles x
    | .fresh _ => .pitch
  asked x := ∃ name ∈ names, x = .named name
  values := Stands space fs
  integers := Arises space fs
  role_fresh _ := rfl
  not_asked_fresh _ h := by
    obtain ⟨name, -, heq⟩ := h
    cases heq
  values_of_ranges _ _ h := .inl h
  integers_of_values r _ h := .inl ⟨r, h⟩
  values_distance _ hlow hhigh := .inr (.inr ⟨rfl, hlow, hhigh⟩)
  integers_placed c o h := .inr ⟨(c, o), h, rfl⟩

end Formula

/-! ## Weights of relations -/

namespace Setting

variable {σ : Setting} {r : Role} {t : Term}

variable (σ) in
/-- A variable of the role that is asked for, or a constant of the role. -/
def Admits (r : Role) : Term → Prop
  | .var x => σ.role x = r ∧ σ.asked x
  | .val v =>
    match r with
    | .pitchClass => ∃ c, PitchClass.ofValue v = .ok c
    | .distance => ∃ n : Int, v = .int n ∧ 0 ≤ n ∧ σ.values .distance n
    | r => ∃ n : Int, v = .int n ∧ σ.values r n

/-- A name stands for its class. -/
theorem Admits.pitchClass (h : σ.Admits .pitchClass t) :
    ∃ c, Builder.pitchClass t = pure c ∧ σ.Plays .pitchClass c ∧ ∀ x, c = .var x ↔ t = .var x := by
  cases t with
  | var x => exact ⟨.var x, rfl, h, fun y => Iff.rfl⟩
  | val v =>
      obtain ⟨c, hc⟩ := h
      refine ⟨.val (.pitchClass c), ?_, ⟨c, rfl⟩, fun x => by simp⟩
      cases v with
      | pitchClass j =>
          cases hc
          rfl
      | text s =>
          simp only [Builder.pitchClass, hc]
          rfl
      | _ => cases hc

theorem Admits.plays (h : σ.Admits r t) (hr : r ≠ .pitchClass) : σ.Plays r t := by
  cases t with
  | var x => exact h
  | val v =>
      cases r with
      | pitchClass => exact absurd rfl hr
      | octave => exact h
      | pitch => exact h
      | distance =>
          obtain ⟨n, rfl, -, hn⟩ := h
          exact ⟨n, rfl, hn⟩

theorem Plays.openOr (h : σ.Plays r t) (hr : r ≠ .pitchClass) : Builder.openOr t = pure t := by
  cases t with
  | var x => rfl
  | val v =>
      obtain ⟨n, rfl, -⟩ := (h.numeric hr : ∃ n, v = .int n ∧ True)
      rfl

theorem Admits.plays_pitch (h : σ.Admits .pitch t) : σ.Plays .pitch t := h.plays Role.pitch_ne

theorem Admits.plays_distance (h : σ.Admits .distance t) : σ.Plays .distance t :=
  h.plays Role.distance_ne

theorem Admits.openOr_pitch (h : σ.Admits .pitch t) : Builder.openOr t = pure t :=
  h.plays_pitch.openOr Role.pitch_ne

theorem Admits.distance (h : σ.Admits .distance t) : Builder.distance t = pure t := by
  cases t with
  | var x => rfl
  | val v =>
      obtain ⟨n, rfl, hn, -⟩ := h
      simp only [Builder.distance, resolveDistance, if_neg (Int.not_lt.mpr hn)]
      rfl

end Setting

namespace Formula

open Setting

variable {σ : Setting} {H : Var → Prop} {k : Nat} {f : Formula}

/-- The formula builds a goal of the weight, which meets the variables that the formula
mentions.  It may make variables. -/
def Weighs (σ : Setting) (f : Formula) (m : Assignment → Nat) : Prop :=
  ∀ k, ∃ g j, f.build k = .ok (g, j) ∧
    ∀ H, σ.Weighs (σ.Meets H k) g (σ.Meets (fun x => f.Mentions x ∨ H x) j) m

variable {c octave pitch d a b root low middle high : Term}

theorem weighs_note (hc : σ.Admits .pitchClass c) (ho : σ.Admits .octave octave)
    (hp : σ.Admits .pitch pitch) : ∃ m, (Formula.note c octave pitch).Weighs σ m := by
  obtain ⟨c', hbuild, hc, hvar⟩ := hc.pitchClass
  have ho := ho.plays Role.octave_ne
  refine ⟨_, fun k => ⟨_, k, ?_, fun H => (note_weighs hc ho hp.plays_pitch).mono (fun s hs => hs)
    fun s hs => Meets.mono hs fun x hx => ?_⟩⟩
  · simp only [build, Builder.note, hbuild, ho.openOr Role.octave_ne, hp.openOr_pitch, pure_bind]
    rfl
  · simp only [withNote, Term.joins, hvar]
    simpa [Mentions, places, or_assoc, or_comm, or_left_comm] using hx

theorem interval_eq (hd : σ.Admits .distance d) (ha : σ.Admits .pitch a) (hb : σ.Admits .pitch b) :
    Builder.interval d a b = pure (Relation.interval d a b) := by
  simp only [Builder.interval, hd.distance, ha.openOr_pitch, hb.openOr_pitch, pure_bind]

theorem weighs_interval (hd : σ.Admits .distance d) (ha : σ.Admits .pitch a)
    (hb : σ.Admits .pitch b) : ∃ m, (Formula.interval d a b).Weighs σ m := by
  refine ⟨_, fun k => ⟨_, k, ?_, fun H => (interval_weighs hd.plays_distance ha.plays_pitch
    hb.plays_pitch).mono (fun s hs => hs) fun s hs => Meets.mono hs fun x hx => ?_⟩⟩
  · rw [build, interval_eq hd ha hb]
    rfl
  · simp only [withInterval, Term.joins]
    simpa [Mentions, places, or_assoc, or_comm, or_left_comm] using hx

theorem weighs_above (hd : σ.Admits .distance d) (hlow : σ.Admits .pitch low)
    (hhigh : σ.Admits .pitch high) : ∃ m, (Formula.above d low high).Weighs σ m := by
  refine ⟨_, fun k => ⟨_, k, ?_, fun H => (above_weighs hd.plays_distance hlow.plays_pitch
    hhigh.plays_pitch).mono (fun s hs => hs) fun s hs => Meets.mono hs.1 fun x hx => ?_⟩⟩
  · simp only [build, Builder.above, hd.distance, hlow.openOr_pitch, hhigh.openOr_pitch,
      pure_bind]
    rfl
  · simp only [withInterval, Term.joins]
    simpa [Mentions, places, or_assoc, or_comm, or_left_comm] using hx

/-- Two intervals from one pitch. -/
theorem weighs_spread {third fifth : Int}
    (hbuild : f.build = Builder.spread third fifth root a b)
    (hplaces : f.places = [(.pitch, root), (.pitch, a), (.pitch, b)])
    (hthird : 0 ≤ third ∧ third ≤ 12) (hfifth : 0 ≤ fifth ∧ fifth ≤ 12)
    (hadmits : ∀ p ∈ f.places, σ.Admits p.1 p.2) : ∃ m, f.Weighs σ m := by
  rw [hplaces] at hadmits
  simp only [List.forall_mem_cons] at hadmits
  obtain ⟨hroot, ha, hb, -⟩ := hadmits
  have hdistance : ∀ n : Int, 0 ≤ n ∧ n ≤ 12 → σ.Admits .distance (.int n) :=
    fun n hn => ⟨n, rfl, hn.1, σ.values_distance n hn.1 hn.2⟩
  have hlower := hdistance third hthird
  have hupper := hdistance fifth hfifth
  refine ⟨fun ρ => once (fun ρ => σ.space.Apart third (root.eval ρ) (a.eval ρ)) ρ *
    once (fun ρ => σ.space.Apart fifth (root.eval ρ) (b.eval ρ)) ρ, fun k => ⟨Goal.conjoin
      [Relation.interval (.int third) root a, Relation.interval (.int fifth) root b], k, ?_,
      fun H => ?_⟩⟩
  · simp only [hbuild, Builder.spread, interval_eq hlower hroot ha, interval_eq hupper hroot hb,
      pure_bind]
    rfl
  · have hfirst := interval_weighs (H := H) (k := k) hlower.plays_distance
      hroot.plays_pitch ha.plays_pitch
    have hsecond := interval_weighs (H := withInterval (.int third) root a H) (k := k)
      hupper.plays_distance hroot.plays_pitch hb.plays_pitch
    refine (Goal.conjoin_cons_weighs hfirst (Goal.conjoin_single_weighs hsecond)).mono
      (fun s hs => hs) fun s hs => Meets.mono hs fun x hx => ?_
    simp only [Mentions, hplaces] at hx
    simp only [withInterval, Term.joins]
    simp only [List.exists_mem_cons_iff, List.not_mem_nil, false_and, exists_false] at hx
    tauto

theorem voicedChord_eq {q : ChordQuality} {vs : List Voicing} (hvs : q.voicings = .ok vs)
    {t : Term} {j : Nat} (hroot : Builder.openOr root k = .ok (t, j)) (hlow : σ.Admits .pitch low)
    (hmiddle : σ.Admits .pitch middle) (hhigh : σ.Admits .pitch high) :
    Builder.voicedChord q root low middle high k =
      .ok (Goal.disjoin (vs.map (Relation.voiced t low middle high)), j) := by
  simp only [Builder.voicedChord, hlow.openOr_pitch, hmiddle.openOr_pitch, hhigh.openOr_pitch,
    pure_bind, Relation.chord, hvs]
  show (Builder.openOr root k >>= fun r => _) = _
  rw [hroot]
  rfl

theorem plays_voices (hlow : σ.Admits .pitch low) (hmiddle : σ.Admits .pitch middle)
    (hhigh : σ.Admits .pitch high) : ∀ b ∈ [low, middle, high], σ.Plays .pitch b := by
  simp only [List.forall_mem_cons]
  exact ⟨hlow.plays_pitch, hmiddle.plays_pitch, hhigh.plays_pitch, List.forall_mem_nil _⟩

theorem weighs_chord {name : String} {q : ChordQuality} (hq : ChordQuality.ofName? name = some q)
    (hroot : σ.Admits .pitch root) (hlow : σ.Admits .pitch low) (hmiddle : σ.Admits .pitch middle)
    (hhigh : σ.Admits .pitch high) :
    ∃ m, (Formula.chord (.val (.text name)) [root, low, middle, high]).Weighs σ m := by
  obtain ⟨vs, hvs, hclose⟩ := ChordQuality.named_close hq
  have hvoices := plays_voices hlow hmiddle hhigh
  refine ⟨_, fun k => ⟨_, k, ?_, fun H => (chord_weighs hclose hroot.plays_pitch hvoices).mono
    (fun s hs => hs) fun s hs => Meets.mono hs fun x hx => ?_⟩⟩
  · have hopen : Builder.openOr root k = .ok (root, k) := by
      rw [hroot.openOr_pitch]
      rfl
    rw [← voicedChord_eq hvs hopen hlow hmiddle hhigh]
    simp only [build, Builder.chord, ChordQuality.ofTerm, hq]
    rfl
  · simp only [withVoices, Term.joins]
    simpa [Mentions, places, or_assoc, or_comm, or_left_comm] using hx

theorem weighs_voices {name : String} {q : ChordQuality} (hq : ChordQuality.ofName? name = some q)
    (hlow : σ.Admits .pitch low) (hmiddle : σ.Admits .pitch middle)
    (hhigh : σ.Admits .pitch high) :
    ∃ m, (Formula.chord (.val (.text name)) [low, middle, high]).Weighs σ m := by
  obtain ⟨vs, hvs, hclose⟩ := ChordQuality.named_close hq
  have hvoices := plays_voices hlow hmiddle hhigh
  refine ⟨_, fun k => ⟨_, k + 1, ?_, fun H => (rootless_chord_weighs hclose hvoices).mono
    (fun s hs => hs) fun s hs => Meets.mono hs fun x hx => ?_⟩⟩
  · have hopen : Builder.openOr (.val .nothing) k = .ok (.var (.fresh k), k + 1) := rfl
    rw [← voicedChord_eq hvs hopen hlow hmiddle hhigh]
    simp only [build, Builder.chord, ChordQuality.ofTerm, hq]
    rfl
  · simp only [withVoices, Term.joins]
    simpa [Mentions, places, or_assoc, or_comm, or_left_comm] using hx

/-- Every relation has a weight. -/
theorem IsRelation.weighs (hf : f.IsRelation) (hplaces : ∀ p ∈ f.places, σ.Admits p.1 p.2) :
    ∃ m, f.Weighs σ m := by
  cases hf with
  | note c octave pitch =>
      simp only [places, List.forall_mem_cons] at hplaces
      exact weighs_note hplaces.1 hplaces.2.1 hplaces.2.2.1
  | interval d a b =>
      simp only [places, List.forall_mem_cons] at hplaces
      exact weighs_interval hplaces.1 hplaces.2.1 hplaces.2.2.1
  | above d low high =>
      simp only [places, List.forall_mem_cons] at hplaces
      exact weighs_above hplaces.1 hplaces.2.1 hplaces.2.2.1
  | majorTriad root third fifth =>
      exact weighs_spread rfl rfl (by decide) (by decide) hplaces
  | minorTriad root third fifth =>
      exact weighs_spread rfl rfl (by decide) (by decide) hplaces
  | chord known root low middle high =>
      simp only [places, List.map_cons, List.map_nil, List.forall_mem_cons] at hplaces
      exact weighs_chord known hplaces.1 hplaces.2.1 hplaces.2.2.1 hplaces.2.2.2.1
  | voices known low middle high =>
      simp only [places, List.map_cons, List.map_nil, List.forall_mem_cons] at hplaces
      exact weighs_voices known hplaces.1 hplaces.2.1 hplaces.2.2.1

/-- Weights multiply over a list of relations. -/
theorem buildAll_weighs {w : Formula → Assignment → Nat} {fs : List Formula}
    (hfs : ∀ f ∈ fs, f.Weighs σ (w f)) (k : Nat) :
    ∃ gs j, buildAll fs k = .ok (gs, j) ∧ ∀ H,
      σ.Weighs (σ.Meets H k) (Goal.conjoin gs)
        (σ.Meets (fun x => (∃ f ∈ fs, f.Mentions x) ∨ H x) j)
        fun ρ => (fs.map fun f => w f ρ).prod := by
  induction fs generalizing k with
  | nil =>
      refine ⟨[], k, rfl, fun H => Goal.succeed_weighs.mono (fun s hs => hs) fun s hs => ?_⟩
      exact Meets.mono hs fun x hx => hx.resolve_left fun ⟨_, hf, _⟩ => List.not_mem_nil hf
  | cons f rest ih =>
      obtain ⟨hf, hrest⟩ := List.forall_mem_cons.mp hfs
      obtain ⟨g, i, hbuild, hg⟩ := hf k
      obtain ⟨gs, j, hbuilds, hgs⟩ := ih hrest i
      refine ⟨g :: gs, j, ?_, fun H => ?_⟩
      · show (f.build k >>= fun r => buildAll rest r.2 >>= fun q => pure (r.1 :: q.1, q.2)) = _
        rw [hbuild]
        show (buildAll rest i >>= fun q => pure (g :: q.1, q.2)) = _
        rw [hbuilds]
        rfl
      · refine (Goal.conjoin_cons_weighs (hg H) (hgs _)).mono (fun s hs => hs) fun s hs => ?_
        refine Meets.mono hs fun x hx => ?_
        simpa only [List.exists_mem_cons_iff, or_assoc, or_left_comm] using hx

end Formula

/-! ## Rows -/

theorem Role.value_inj {space : PitchSpace} {r : Role} {m n : Int} (hm : r.Ranges space m)
    (hn : r.Ranges space n) (h : r.value m = r.value n) : m = n := by
  by_cases hr : r = .pitchClass
  · subst hr
    simp only [value, Value.pitchClass.injEq] at h
    have hmod : m % 12 = n % 12 := by
      rw [← PitchClass.toInt_ofInt, h, PitchClass.toInt_ofInt]
    rwa [Int.emod_eq_of_lt hm.1 hm.2, Int.emod_eq_of_lt hn.1 hn.2] at hmod
  · rw [value_of_ne hr, value_of_ne hr] at h
    exact Value.int.inj h

namespace Setting

variable {σ : Setting} {H : Var → Prop} {k : Nat} {s t : State} {ρ : Assignment} {xs : List Var}

variable (σ) in
/-- The row of an assignment. -/
def row (xs : List Var) (ρ : Assignment) : Row := xs.map fun x => .val ((σ.role x).value (ρ x))

variable (σ) in
/-- A state at the end of a query: the variables that are asked for are known. -/
def Final (t : State) : Prop := ∃ H k, σ.Knows σ.asked H k t

theorem Final.exists_has (ht : σ.Final t) : ∃ ρ, σ.Has t ρ := by
  obtain ⟨H, k, ⟨V, -, ht⟩, hknown⟩ := ht
  obtain ⟨ρ, hρ⟩ := ht.ready.exists_solution fun x hx => by
    obtain ⟨n, hn⟩ := hknown x (ht.asked x hx)
    exact ⟨_, hn⟩
  exact ⟨ρ, ρ, fun x _ => rfl, hρ⟩

/-- What a final state knows is what its assignments say. -/
theorem Final.walk_eq (ht : σ.Final t) (hρ : σ.Has t ρ) {x : Var} (hx : σ.asked x) :
    t.walk (.var x) = .val ((σ.role x).value (ρ x)) ∧ (σ.role x).Ranges σ.space (ρ x) := by
  obtain ⟨H, k, ⟨V, -, ht⟩, hknown⟩ := ht
  obtain ⟨n, hn⟩ := hknown x hx
  have hplays : σ.Plays (σ.role x) (.var x) := ⟨rfl, hx⟩
  have heval : ρ x = n := Poised.eval_eq hplays hn hρ
  constructor
  · cases hw : t.walk (.var x) with
    | var y =>
        have hnumbered := t.walk_numbered (.var x)
        rw [hw] at hnumbered
        cases hn.symm.trans hnumbered
    | val v =>
        obtain ⟨m, rfl, -, hm⟩ := ht.known hplays hw
        cases hn.symm.trans hm
        rw [heval]
  · obtain ⟨ρ', hagree, hsolution⟩ := hρ
    rw [← hagree x hx]
    exact ht.ranges x (ht.mem_of_walk hx hn) ρ' hsolution.fits

/-- A final state has the assignments of its row. -/
theorem Final.row_eq_iff (ht : σ.Final t) (hxs : ∀ x, x ∈ xs ↔ σ.asked x)
    (hρ : ∀ x ∈ xs, (σ.role x).Ranges σ.space (ρ x)) :
    (xs.map fun x => t.walk (.var x)) = σ.row xs ρ ↔ σ.Has t ρ := by
  constructor
  · intro hrow
    obtain ⟨ρ₀, hρ₀⟩ := ht.exists_has
    have hagree : ∀ x, σ.asked x → ρ₀ x = ρ x := by
      intro x hx
      have hmem := (hxs x).mpr hx
      obtain ⟨hwalk, hrange⟩ := ht.walk_eq hρ₀ hx
      have heq := List.map_inj_left.mp hrow x hmem
      rw [hwalk, Term.val.injEq] at heq
      exact Role.value_inj hrange (hρ x hmem) heq
    obtain ⟨ρ', hρ', hsolution⟩ := hρ₀
    exact ⟨ρ', fun x hx => (hρ' x hx).trans (hagree x hx), hsolution⟩
  · intro hhas
    exact List.map_congr_left fun x hx => (ht.walk_eq hhas ((hxs x).mp hx)).1

open Classical in
/-- The states with a row are those that have its assignment. -/
theorem count_rows {ts : List State} (hts : ∀ t ∈ ts, σ.Final t) (hxs : ∀ x, x ∈ xs ↔ σ.asked x)
    (hρ : ∀ x ∈ xs, (σ.role x).Ranges σ.space (ρ x)) :
    (ts.map fun t => xs.map fun x => t.walk (.var x)).count (σ.row xs ρ) = tally σ.Has ts ρ := by
  rw [List.count, List.countP_map, tally]
  refine List.countP_congr fun t ht => ?_
  simpa using (hts t ht).row_eq_iff hxs hρ

/-- Final states that have the same assignments equally often have the same rows. -/
theorem rows_perm {ts us : List State} (hts : ∀ t ∈ ts, σ.Final t) (hus : ∀ t ∈ us, σ.Final t)
    (hxs : ∀ x, x ∈ xs ↔ σ.asked x) (h : ∀ ρ, tally σ.Has ts ρ = tally σ.Has us ρ) :
    (ts.map fun t => xs.map fun x => t.walk (.var x)).Perm
      (us.map fun t => xs.map fun x => t.walk (.var x)) := by
  classical
  refine List.perm_iff_count.mpr fun row => ?_
  by_cases hrow : ∃ ρ, (∀ x ∈ xs, (σ.role x).Ranges σ.space (ρ x)) ∧ row = σ.row xs ρ
  · obtain ⟨ρ, hρ, rfl⟩ := hrow
    rw [count_rows hts hxs hρ, count_rows hus hxs hρ, h ρ]
  · -- Every row of a final state is that of an assignment within the ranges.
    have hnone : ∀ vs : List State, (∀ t ∈ vs, σ.Final t) →
        (vs.map fun t => xs.map fun x => t.walk (.var x)).count row = 0 := by
      intro vs hvs
      refine List.count_eq_zero.mpr fun hmem => ?_
      obtain ⟨t, ht, rfl⟩ := List.mem_map.mp hmem
      obtain ⟨ρ, hρ⟩ := (hvs t ht).exists_has
      have hwalk := fun x hx => (hvs t ht).walk_eq hρ ((hxs x).mp hx)
      exact hrow ⟨ρ, fun x hx => (hwalk x hx).2, List.map_congr_left fun x hx => (hwalk x hx).1⟩
    rw [hnone ts hts, hnone us hus]

theorem poised_empty (σ : Setting) : σ.Poised (fun _ => False) 0 (.empty σ.space) where
  space := rfl
  sorted := State.sorted_empty _ _
  ready := State.empty_ready σ.space (.inr fun _ => False.elim)
  encloses _ h := h.elim
  asked _ h := h.elim
  ranges _ h := h.elim
  untouched x _ _ := State.untouched_empty σ.space x

end Setting

namespace Formula

open Setting

/-- The states in which a query for variables ends. -/
theorem run_ends {σ : Setting} {w : Formula → Assignment → Nat} {fs : List Formula}
    (hfs : ∀ f ∈ fs, f.Weighs σ (w f)) {xs : List Var} (hxs : ∀ x, x ∈ xs ↔ σ.asked x)
    (hmet : ∀ x ∈ xs, (∃ f ∈ fs, f.Mentions x) ∨ σ.role x = .pitch)
    (hwritable : ∀ n, Derived σ.integers n → Number.isWritable n = true) :
    ∃ ts : List State, (conjoin fs).run (xs.map .var) .nothing σ.space =
        .ok (ts.map fun t => xs.map fun x => t.walk (.var x)) ∧
      (∀ t ∈ ts, σ.Final t) ∧ ∀ ρ, tally σ.Has ts ρ = once (σ.Has (.empty σ.space)) ρ *
        ((fs.map fun f => w f ρ).prod *
          (xs.map fun x => once (fun ρ => (σ.role x).Ranges σ.space (ρ x)) ρ).prod) := by
  obtain ⟨gs, j, hbuild, hgs⟩ := buildAll_weighs hfs 0
  have hgoal : (conjoin fs).goal = .ok (Goal.conjoin gs) := by
    show ((buildAll fs 0 >>= fun r => pure (Goal.conjoin r.1, r.2)) >>= fun r => pure r.1) = _
    rw [hbuild]
    rfl
  have hrun : (conjoin fs).run (xs.map .var) .nothing σ.space =
      ((Goal.conjoin [Goal.conjoin gs, .label (xs.map .var)] (.empty σ.space)).map
        fun s => xs.map fun x => s.walk (.var x)).all := by
    have hrow : (fun s : State => (xs.map Term.var).map s.walk) =
        fun s => xs.map fun x => s.walk (.var x) :=
      funext fun s => List.map_map
    rw [← hrow]
    simp only [Formula.run, hgoal]
    rfl
  have hlabel := label_weighs (σ := σ) (H := fun x => (∃ f ∈ fs, f.Mentions x) ∨ False)
    (K := fun _ => False) (k := j) fun x hx => ⟨(hxs x).mp hx, (hmet x hx).imp .inl id⟩
  have hsearch := Goal.conjoin_cons_weighs ((hgs fun _ => False).mono (fun s hs => hs)
    fun s hs => (⟨hs, fun _ => False.elim⟩ : σ.Knows (fun _ => False) _ j s))
    (Goal.conjoin_single_weighs hlabel)
  have hgives := hsearch (.empty σ.space) ⟨_, fun _ => False.elim, poised_empty σ⟩
  rw [hrun]
  rcases (hgives.with_each.map (f := fun s => xs.map fun x => s.walk (.var x))).all with
    ⟨⟨ts, ⟨htally, hfinal⟩, hitems⟩, hok⟩ | ⟨f, ⟨-, n, hn, hlong⟩, -⟩
  · refine ⟨ts, hok.trans (congrArg _ hitems), fun t ht => ?_, htally⟩
    refine ⟨_, j, (hfinal t ht).1, fun x hx => (hfinal t ht).2 x (.inl ((hxs x).mpr hx))⟩
  · rw [hwritable n hn] at hlong
    cases hlong

theorem Relates.admits {roles : String → Role} {fs : List Formula} {names : List String}
    {space : PitchSpace} {f : Formula} (h : f.Relates roles) (hf : f ∈ fs)
    (hnames : ∀ x, f.Mentions (.named x) → x ∈ names) {p : Role × Term} (hp : p ∈ f.places) :
    (setting roles fs names space).Admits p.1 p.2 := by
  obtain ⟨r, t⟩ := p
  have htakes := h.takes _ hp
  cases t with
  | var x =>
      cases x with
      | named y => exact ⟨htakes, y, hnames y ⟨_, hp, rfl⟩, rfl⟩
      | fresh k => exact htakes.elim
  | val v =>
      cases r with
      | pitchClass => exact htakes
      | octave =>
          obtain ⟨n, rfl⟩ := htakes
          exact ⟨n, rfl, .inr (.inl ⟨f, hf, hp⟩)⟩
      | pitch =>
          obtain ⟨n, rfl⟩ := htakes
          exact ⟨n, rfl, .inr (.inl ⟨f, hf, hp⟩)⟩
      | distance =>
          obtain ⟨n, rfl, hn⟩ := htakes
          exact ⟨n, rfl, hn, .inr (.inl ⟨f, hf, hp⟩)⟩

/-- A variable that no relation mentions may have the role of a pitch, as a query takes it. -/
theorem exists_roles {roles : String → Role} {fs : List Formula}
    (hfs : ∀ f ∈ fs, f.Relates roles) :
    ∃ roles', (∀ f ∈ fs, f.Relates roles') ∧
      ∀ x, (∃ f ∈ fs, f.Mentions (.named x)) ∨ roles' x = .pitch := by
  classical
  refine ⟨fun x => if ∃ f ∈ fs, f.Mentions (.named x) then roles x else .pitch, ?_, fun x => ?_⟩
  · refine fun f hf => ⟨(hfs f hf).relation, fun p hp => ?_⟩
    have htakes := (hfs f hf).takes p hp
    obtain ⟨r, t⟩ := p
    cases t with
    | val v => exact htakes
    | var y =>
        cases y with
        | fresh k => exact htakes
        | named x => exact (if_pos ⟨f, hf, _, hp, rfl⟩).trans htakes
  · by_cases hx : ∃ f ∈ fs, f.Mentions (.named x)
    · exact .inl hx
    · exact .inr (if_neg hx)

/-- A query for the variables of some relations succeeds, and gives the same rows as often in
whatever order the relations are put. -/
theorem run_perm {roles : String → Role} {fs gs : List Formula} {names : List String}
    {space : PitchSpace} (hfs : ∀ f ∈ fs, f.Relates roles)
    (hnames : ∀ f ∈ fs, ∀ x, f.Mentions (.named x) → x ∈ names)
    (hwritable : ∀ n, Derived (Arises space fs) n → Number.isWritable n = true)
    (hperm : fs.Perm gs) :
    ∃ rows rows' : List Row,
      (conjoin fs).run (names.map fun x => .var (.named x)) .nothing space = .ok rows ∧
      (conjoin gs).run (names.map fun x => .var (.named x)) .nothing space = .ok rows' ∧
      rows.Perm rows' := by
  obtain ⟨roles, hfs, hother⟩ := exists_roles hfs
  let σ := setting roles fs names space
  let xs : List Var := names.map .named
  have hxs : ∀ x, x ∈ xs ↔ σ.asked x := fun x => by
    simp only [xs, List.mem_map]
    exact exists_congr fun name => and_congr_right fun _ => eq_comm
  have hweighs : ∀ f ∈ fs, ∃ m, f.Weighs σ m := fun f hf =>
    (hfs f hf).relation.weighs fun p hp => (hfs f hf).admits hf (hnames f hf) hp
  choose! w hw using hweighs
  have hmet : ∀ x ∈ xs, (∃ f ∈ fs, f.Mentions x) ∨ σ.role x = .pitch := by
    intro x hx
    obtain ⟨name, -, rfl⟩ := List.mem_map.mp hx
    exact hother name
  obtain ⟨ts, hrun, hts, htally⟩ := run_ends hw hxs hmet hwritable
  obtain ⟨us, hrun', hus, htally'⟩ := run_ends (fun f hf => hw f (hperm.mem_iff.mpr hf)) hxs
    (fun x hx => (hmet x hx).imp (fun ⟨f, hf, hfx⟩ => ⟨f, hperm.mem_iff.mp hf, hfx⟩) id) hwritable
  have hquery : xs.map Term.var = names.map fun x => .var (.named x) := List.map_map
  rw [hquery] at hrun hrun'
  refine ⟨_, _, hrun, hrun', rows_perm hts hus hxs fun ρ => ?_⟩
  -- The weights of the relations are the same factors in another order.
  rw [htally ρ, htally' ρ, (hperm.map fun f => w f ρ).prod_eq]

/-! ## Searches among the pitches of MIDI -/

theorem Stands.natAbs_le {fs : List Formula} {r : Role} {n : Int} (h : Stands .midi fs r n)
    (hfs : ∀ f ∈ fs, ∀ p ∈ f.places, ∀ m : Int, p.2 = .int m → m.natAbs ≤ 127) :
    n.natAbs ≤ 127 := by
  rcases h with hrange | ⟨f, hf, hmem⟩ | ⟨-, hlow, hhigh⟩
  · cases r with
    | pitchClass =>
        obtain ⟨hlow, hhigh⟩ := hrange
        omega
    | octave =>
        obtain ⟨hlow, hhigh⟩ : -1 ≤ n ∧ n ≤ 9 := PitchSpace.mem_run.mp hrange
        omega
    | pitch =>
        obtain ⟨hlow, hhigh⟩ : 0 ≤ n ∧ n ≤ 127 := hrange
        omega
    | distance =>
        obtain ⟨hlow, hhigh⟩ : 0 ≤ n ∧ n ≤ 127 := hrange
        omega
  · exact hfs f hf _ hmem n rfl
  · omega

theorem Arises.natAbs_lt {fs : List Formula} {n : Int} (h : Arises .midi fs n)
    (hfs : ∀ f ∈ fs, ∀ p ∈ f.places, ∀ m : Int, p.2 = .int m → m.natAbs ≤ 127) :
    n.natAbs < 2000 := by
  rcases h with ⟨r, hstands⟩ | ⟨q, hstands, rfl⟩
  · have := hstands.natAbs_le hfs
    omega
  · have := hstands.natAbs_le hfs
    have := q.1.toInt_nonneg
    have := q.1.toInt_lt
    rw [PitchSpace.place]
    omega

/-- With constants that could be pitches of MIDI, every integer of a search among these is
written. -/
theorem writable_midi {fs : List Formula}
    (hfs : ∀ f ∈ fs, ∀ p ∈ f.places, ∀ m : Int, p.2 = .int m → m.natAbs ≤ 127) :
    ∀ n, Derived (Arises .midi fs) n → Number.isWritable n = true := by
  intro n hn
  refine Number.isWritable_of_natAbs_lt (k := 4) (by decide) ?_
  show n.natAbs < 10000
  cases hn with
  | same hn =>
      have := hn.natAbs_lt hfs
      omega
  | sub hm hn =>
      have := hm.natAbs_lt hfs
      have := hn.natAbs_lt hfs
      omega
  | add hm hn =>
      have := hm.natAbs_lt hfs
      have := hn.natAbs_lt hfs
      omega

/-- A fifth with a `G` above, which comes after the fifth or before it. -/
theorem run_perm_fifth :
    let roles : String → Role := fun x => if x = "octave" then .octave else .pitch
    let fifth : Formula := .above (.int 7) (.var (.named "low")) (.var (.named "high"))
    let note : Formula :=
      .note (.val (.text "G")) (.var (.named "octave")) (.var (.named "high"))
    let query : List Term := ["low", "high", "octave"].map fun x => .var (.named x)
    (∀ f ∈ [fifth, note], f.Relates roles) ∧
      (∀ n, Derived (Arises .midi [fifth, note]) n → Number.isWritable n = true) ∧
      ∃ rows rows' : List Row,
        (conjoin [fifth, note]).run query .nothing .midi = .ok rows ∧
        (conjoin [note, fifth]).run query .nothing .midi = .ok rows' ∧ rows.Perm rows' := by
  intro roles fifth note query
  have hrelates : ∀ f ∈ [fifth, note], f.Relates roles := by
    simp only [List.forall_mem_cons]
    refine ⟨⟨.above _ _ _, ?_⟩, ⟨.note _ _ _, ?_⟩, List.forall_mem_nil _⟩
    · simp only [fifth, places, List.forall_mem_cons]
      exact ⟨⟨7, rfl, by decide⟩, rfl, rfl, List.forall_mem_nil _⟩
    · simp only [note, places, List.forall_mem_cons]
      exact ⟨⟨.ofInt 7, rfl⟩, rfl, rfl, List.forall_mem_nil _⟩
  have hnames : ∀ f ∈ [fifth, note], ∀ x, f.Mentions (.named x) →
      x ∈ ["low", "high", "octave"] := by
    simp only [List.forall_mem_cons, fifth, note, Mentions, places, List.exists_mem_cons_iff]
    grind
  have hconstants : ∀ f ∈ [fifth, note], ∀ p ∈ f.places, ∀ m : Int, p.2 = .int m →
      m.natAbs ≤ 127 := by
    simp only [List.forall_mem_cons, fifth, note, places]
    simp
  have hwritable := writable_midi hconstants
  exact ⟨hrelates, hwritable, run_perm hrelates hnames hwritable (.swap _ _ _)⟩

end Formula

end Consonance
