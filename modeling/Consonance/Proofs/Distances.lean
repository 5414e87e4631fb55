import Consonance.Proofs.Roles
import Consonance.Relation.Chord

/-!
# Distances and chords

Two pitches of a space lie a distance above each other, or apart (`PitchSpace.Above`,
`PitchSpace.Apart`).  The relations of intervals restrict the pitches to the space and the
distance to what the space has room for, and then post a difference.  By then all three terms
have been met, so the difference is one of met terms (`Setting.difference_weighs`).  Either
relation finds each pair of pitches once (`above_weighs`, `interval_weighs`): where the distance
is zero the two alternatives of an interval would both find it, and the second one is made to
give way.

A chord is found once for each of its voicings that it matches (`chord_weighs`), which may be
more than one if its root is not asked for.
-/

namespace Consonance

namespace PitchSpace

/-- The integer is a pitch of the space. -/
def Has (space : PitchSpace) (n : Int) : Prop := space.lowest ≤ n ∧ n ≤ space.highest

/-- A pitch of the space lies a distance above another one. -/
def Above (space : PitchSpace) (distance low high : Int) : Prop :=
  space.Has low ∧ space.Has high ∧ 0 ≤ distance ∧ high - low = distance

/-- Two pitches of the space lie a distance apart. -/
def Apart (space : PitchSpace) (distance first second : Int) : Prop :=
  space.Above distance first second ∨ space.Above distance second first

end PitchSpace

/-! ## Voicings -/

/-- The voices of a voicing lie within an octave above the bass. -/
def Voicing.Close (v : Voicing) : Prop :=
  (∃ n : Int, v.middle = .int n ∧ 0 ≤ n ∧ n ≤ 12) ∧ ∃ n : Int, v.high = .int n ∧ 0 ≤ n ∧ n ≤ 12

theorem ChordQuality.triad_close {third fifth : Nat} {name : String} (hthird : third ≤ fifth)
    (hfifth : fifth ≤ 12) :
    ∃ vs, (triad third fifth name).voicings = .ok vs ∧ ∀ v ∈ vs, v.Close := by
  refine ⟨_, voicings_triad third fifth name, ?_⟩
  simp only [List.forall_mem_cons]
  refine ⟨⟨⟨_, rfl, ?_⟩, _, rfl, ?_⟩, ⟨⟨_, rfl, ?_⟩, _, rfl, ?_⟩, ⟨⟨_, rfl, ?_⟩, _, rfl, ?_⟩,
    List.forall_mem_nil _⟩
  all_goals omega

/-- A quality that has a name stands in the table. -/
theorem ChordQuality.exists_mem_table {name : String} {q : ChordQuality}
    (h : ofName? name = some q) : ∃ key, (key, q) ∈ table := by
  rw [ofName?, List.lookup_eq_some_iff] at h
  obtain ⟨before, after, hbefore, -⟩ := h
  refine ⟨Text.lower (Text.strip name), ?_⟩
  rw [hbefore]
  exact List.mem_append_right _ (List.mem_cons_self ..)

/-- Qualities that have names have close voicings. -/
theorem ChordQuality.named_close {name : String} {q : ChordQuality} (h : ofName? name = some q) :
    ∃ vs, q.voicings = .ok vs ∧ ∀ v ∈ vs, v.Close := by
  have htable : ∀ e ∈ table, ∃ vs, e.2.voicings = .ok vs ∧ ∀ v ∈ vs, v.Close := by
    simp only [table, List.forall_mem_cons]
    refine ⟨?_, ?_, ?_, ?_, ?_, ?_, ?_, ?_, ?_, ?_, ?_, List.forall_mem_nil _⟩
    all_goals exact triad_close (by decide) (by decide)
  obtain ⟨key, hmem⟩ := exists_mem_table h
  exact htable _ hmem

/-- A value that the term is has the property. -/
def Term.Satisfies (t : Term) (P : Int → Prop) : Prop := ∀ n, t = .int n → P n

/-- An integer that passes a restriction is in the domain. -/
theorem State.mem_of_restrict {s t : State} {n : Int} {d : Domain} (hd : d.Integral)
    (h : s.restrict (.int n) (.domain d) = .ok t) : n ∈ d := by
  obtain ⟨u, hu, -⟩ := bind_eq_ok.mp h
  obtain ⟨b, hb, hmem⟩ := Domain.contains_int hd n
  simp only [narrow, walk, Substitution.walk_val, Allowed.admits, hb] at hu
  cases b with
  | true => exact hmem.mp rfl
  | false => cases hu

namespace Setting

variable {σ : Setting} {V H : Var → Prop} {k j : Nat} {s t : State} {r : Role} {n : Int}
  {a b d low middle high root : Term}

/-! ## Posting constraints of met terms -/

theorem Plays.among (ha : σ.Plays r a) (hr : r ≠ .pitchClass) (hV : ∀ x, a = .var x → V x) :
    a.Among σ.integers V := by
  cases a with
  | var x => exact hV x rfl
  | val v =>
      have hover := ha.isOver
      rwa [(ha.numeric hr).numbered] at hover

/-- A term is restricted to integers of its role. -/
theorem within_weighs (ha : σ.Plays r a) (hr : r ≠ .pitchClass) {e : Domain} (he : e.Integral)
    (hrange : ∀ n : Int, n ∈ e → r.Ranges σ.space n) :
    σ.Weighs (σ.Meets H k) (.inDomain a (.domain e))
      (fun t => σ.Meets (a.joins H) k t ∧ a.Satisfies (· ∈ e)) (once fun ρ => a.eval ρ ∈ e) := by
  refine Goal.lift_weighs fun s hs => ?_
  obtain ⟨V, hV, hs⟩ := hs
  refine (hs.within ha hr he hrange).finds (fun ρ ρ' hρ => by simp only [ha.eval_congr hρ]) ?_
  intro t hr ht _
  refine ⟨⟨_, fun x hx => hx.imp id (hV x), ht⟩, ?_⟩
  rintro n rfl
  exact State.mem_of_restrict he hr

/-- Two pitches and a distance that have been met are put into a difference. -/
theorem difference_weighs (ha : σ.Plays .pitch a) (hb : σ.Plays .pitch b)
    (hd : σ.Plays .distance d) (hH : ∀ t ∈ [a, b, d], ∀ x, t = .var x → H x) :
    σ.Weighs (σ.Meets H k) (.difference a b d) (σ.Meets H k)
      (once fun ρ => a.eval ρ - b.eval ρ = d.eval ρ) := by
  simp only [List.forall_mem_cons] at hH
  obtain ⟨haH, hbH, hdH, -⟩ := hH
  refine Goal.lift_weighs fun s hs => ?_
  obtain ⟨V, hV, hs⟩ := hs
  have houtcome := hs.difference (a := a) (b := b) (d := d)
    (by
      simp only [List.forall_mem_cons]
      exact ⟨ha.numeric Role.pitch_ne, hb.numeric Role.pitch_ne, hd.numeric Role.distance_ne,
        List.forall_mem_nil _⟩)
    (by
      simp only [List.forall_mem_cons]
      exact ⟨ha.among Role.pitch_ne fun x hx => hV x (haH x hx),
        hb.among Role.pitch_ne fun x hx => hV x (hbH x hx),
        hd.among Role.distance_ne fun x hx => hV x (hdH x hx), List.forall_mem_nil _⟩)
  refine houtcome.finds (fun ρ ρ' hρ => ?_) fun t _ ht _ => ⟨V, hV, ht⟩
  simp only [ha.eval_congr hρ, hb.eval_congr hρ, hd.eval_congr hρ]

/-- A pitch is equated with a pitch of the space that has been met. -/
theorem equate_weighs (ha : σ.Plays .pitch a) (hb : σ.Plays .pitch b)
    (hH : ∀ x, b = .var x → H x) (hin : b.Satisfies σ.space.Has) :
    σ.Weighs (σ.Meets H k) (.eq a b) (σ.Meets (a.joins H) k)
      (once fun ρ => a.eval ρ = b.eval ρ) := by
  refine Goal.lift_weighs fun s hs => ?_
  obtain ⟨V, hV, hs⟩ := hs
  have hbV := hb.among (V := V) Role.pitch_ne fun x hx => hV x (hH x hx)
  have hranges : ∀ x, a = .var x → σ.asked x ∧
      ∀ ρ, s.numbered.Fits ρ → (σ.role x).Ranges σ.space (b.eval ρ) := by
    rintro x rfl
    refine ⟨ha.2, fun ρ hρ => ?_⟩
    rw [ha.1]
    cases b with
    | var y => exact hb.1 ▸ hs.ranges y hbV ρ hρ
    | val v =>
        obtain ⟨n, rfl, -⟩ := hbV
        exact hin n rfl
  have hover : a.Over σ.integers := (ha.numeric Role.pitch_ne).numbered ▸ ha.isOver
  have hbind := State.bind_numbered hs.sorted (ha.numeric Role.pitch_ne) (hb.numeric Role.pitch_ne)
  have houtcome := hs.equate hbind hover hbV hranges
  refine houtcome.finds (fun ρ ρ' hρ => ?_) fun t _ ht _ => ⟨_, fun x hx => hx.imp id (hV x), ht⟩
  simp only [ha.eval_congr hρ, hb.eval_congr hρ]

/-- A root that is made for a chord is any pitch that has been met. -/
theorem fresh_weighs (hb : σ.Plays .pitch b) (hH : ∀ x, b = .var x → H x) :
    σ.Weighs (σ.Meets H k) (.eq (.var (.fresh k)) b) (σ.Meets H (k + 1)) (once fun _ => True) := by
  refine Goal.lift_weighs fun s hs => ?_
  obtain ⟨V, hV, hs⟩ := hs
  have hfinds := hs.fresh (hb.among Role.pitch_ne fun x hx => hV x (hH x hx))
    (hb.numeric Role.pitch_ne)
  exact State.Finds.mono hfinds fun t ht => ⟨V, hV, ht⟩

/-! ## Intervals -/

/-- Two pitches and a distance have been met, beside the variables of `H`. -/
def withInterval (d a b : Term) (H : Var → Prop) : Var → Prop := d.joins (b.joins (a.joins H))

theorem withinSpace_weighs (hs : s.space = σ.space) (ha : σ.Plays .pitch a)
    (hb : σ.Plays .pitch b) :
    σ.Weighs (σ.Meets H k) (Relation.withinSpace s [a, b])
      (fun t => σ.Meets (b.joins (a.joins H)) k t ∧
        (a.Satisfies σ.space.Has ∧ b.Satisfies σ.space.Has))
      (once fun ρ => σ.space.Has (a.eval ρ) ∧ σ.space.Has (b.eval ρ)) := by
  have hmem : ∀ n : Int, n ∈ s.spaceDomain ↔ σ.space.Has n := fun n => mem_spaceDomain hs
  have hfirst := within_weighs (H := H) (k := k) ha Role.pitch_ne s.integral_spaceDomain
    fun n hn => (hmem n).mp hn
  have hsecond := within_weighs (H := a.joins H) (k := k) hb Role.pitch_ne s.integral_spaceDomain
    fun n hn => (hmem n).mp hn
  refine ((Goal.conjoin_cons_weighs hfirst (Goal.conjoin_single_weighs
    (.frame fun _ => hsecond))).mono (fun s hs => hs) fun t ht => ?_).congr fun t _ ρ _ => ?_
  · exact ⟨ht.1.1, fun n hn => (hmem n).mp (ht.2 n hn), fun n hn => (hmem n).mp (ht.1.2 n hn)⟩
  · rw [once_mul_once]
    exact once_congr (and_congr (hmem _) (hmem _))

theorem isDistance_weighs (hs : s.space = σ.space) (hd : σ.Plays .distance d) {least : Int}
    (hleast : 0 ≤ least) :
    σ.Weighs (σ.Meets H k) (Relation.isDistance s least d) (σ.Meets (d.joins H) k)
      (once fun ρ => least ≤ d.eval ρ ∧ d.eval ρ ≤ σ.space.span) := by
  have hweighs := within_weighs (H := H) (k := k) hd Role.distance_ne
    (Domain.integral_interval least s.space.span) fun n hn => by
      rw [Domain.mem_interval, hs] at hn
      exact ⟨by omega, hn.2⟩
  refine (hweighs.mono (fun s hs => hs) fun t ht => ht.1).congr fun t _ ρ _ => once_congr ?_
  rw [Domain.mem_interval, hs]

/-- The relation of a pitch above another one finds each pair once. -/
theorem above_weighs (hd : σ.Plays .distance d) (hlow : σ.Plays .pitch low)
    (hhigh : σ.Plays .pitch high) :
    σ.Weighs (σ.Meets H k) (Relation.above d low high)
      (fun t => σ.Meets (withInterval d low high H) k t ∧
        (low.Satisfies σ.space.Has ∧ high.Satisfies σ.space.Has))
      (once fun ρ => σ.space.Above (d.eval ρ) (low.eval ρ) (high.eval ρ)) := by
  refine Goal.project_weighs fun s hs => ?_
  have hspace := hs.space
  have hdifference := difference_weighs (H := withInterval d low high H) (k := k) hhigh hlow hd
    (by simp +contextual [withInterval, Term.joins])
  have hrest := Goal.conjoin_cons_weighs (isDistance_weighs hspace hd (Int.le_refl 0))
    (Goal.conjoin_single_weighs hdifference)
  refine ((Goal.conjoin_cons_weighs (withinSpace_weighs hspace hlow hhigh)
    (.frame fun _ => hrest)).mono (fun t (ht : t = s) => ht ▸ hs) fun t ht => ht).congr ?_
  rintro t - ρ -
  rw [once_mul_once, once_mul_once]
  refine once_congr ?_
  simp only [PitchSpace.Above, PitchSpace.Has, PitchSpace.span]
  omega

/-- The interval relation finds each pair of pitches once. -/
theorem interval_weighs (hd : σ.Plays .distance d) (ha : σ.Plays .pitch a)
    (hb : σ.Plays .pitch b) :
    σ.Weighs (σ.Meets H k) (Relation.interval d a b) (σ.Meets (withInterval d a b H) k)
      (once fun ρ => σ.space.Apart (d.eval ρ) (a.eval ρ) (b.eval ρ)) := by
  refine Goal.project_weighs fun s hs => ?_
  have hspace := hs.space
  have hdown := difference_weighs (H := withInterval d a b H) (k := k) ha hb hd
    (by simp +contextual [withInterval, Term.joins])
  have hup := difference_weighs (H := withInterval d a b H) (k := k) hb ha hd
    (by simp +contextual [withInterval, Term.joins])
  have hpositive : σ.Weighs (σ.Meets (withInterval d a b H) k) (Relation.isDistance s 1 d)
      (σ.Meets (withInterval d a b H) k) _ :=
    (isDistance_weighs hspace hd (by decide)).mono (fun s hs => hs)
      fun t ht => Meets.mono ht fun x hx => .inr hx
  have hways := Goal.disjoin_cons_weighs hdown (Goal.disjoin_single_weighs
    (Goal.conjoin_cons_weighs hpositive (Goal.conjoin_single_weighs hup)))
  have hrest := Goal.conjoin_cons_weighs (isDistance_weighs hspace hd (Int.le_refl 0))
    (Goal.conjoin_single_weighs hways)
  refine ((Goal.conjoin_cons_weighs (withinSpace_weighs hspace ha hb)
    (.frame fun _ => hrest)).mono (fun t (ht : t = s) => ht ▸ hs) fun t ht => ht.1).congr ?_
  rintro t - ρ -
  -- The second way leaves out the distance of zero, so no assignment is found twice.
  rw [once_mul_once, once_add_once (by omega), once_mul_once, once_mul_once]
  refine once_congr ?_
  simp only [PitchSpace.Apart, PitchSpace.Above, PitchSpace.Has, PitchSpace.span]
  omega

/-! ## Chords -/

variable (σ) in
/-- The voices lie as far above the bass as in the voicing. -/
def Voiced (low middle high : Term) (v : Voicing) (ρ : Assignment) : Prop :=
  σ.space.Above ((Term.val v.middle).eval ρ) (low.eval ρ) (middle.eval ρ) ∧
    σ.space.Above ((Term.val v.high).eval ρ) (low.eval ρ) (high.eval ρ)

/-- Three voices have been met, beside the variables of `H`. -/
def withVoices (low middle high : Term) (H : Var → Prop) : Var → Prop :=
  high.joins (middle.joins (low.joins H))

theorem withVoices_of_mem {x : Var} (hb : b ∈ [low, middle, high]) (hx : b = .var x) :
    withVoices low middle high H x := by
  subst hx
  simp only [List.mem_cons, List.not_mem_nil, or_false] at hb
  simp only [withVoices, Term.joins]
  tauto

theorem voice_mem (low middle high : Term) (i : Nat) :
    Relation.voice low middle high i ∈ [low, middle, high] := by
  match i with
  | 0 => simp [Relation.voice]
  | 1 => simp [Relation.voice]
  | n + 2 => simp [Relation.voice]

/-- A voicing is found once for each way to find its root among the voices. -/
theorem voiced_weighs {K : Var → Prop} {w : Term → Assignment → Nat} {v : Voicing} (hv : v.Close)
    (hvoices : ∀ b ∈ [low, middle, high], σ.Plays .pitch b)
    (hroot : ∀ b ∈ [low, middle, high], b.Satisfies σ.space.Has →
      σ.Weighs (σ.Meets (withVoices low middle high H) k) (.eq root b) (σ.Meets K j) (w b)) :
    σ.Weighs (σ.Meets H k) (Relation.voiced root low middle high v) (σ.Meets K j)
      fun ρ => once (σ.Voiced low middle high v) ρ *
        w (Relation.voice low middle high v.rootVoice) ρ := by
  have hdistance : ∀ u, (∃ n : Int, u = .int n ∧ 0 ≤ n ∧ n ≤ 12) →
      σ.Plays .distance (.val u) := by
    rintro _ ⟨n, rfl, hlow, hhigh⟩
    exact ⟨n, rfl, σ.values_distance n hlow hhigh⟩
  obtain ⟨hlow, hmiddle, hhigh, -⟩ : _ ∧ _ ∧ _ ∧ _ := by
    simpa only [List.forall_mem_cons] using hvoices
  have hfirst := above_weighs (H := H) (k := k) (hdistance _ hv.1) hlow hmiddle
  have hsecond := above_weighs (H := withInterval (.val v.middle) low middle H) (k := k)
    (hdistance _ hv.2) hlow hhigh
  have hmem := voice_mem low middle high v.rootVoice
  have hthird : σ.Weighs (fun t => (σ.Meets (withInterval (.val v.high) low high
      (withInterval (.val v.middle) low middle H)) k t ∧
      (low.Satisfies σ.space.Has ∧ high.Satisfies σ.space.Has)) ∧
      (low.Satisfies σ.space.Has ∧ middle.Satisfies σ.space.Has))
      (.eq root (Relation.voice low middle high v.rootVoice)) (σ.Meets K j)
      (w (Relation.voice low middle high v.rootVoice)) := by
    rintro t ⟨⟨ht, hlow, hhigh⟩, -, hmiddle⟩
    refine hroot _ hmem ?_ t (ht.mono fun x hx => ?_)
    · have hall : ∀ b ∈ [low, middle, high], b.Satisfies σ.space.Has := by
        simp only [List.forall_mem_cons]
        exact ⟨hlow, hmiddle, hhigh, List.forall_mem_nil _⟩
      exact hall _ hmem
    · simp only [withVoices, withInterval, Term.joins] at hx ⊢
      tauto
  refine (Goal.conjoin_cons_weighs hfirst (Goal.conjoin_cons_weighs (.frame fun _ => hsecond)
    (Goal.conjoin_single_weighs hthird))).congr fun t _ ρ _ => ?_
  rw [← Nat.mul_assoc, once_mul_once]
  rfl

/-- A chord with a root is found once for each voicing that it matches. -/
theorem chord_weighs {vs : List Voicing} (hvs : ∀ v ∈ vs, v.Close) (hroot : σ.Plays .pitch root)
    (hvoices : ∀ b ∈ [low, middle, high], σ.Plays .pitch b) :
    σ.Weighs (σ.Meets H k) (Goal.disjoin (vs.map (Relation.voiced root low middle high)))
      (σ.Meets (root.joins (withVoices low middle high H)) k)
      fun ρ => (vs.map fun v => once (σ.Voiced low middle high v) ρ *
        once (fun ρ =>
          root.eval ρ = (Relation.voice low middle high v.rootVoice).eval ρ) ρ).sum := by
  refine Goal.disjoin_map_weighs fun v hv => voiced_weighs (hvs v hv) hvoices
    (w := fun b => once fun ρ => root.eval ρ = b.eval ρ) fun b hb hin => ?_
  exact equate_weighs hroot (hvoices b hb) (fun x hx => withVoices_of_mem hb hx) hin

/-- A chord that is given by its voices is found once for each voicing that it matches. -/
theorem rootless_chord_weighs {vs : List Voicing} (hvs : ∀ v ∈ vs, v.Close)
    (hvoices : ∀ b ∈ [low, middle, high], σ.Plays .pitch b) :
    σ.Weighs (σ.Meets H k)
      (Goal.disjoin (vs.map (Relation.voiced (.var (.fresh k)) low middle high)))
      (σ.Meets (withVoices low middle high H) (k + 1))
      fun ρ => (vs.map fun v =>
        once (σ.Voiced low middle high v) ρ * once (fun _ => True) ρ).sum := by
  refine Goal.disjoin_map_weighs fun v hv => voiced_weighs (hvs v hv) hvoices
    (w := fun _ => once fun _ => True) fun b hb _ => ?_
  exact fresh_weighs (hvoices b hb) fun x hx => withVoices_of_mem hb hx

end Setting

end Consonance
