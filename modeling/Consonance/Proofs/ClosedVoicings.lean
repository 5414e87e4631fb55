import Consonance.Proofs.Discrete
import Consonance.Proofs.Network
import Consonance.Proofs.Rows

/-!
# Closed voicings

A triad of whole semitones has three closed voicings: its chord tones, with the lowest ones moved
up an octave, above some bass.  The chord relation lists exactly these, the root position first
and each inversion by ascending bass, and keeps those that agree with what is given
(`ChordQuality.run_chord`).

Each voicing holds in one way, so the rows come in three ascending blocks.  Such a block is known
by its members (`eq_of_ascending`), and these are the rows of `closedRows`.
-/

namespace Consonance

/-! ## Triads of whole semitones -/

namespace ChordQuality

/-- The quality is a triad of whole semitones: unison, a third and a fifth, within an octave. -/
structure Tones (q : ChordQuality) (third fifth : Int) : Prop where
  semitones : q.intervals.map (fun i => i.semitones.whole?) = [some 0, some third, some fifth]
  third_nonneg : 0 ≤ third
  third_le : third ≤ fifth
  fifth_lt : fifth < 12

/-- Every quality that is admitted, with three intervals of whole semitones, is such a triad. -/
theorem tones_of_make {intervals : List Interval} {name : String} {q : ChordQuality}
    {first third fifth : Int} (h : make intervals name = .ok q)
    (hwhole : intervals.map (fun i => i.semitones.whole?) =
      [some first, some third, some fifth]) : first = 0 ∧ q.Tones third fifth := by
  obtain ⟨i, _, rfl, hi, hrest⟩ := List.map_eq_cons_iff.mp hwhole
  obtain ⟨j, _, rfl, hj, hrest⟩ := List.map_eq_cons_iff.mp hrest
  obtain ⟨l, _, rfl, hl, hrest⟩ := List.map_eq_cons_iff.mp hrest
  obtain rfl := List.map_eq_nil_iff.mp hrest
  have hdescends : neverDescends (sizes [i, j, l]) =
      .ok (!decide (third < first) && !decide (fifth < third)) := by
    simp only [sizes, List.map_cons, List.map_nil, neverDescends, Value.holds_whole hj hi,
      Value.holds_whole hl hj, Comparison.admits_lt]
    cases decide (third < first) <;> cases decide (fifth < third) <;> rfl
  have hlast : (Value.ofQuantity l.semitones).holds .ge (.int 12) = .ok (decide (12 ≤ fifth)) := by
    rw [← Comparison.admits_ge]
    exact Value.holds_whole hl (q := .int 12) rfl .ge
  change (neverDescends (sizes [i, j, l]) >>= fun fits =>
    (Value.ofQuantity l.semitones).holds .ge (.int 12) >>= fun beyond =>
      if !(Value.ofQuantity i.semitones).equal (.int 0) || !fits || beyond then _ else _) = _ at h
  rw [hdescends, hlast] at h
  change (if _ then _ else _) = _ at h
  split at h
  next => cases h
  next hshape =>
    cases h
    simp only [Value.equal_whole hi, Bool.not_and, Bool.not_not, Bool.or_eq_true,
      Bool.not_eq_true', decide_eq_true_eq, beq_eq_false_iff_ne] at hshape
    have hzero : first = 0 := by omega
    subst hzero
    exact ⟨rfl, hwhole, by omega, by omega, by omega⟩

/-- The tones of a known quality differ. -/
theorem tones_of_ofName? {name : String} {q : ChordQuality}
    (h : ofName? name = some q) :
    ∃ third fifth : Int, q.Tones third fifth ∧ 0 < third ∧ third < fifth := by
  have htriad : ∀ {third fifth : Nat} {name : String}, 0 < third → third < fifth → fifth < 12 →
      ∃ third' fifth' : Int, (triad third fifth name).Tones third' fifth' ∧ 0 < third' ∧
        third' < fifth' := fun {third fifth name} hthird hlt hfifth =>
    ⟨third, fifth, ⟨rfl, by omega, by omega, by omega⟩, by omega, by omega⟩
  have htable : ∀ e ∈ table, ∃ third fifth : Int, e.2.Tones third fifth ∧ 0 < third ∧
      third < fifth := by
    simp only [table, List.forall_mem_cons]
    refine ⟨?_, ?_, ?_, ?_, ?_, ?_, ?_, ?_, ?_, ?_, ?_, List.forall_mem_nil _⟩
    all_goals exact htriad (by decide) (by decide) (by decide)
  obtain ⟨key, hmem⟩ := exists_mem_table h
  exact htable _ hmem

/-- The tones of a triad above its root, with the lowest `k` of them moved up an octave. -/
def rotation (third fifth : Int) (k : Nat) : List Int :=
  [0, third, fifth].drop k ++ ([0, third, fifth].take k).map (· + 12)

/-- The voices of a rotation above a bass. -/
def voicesAbove (third fifth : Int) (k : Nat) (bass : Int) : List Int :=
  (rotation third fifth k).map fun tone => bass + (tone - (rotation third fifth k).headD 0)

/-- The row of a rotation above a bass: the root and the voices.  The tone of the root is the
first one before the rotation. -/
def closedRow (third fifth : Int) (k : Nat) (bass : Int) : List Int :=
  (voicesAbove third fifth k bass).getD ((3 - k) % 3) 0 :: voicesAbove third fifth k bass

/-- The rows of the `k`th inversion in a space that agree with some terms, by ascending bass. -/
def inversionRows (third fifth : Int) (space : PitchSpace) (ts : List Term) (k : Nat) :
    List (List Int) :=
  (space.pitches.map (closedRow third fifth k)).filter fun row =>
    row.all space.admits && Term.allAgree ts row

/-- The rows of all closed voicings in a space that agree with some terms. -/
def closedRows (third fifth : Int) (space : PitchSpace) (ts : List Term) : List (List Int) :=
  [0, 1, 2].flatMap (inversionRows third fifth space ts)

variable {q : ChordQuality} {third fifth : Int} {space : PitchSpace} {I : Int → Prop}
  {V : Var → Prop} {root low middle high : Term} {k : Nat}

/-! ## The voicings of a triad -/

theorem mem_inversions : k ∈ [0, 1, 2] ↔ k < 3 := by
  simp only [List.mem_cons, List.not_mem_nil, or_false]
  omega

/-- The distances of the `k`th inversion from its bass to the other voices. -/
def stretch (third fifth : Int) : Nat → Int × Int
  | 0 => (third, fifth)
  | 1 => (fifth - third, 12 - third)
  | _ => (12 - fifth, third + 12 - fifth)

theorem Tones.stretch_le (hq : q.Tones third fifth) (hk : k < 3) :
    0 ≤ (stretch third fifth k).1 ∧ (stretch third fifth k).1 ≤ (stretch third fifth k).2 ∧
      (stretch third fifth k).2 ≤ 12 := by
  obtain ⟨-, hthird, hle, hlt⟩ := hq
  match k, hk with
  | 0, _ => simp only [stretch]; omega
  | 1, _ => simp only [stretch]; omega
  | 2, _ => simp only [stretch]; omega

theorem Tones.voicings (hq : q.Tones third fifth) :
    q.voicings = .ok ([0, 1, 2].map fun k => ⟨k, .int (stretch third fifth k).1,
      .int (stretch third fifth k).2, (3 - k) % 3⟩) := by
  obtain ⟨intervals, name⟩ := q
  obtain ⟨i, _, rfl, hi, hsemitones⟩ := List.map_eq_cons_iff.mp hq.semitones
  obtain ⟨j, _, rfl, hj, hsemitones⟩ := List.map_eq_cons_iff.mp hsemitones
  obtain ⟨l, _, rfl, hl, hsemitones⟩ := List.map_eq_cons_iff.mp hsemitones
  obtain rfl := List.map_eq_nil_iff.mp hsemitones
  have htop : ∀ {p : Quantity} {m n : Int}, p.whole? = some m →
      (Value.int n).sub (.ofQuantity p) = .ok (.int (n - m)) := fun {p m n} hp =>
    Value.sub_whole (p := .int n) rfl hp
  have hraised : ∀ {p : Quantity} {m : Int}, p.whole? = some m →
      (Value.ofQuantity p).add (.int 12) = .ok (.int (m + 12)) := fun {p m} hp =>
    Value.add_whole (q := .int 12) hp rfl
  have h₀ : voicing ⟨[i, j, l], name⟩ 0 = .ok ⟨0, .int (third - 0), .int (fifth - 0), 0⟩ := by
    show ((Value.ofQuantity j.semitones).sub (.ofQuantity i.semitones) >>= fun middle =>
      (Value.ofQuantity l.semitones).sub (.ofQuantity i.semitones) >>= fun high => _) = _
    rw [Value.sub_whole hj hi, Value.sub_whole hl hi]
    rfl
  have h₁ : voicing ⟨[i, j, l], name⟩ 1 =
      .ok ⟨1, .int (fifth - third), .int (0 + 12 - third), 2⟩ := by
    simp only [voicing, rotated, sizes, List.map_cons, List.map_nil, List.take_succ_cons,
      List.take_zero, List.mapM_cons, List.mapM_nil, hraised hi]
    show ((Value.ofQuantity l.semitones).sub (.ofQuantity j.semitones) >>= fun middle =>
      (Value.int (0 + 12)).sub (.ofQuantity j.semitones) >>= fun high => _) = _
    rw [Value.sub_whole hl hj, htop hj]
    rfl
  have h₂ : voicing ⟨[i, j, l], name⟩ 2 =
      .ok ⟨2, .int (0 + 12 - fifth), .int (third + 12 - fifth), 1⟩ := by
    simp only [voicing, rotated, sizes, List.map_cons, List.map_nil, List.take_succ_cons,
      List.take_zero, List.mapM_cons, List.mapM_nil, hraised hi, hraised hj]
    show ((Value.int (0 + 12)).sub (.ofQuantity l.semitones) >>= fun middle =>
      (Value.int (third + 12)).sub (.ofQuantity l.semitones) >>= fun high => _) = _
    rw [htop hl, htop hl]
    rfl
  simp only [voicings, List.mapM_cons, List.mapM_nil, h₀, h₁, h₂, Int.sub_zero, Int.zero_add]
  rfl

/-! ## The goal of a chord -/

/-- A pitch is the root of the `k`th inversion and three pitches are its voices. -/
def Voices (third fifth : Int) (space : PitchSpace) (k : Nat) (root low middle high : Int) :
    Prop :=
  space.Above (stretch third fifth k).1 low middle ∧
    space.Above (stretch third fifth k).2 low high ∧
    root = [low, middle, high].getD ((3 - k) % 3) 0

theorem eval_voice (ρ : Assignment) {i : Nat} (hi : i < 3) :
    (Relation.voice low middle high i).eval ρ =
      [low.eval ρ, middle.eval ρ, high.eval ρ].getD i 0 := by
  match i, hi with
  | 0, _ => rfl
  | 1, _ => rfl
  | 2, _ => rfl

/-- The two distances of an inversion introduce the voices, those of the middle one first. -/
theorem above_voices_introduce (hI : space.Provides I)
    (hstretch : I (stretch third fifth k).1 ∧ I (stretch third fifth k).2)
    (hlow : low.Over I) (hmiddle : middle.Over I) (hhigh : high.Over I) :
    (Relation.above (.int (stretch third fifth k).1) low middle).Introduces I space V
        (middle.joins (low.joins V))
        [fun ρ => space.Above (stretch third fifth k).1 (low.eval ρ) (middle.eval ρ)] ∧
      (Relation.above (.int (stretch third fifth k).2) low high).Introduces I space
        (middle.joins (low.joins V)) (Setting.withVoices low middle high V)
        [fun ρ => space.Above (stretch third fifth k).2 (low.eval ρ) (high.eval ρ)] := by
  have hfirst := Relation.above_introduces (V := V) hI (Term.over_int hstretch.1) hlow hmiddle
  have hsecond := Relation.above_introduces (V := middle.joins (low.joins V)) hI
    (Term.over_int hstretch.2) hlow hhigh
  simp only [Setting.withInterval, Term.joins_val] at hfirst hsecond
  rw [Term.joins_of_mem (t := low) (V := middle.joins (low.joins V))
    fun x hx => .inr (.inl hx)] at hsecond
  exact ⟨hfirst, hsecond⟩

theorem among_withVoices (hlow : low.Over I) (hmiddle : middle.Over I) (hhigh : high.Over I) :
    ∀ b ∈ [low, middle, high], b.Among I (Setting.withVoices low middle high V) := by
  simp only [List.forall_mem_cons]
  refine ⟨?_, ?_, ?_, List.forall_mem_nil _⟩
  · exact ((Term.among_joins hlow V).joins middle).joins high
  · exact (Term.among_joins hmiddle _).joins high
  · exact Term.among_joins hhigh _

/-- An inversion introduces the root and the voices, and holds in one way. -/
theorem voiced_introduces (hI : space.Provides I)
    (hstretch : I (stretch third fifth k).1 ∧ I (stretch third fifth k).2)
    (hroot : root.Over I) (hlow : low.Over I) (hmiddle : middle.Over I) (hhigh : high.Over I) :
    (Relation.voiced root low middle high ⟨k, .int (stretch third fifth k).1,
        .int (stretch third fifth k).2, (3 - k) % 3⟩).Introduces I space V
      (root.joins (Setting.withVoices low middle high V))
      [fun ρ => Voices third fifth space k (root.eval ρ) (low.eval ρ) (middle.eval ρ)
        (high.eval ρ)] := by
  obtain ⟨hfirst, hsecond⟩ := above_voices_introduce (V := V) hI hstretch hlow hmiddle hhigh
  have hvoices := among_withVoices (V := V) hlow hmiddle hhigh
  have hthird : (Goal.eq root (Relation.voice low middle high ((3 - k) % 3))).Introduces I
      space _ _ _ :=
    Goal.eq_introduces hroot (hvoices _ (Setting.voice_mem low middle high ((3 - k) % 3)))
  refine (Goal.conjoin_cons_introduces hfirst (Goal.conjoin_cons_introduces hsecond
    (Goal.conjoin_cons_introduces hthird Goal.conjoin_nil_introduces))).congr_single fun ρ => ?_
  simp only [eval_voice ρ (show (3 - k) % 3 < 3 by omega), and_true]
  exact Iff.rfl

/-- The goal of a chord introduces the root and the voices, with one way for each inversion. -/
theorem Tones.chord_introduces (hq : q.Tones third fifth) (hI : space.Provides I)
    (hoctave : ∀ n, 0 ≤ n → n ≤ 12 → I n) (hroot : root.Over I) (hlow : low.Over I)
    (hmiddle : middle.Over I) (hhigh : high.Over I) :
    ∃ goal, Relation.chord q root low middle high = .ok goal ∧
      goal.Introduces I space V (root.joins (Setting.withVoices low middle high V))
        ([0, 1, 2].map fun k ρ => Voices third fifth space k (root.eval ρ) (low.eval ρ)
          (middle.eval ρ) (high.eval ρ)) := by
  refine ⟨_, by rw [Relation.chord, hq.voicings]; rfl, ?_⟩
  rw [List.map_map]
  refine Goal.disjoin_map_introduces fun k hk => voiced_introduces hI ?_ hroot hlow hmiddle hhigh
  obtain ⟨hnonneg, hle, hoct⟩ := hq.stretch_le (mem_inversions.mp hk)
  exact ⟨hoctave _ hnonneg (Int.le_trans hle hoct), hoctave _ (Int.le_trans hnonneg hle) hoct⟩

/-! ## The rows of an inversion -/

theorem closedRow_eq {bass : Int} (hk : k < 3) :
    closedRow third fifth k bass =
      [[bass, bass + (stretch third fifth k).1, bass + (stretch third fifth k).2].getD
          ((3 - k) % 3) 0,
        bass, bass + (stretch third fifth k).1, bass + (stretch third fifth k).2] := by
  match k, hk with
  | 0, _ => simp [closedRow, voicesAbove, rotation, stretch]
  | 1, _ => simp [closedRow, voicesAbove, rotation, stretch]
  | 2, _ => simp [closedRow, voicesAbove, rotation, stretch]

theorem all_admits_iff (space : PitchSpace) (row : List Int) :
    row.all space.admits = true ↔ ∀ n ∈ row, space.Has n := by
  simp only [List.all_eq_true, PitchSpace.admits, Bool.and_eq_true, decide_eq_true_eq]
  exact Iff.rfl

/-- The root is one of the voices. -/
theorem getD_mem_voices {i : Nat} (hi : i < 3) (l m h : Int) : [l, m, h].getD i 0 ∈ [l, m, h] := by
  match i, hi with
  | 0, _ => simp
  | 1, _ => simp
  | 2, _ => simp

/-- The rows of an inversion are those of its root and its voices that agree with the terms. -/
theorem Tones.mem_inversionRows (hq : q.Tones third fifth) (hk : k < 3) {ts : List Term}
    {r l m h : Int} :
    [r, l, m, h] ∈ inversionRows third fifth space ts k ↔
      Voices third fifth space k r l m h ∧ Term.allAgree ts [r, l, m, h] = true := by
  obtain ⟨hnonneg, hle, -⟩ := hq.stretch_le hk
  simp only [inversionRows, List.mem_filter, List.mem_map, PitchSpace.mem_pitches,
    closedRow_eq hk, Bool.and_eq_true, all_admits_iff]
  rw [← and_assoc]
  refine and_congr_left' ⟨?_, ?_⟩
  · rintro ⟨⟨bass, -, heq⟩, hhas⟩
    simp only [List.cons.injEq, and_true] at heq
    obtain ⟨rfl, rfl, rfl, rfl⟩ := heq
    simp only [List.forall_mem_cons] at hhas
    obtain ⟨-, hl, hm, hh, -⟩ := hhas
    exact ⟨⟨hl, hm, hnonneg, by omega⟩, ⟨hl, hh, Int.le_trans hnonneg hle, by omega⟩, rfl⟩
  · rintro ⟨⟨hl, hm, -, hmiddle⟩, ⟨-, hh, -, hhigh⟩, rfl⟩
    have hm' : l + (stretch third fifth k).1 = m := by omega
    have hh' : l + (stretch third fifth k).2 = h := by omega
    refine ⟨⟨l, hl, by rw [hm', hh']⟩, ?_⟩
    have hvoices : ∀ n ∈ [l, m, h], space.Has n := by
      simp only [List.forall_mem_cons]
      exact ⟨hl, hm, hh, List.forall_mem_nil _⟩
    exact List.forall_mem_cons.mpr ⟨hvoices _ (getD_mem_voices (by omega) l m h), hvoices⟩

/-- Every row of an inversion has a root and three voices. -/
theorem exists_of_mem_inversionRows (hk : k < 3) {ts : List Term} {row : List Int}
    (h : row ∈ inversionRows third fifth space ts k) : ∃ r l m h, row = [r, l, m, h] := by
  obtain ⟨bass, -, rfl⟩ := List.mem_map.mp (List.mem_filter.mp h).1
  exact ⟨_, _, _, _, closedRow_eq hk⟩

/-- The rows of an inversion come by ascending bass. -/
theorem ascending_inversionRows (hk : k < 3) (ts : List Term) :
    (inversionRows third fifth space ts k).Pairwise (· < ·) := by
  refine List.Pairwise.filter _ (List.pairwise_map.mpr ?_)
  refine (Domain.pairwise_run space.lowest space.highest).imp fun {bass bass'} hlt => ?_
  rw [closedRow_eq hk, closedRow_eq hk, List.cons_lt_cons_iff]
  refine .inl ?_
  -- The root moves with the bass.
  match k, hk with
  | 0, _ => simpa using hlt
  | 1, _ => simpa using hlt
  | 2, _ => simpa using hlt

/-- A block of rows that holds the `k`th inversion is that of the inversion. -/
theorem Tones.block_eq (hq : q.Tones third fifth) (hk : k < 3)
    (hterms : ∀ t ∈ [root, low, middle, high], t.Over fun _ => True)
    (hdistinct : Term.Distinct [root, low, middle, high]) {block : List (List Int)}
    (hascending : block.Pairwise (· < ·))
    (hmem : ∀ row, row ∈ block ↔ ∃ ρ : Assignment,
      Voices third fifth space k (root.eval ρ) (low.eval ρ) (middle.eval ρ) (high.eval ρ) ∧
        [root, low, middle, high].map (Term.eval ρ) = row) :
    block = inversionRows third fifth space [root, low, middle, high] k := by
  refine eq_of_ascending hascending (ascending_inversionRows hk _) fun row => ?_
  rw [hmem row]
  constructor
  · rintro ⟨ρ, hvoices, rfl⟩
    exact (hq.mem_inversionRows hk).mpr ⟨hvoices, Term.allAgree_eval hterms ρ⟩
  · intro hrow
    obtain ⟨r, l, m, h, rfl⟩ := exists_of_mem_inversionRows hk hrow
    obtain ⟨hvoices, hagree⟩ := (hq.mem_inversionRows hk).mp hrow
    obtain ⟨ρ, hρ⟩ := Term.exists_eval hterms hdistinct hagree
    refine ⟨ρ, ?_, hρ⟩
    simp only [List.map_cons, List.map_nil, List.cons.injEq, and_true] at hρ
    obtain ⟨rfl, rfl, rfl, rfl⟩ := hρ
    exact hvoices

/-! ## Closed positions -/

/-- The voices of an inversion lie within an octave, and are the tones of the triad above the
root, octaves aside. -/
theorem Tones.closed (hq : q.Tones third fifth) (hk : k < 3) {r l m h : Int}
    (hvoices : Voices third fifth space k r l m h) :
    (l ≤ m ∧ m ≤ h ∧ h ≤ l + 12) ∧
      ([l, m, h].map fun n => (n - r) % 12).Perm [0, third, fifth] := by
  obtain ⟨hnonneg, hle, hoctave⟩ := hq.stretch_le hk
  obtain ⟨-, hthird, hfifth, hlt⟩ := hq
  obtain ⟨⟨-, -, -, hmiddle⟩, ⟨-, -, -, hhigh⟩, rfl⟩ := hvoices
  refine ⟨by omega, ?_⟩
  match k, hk with
  | 0, _ =>
    simp only [stretch] at hmiddle hhigh
    have hm : (m - l) % 12 = third := by omega
    have hh : (h - l) % 12 = fifth := by omega
    simp [hm, hh]
  | 1, _ =>
    simp only [stretch] at hmiddle hhigh
    have hl : (l - h) % 12 = third := by omega
    have hm : (m - h) % 12 = fifth := by omega
    have hh : (h - h) % 12 = 0 := by omega
    simpa [hl, hm, hh] using @List.perm_append_comm _ [third, fifth] [0]
  | 2, _ =>
    simp only [stretch] at hmiddle hhigh
    have hl : (l - m) % 12 = fifth := by omega
    have hm : (m - m) % 12 = 0 := by omega
    have hh : (h - m) % 12 = third := by omega
    simpa [hl, hm, hh] using @List.perm_append_comm _ [fifth] [0, third]

/-- The distance of the root above the bass in the `k`th inversion. -/
def rootAbove (third fifth : Int) : Nat → Int
  | 0 => 0
  | 1 => 12 - third
  | _ => 12 - fifth

theorem Voices.root_eq (hk : k < 3) {r l m h : Int} (hvoices : Voices third fifth space k r l m h) :
    r = l + rootAbove third fifth k := by
  obtain ⟨⟨-, -, -, hmiddle⟩, ⟨-, -, -, hhigh⟩, rfl⟩ := hvoices
  match k, hk with
  | 0, _ => simp [rootAbove]
  | 1, _ =>
    simp only [stretch] at hhigh
    simp [rootAbove]
    omega
  | 2, _ =>
    simp only [stretch] at hmiddle
    simp [rootAbove]
    omega

theorem Tones.rootAbove_lt (hq : q.Tones third fifth) (hne : third < fifth) :
    rootAbove third fifth 0 < rootAbove third fifth 2 ∧
      rootAbove third fifth 2 < rootAbove third fifth 1 := by
  obtain ⟨-, hthird, -, hlt⟩ := hq
  simp only [rootAbove]
  omega

/-- If the tones of a triad differ, its root lies elsewhere above the bass in each inversion.  So
no row comes twice. -/
theorem Tones.closedRows_nodup (hq : q.Tones third fifth) (hne : third < fifth)
    (ts : List Term) : (closedRows third fifth space ts).Nodup := by
  have hroots := hq.rootAbove_lt hne
  have hapart : ∀ j < 3, ∀ k < 3, rootAbove third fifth j ≠ rootAbove third fifth k →
      ∀ row ∈ inversionRows third fifth space ts j, ∀ row' ∈ inversionRows third fifth space ts k,
        row ≠ row' := by
    rintro j hj k hk hne row hrow _ hrow' rfl
    obtain ⟨r, l, m, h, rfl⟩ := exists_of_mem_inversionRows hj hrow
    have hj' := ((hq.mem_inversionRows hj).mp hrow).1.root_eq hj
    have hk' := ((hq.mem_inversionRows hk).mp hrow').1.root_eq hk
    omega
  rw [closedRows, List.Nodup, List.pairwise_flatMap]
  refine ⟨fun k hk => ?_, ?_⟩
  · simp only [List.mem_cons, List.not_mem_nil, or_false] at hk
    exact (ascending_inversionRows (by omega) ts).nodup
  · simp only [List.pairwise_cons, List.forall_mem_cons]
    refine ⟨⟨hapart 0 ?_ 1 ?_ ?_, hapart 0 ?_ 2 ?_ ?_, List.forall_mem_nil _⟩,
      ⟨hapart 1 ?_ 2 ?_ ?_, List.forall_mem_nil _⟩, List.forall_mem_nil _, List.Pairwise.nil⟩
    all_goals omega

/-! ## Queries -/

/-- The integers that a search for a chord starts from: the pitches of the space, their distances,
those within an octave and the constants. -/
def Arises (space : PitchSpace) (ts : List Term) (n : Int) : Prop :=
  space.Has n ∨ (0 ≤ n ∧ n ≤ space.span) ∨ (0 ≤ n ∧ n ≤ 12) ∨ .int n ∈ ts

theorem over_arises {ts : List Term} {t : Term} (ht : t ∈ ts) (hover : t.Over fun _ => True) :
    t.Over (Arises space ts) := by
  cases t with
  | var x => trivial
  | val v =>
      obtain ⟨n, rfl, -⟩ := hover
      exact Term.over_int (.inr (.inr (.inr ht)))

/-- The chord relation enumerates the closed voicings of a triad.  A query for the root and the
voices, each given or open, gives the rows of the root position, the first and the second
inversion that agree with what is given, each by ascending bass, unless an integer of too many
digits would have to be written.  The voices of a row lie within an octave and are the tones of
the triad above its root, and no row comes twice if the tones differ. -/
theorem Tones.run_chord (hq : q.Tones third fifth)
    (hterms : ∀ t ∈ [root, low, middle, high], t.Over fun _ => True)
    (hdistinct : Term.Distinct [root, low, middle, high]) (space : PitchSpace) :
    ∃ goal, Relation.chord q root low middle high = .ok goal ∧
      (run goal [root, low, middle, high] .nothing space =
          .ok ((closedRows third fifth space [root, low, middle, high]).map
            fun row => row.map Term.int) ∨
        run goal [root, low, middle, high] .nothing space = .error (.invalid .unwritable) ∧
          ∃ n, Derived (Arises space [root, low, middle, high]) n ∧
            Number.isWritable n = false) ∧
      (∀ row ∈ closedRows third fifth space [root, low, middle, high],
        ∃ r l m h, row = [r, l, m, h] ∧ (l ≤ m ∧ m ≤ h ∧ h ≤ l + 12) ∧
          ([l, m, h].map fun n => (n - r) % 12).Perm [0, third, fifth]) ∧
      (third < fifth → (closedRows third fifth space [root, low, middle, high]).Nodup) := by
  have hbelow : ∀ k ∈ [0, 1, 2], k < 3 := by decide
  have hover : ∀ t ∈ [root, low, middle, high],
      t.Over (Arises space [root, low, middle, high]) := fun t ht => over_arises ht (hterms t ht)
  have hclosed : ∀ row ∈ closedRows third fifth space [root, low, middle, high],
      ∃ r l m h, row = [r, l, m, h] ∧ (l ≤ m ∧ m ≤ h ∧ h ≤ l + 12) ∧
        ([l, m, h].map fun n => (n - r) % 12).Perm [0, third, fifth] := by
    intro row hrow
    obtain ⟨k, hk, hrow⟩ := List.mem_flatMap.mp hrow
    obtain ⟨r, l, m, h, rfl⟩ := exists_of_mem_inversionRows (hbelow k hk) hrow
    have hvoices := ((hq.mem_inversionRows (hbelow k hk)).mp hrow).1
    exact ⟨r, l, m, h, rfl, hq.closed (hbelow k hk) hvoices⟩
  have hprovides : space.Provides (Arises space [root, low, middle, high]) :=
    ⟨fun n => .inl, fun n hlow hhigh => .inr (.inl ⟨hlow, hhigh⟩)⟩
  obtain ⟨hroot, hlow, hmiddle, hhigh, -⟩ : _ ∧ _ ∧ _ ∧ _ ∧ _ := by
    simpa only [List.forall_mem_cons] using hover
  obtain ⟨goal, hgoal, hintroduces⟩ := hq.chord_introduces (V := fun _ => False) hprovides
    (fun n hlow hhigh => .inr (.inr (.inl ⟨hlow, hhigh⟩))) hroot hlow hmiddle hhigh
  refine ⟨goal, hgoal, ?_, hclosed, fun hne => hq.closedRows_nodup hne _⟩
  have hmet : ∀ x, root.joins (Setting.withVoices low middle high fun _ => False) x ↔
      .var x ∈ [root, low, middle, high] := by
    intro x
    simp only [Setting.withVoices, Term.joins, List.mem_cons, List.not_mem_nil, or_false]
    grind
  refine (hintroduces.run (show ∀ t ∈ [root, low, middle, high], t.Among _ _ from fun t ht => ?_)
    fun x => (hmet x).mp).imp_left ?_
  · cases t with
    | var x => exact (hmet x).mpr ht
    | val v => exact hover _ ht
  · rintro ⟨blocks, hblocks, hrun⟩
    rw [hrun]
    -- There are three blocks, one for each inversion.
    obtain ⟨first, _, hfirst, hrest, rfl⟩ :=
      List.forall₂_cons_left_iff.mp (List.forall₂_map_left_iff.mp hblocks)
    obtain ⟨second, _, hsecond, hlast, rfl⟩ := List.forall₂_cons_left_iff.mp hrest
    obtain ⟨last, _, hthird, hnil, rfl⟩ := List.forall₂_cons_left_iff.mp hlast
    cases hnil
    rw [hq.block_eq (by decide) hterms hdistinct hfirst.1 hfirst.2,
      hq.block_eq (by decide) hterms hdistinct hsecond.1 hsecond.2,
      hq.block_eq (by decide) hterms hdistinct hthird.1 hthird.2]
    rfl

/-- A major triad on the `C` in the middle of MIDI, which is the lowest voice. -/
theorem Tones.run_chord_onC :
    let ts : List Term :=
      [.var (.named "root"), .int 60, .var (.named "middle"), .var (.named "high")]
    major.Tones 4 7 ∧ (∀ t ∈ ts, t.Over fun _ => True) ∧ Term.Distinct ts ∧
      ∃ goal, Relation.chord major (.var (.named "root")) (.int 60) (.var (.named "middle"))
          (.var (.named "high")) = .ok goal ∧
        run goal ts .nothing .midi =
          .ok ([[60, 60, 64, 67], [68, 60, 63, 68], [65, 60, 65, 69]].map
            fun row => row.map Term.int) := by
  intro ts
  have hq : major.Tones 4 7 := ⟨rfl, by decide, by decide, by decide⟩
  have hterms : ∀ t ∈ ts, t.Over fun _ => True := by
    simp only [ts, List.forall_mem_cons]
    exact ⟨trivial, Term.over_int trivial, trivial, trivial, List.forall_mem_nil _⟩
  have hdistinct : Term.Distinct ts := by simp [Term.Distinct, ts]
  refine ⟨hq, hterms, hdistinct, ?_⟩
  obtain ⟨goal, hgoal, hrun, -, -⟩ := hq.run_chord hterms hdistinct .midi
  refine ⟨goal, hgoal, hrun.elim (fun hok => ?_) fun ⟨_, n, hn, hlong⟩ => ?_⟩
  · have hrows : closedRows 4 7 .midi ts =
        [[60, 60, 64, 67], [68, 60, 63, 68], [65, 60, 65, 69]] := by decide +kernel
    exact hrows ▸ hok
  · have hsmall : ∀ m, Arises .midi ts m → m.natAbs ≤ 127 := by
      rintro m (⟨hlow, hhigh⟩ | ⟨hlow, hhigh⟩ | ⟨hlow, hhigh⟩ | hm)
      · simp only [PitchSpace.midi] at hlow hhigh
        omega
      · simp only [PitchSpace.midi, PitchSpace.span] at hhigh
        omega
      · omega
      · simp [ts] at hm
        omega
    have hwritable : Number.isWritable n = true := by
      refine Number.isWritable_of_natAbs_lt (k := 3) (by decide) ?_
      show n.natAbs < 1000
      cases hn with
      | same hm =>
          have := hsmall _ hm
          omega
      | sub hm hk =>
          have := hsmall _ hm
          have := hsmall _ hk
          omega
      | add hm hk =>
          have := hsmall _ hm
          have := hsmall _ hk
          omega
    rw [hwritable] at hlong
    cases hlong

end ChordQuality

/-- A domain of several values is not empty and has no only one. -/
theorem Domain.not_single {d : Domain} (h : 2 ≤ d.size) :
    d.isEmpty = false ∧ d.single? = none := by
  obtain ⟨values⟩ := d
  match values, h with
  | _ :: _ :: _, _ => exact ⟨rfl, rfl⟩

/-! ## An integer that cannot be written

The middle voice of a chord is worked out before it is looked up in the space.  If it has too many
digits, the dead end has no wording, and this is a failure of the whole query. -/

namespace State

variable {s : State} {x : Var} {d : Domain} {n : Int}

/-- An integer of a domain passes the restriction to it. -/
theorem restrict_int (hs : s.differences = []) (hd : d.Integral) (hn : n ∈ d) :
    s.restrict (.int n) (.domain d) = .ok s := by
  obtain ⟨b, hb, hiff⟩ := Domain.contains_int hd n
  rw [hiff.mpr hn] at hb
  simp only [restrict, narrow, walk, Substitution.walk_val, Allowed.admits, hb]
  exact propagate_of_open (by simp [hs])

/-- An open variable without a domain gets that of its first restriction. -/
theorem restrict_open (hs : s.differences = []) (hx : s.walk (.var x) = .var x)
    (hbare : s.stored? x = none) (hempty : d.isEmpty = false) (hone : d.single? = none) :
    s.restrict (.var x) (.domain d) = .ok (s.put x d) := by
  have hnarrow : s.narrow (.var x) (.domain d) = .ok (s.put x d) := by
    simp only [narrow, hx, narrowVar, hbare, Allowed.toDomain]
    show narrowVar.settleDomain s x d = _
    simp [narrowVar.settleDomain, hempty, hone]
  rw [restrict, hnarrow]
  exact propagate_of_open (by simp [put, hs])

theorem bindValue_unwritable (hstored : s.stored? x = some d) (hd : d.Integral) (hn : n ∉ d)
    (hlong : Number.isWritable n = false) :
    s.bindValue x (.int n) = .error (.invalid .unwritable) := by
  obtain ⟨b, hb, hiff⟩ := Domain.contains_int hd n
  cases b with
  | true => exact absurd (hiff.mp rfl) hn
  | false =>
      have hfault : (Value.int n).quotedFault? = some .unwritable := by
        simp [Value.quotedFault?, Value.numberFault?, hlong]
      have hworded : (Failure.deadEnd (.notInDomain (.int n) d.values)).worded =
          .invalid .unwritable := by
        simp only [Failure.worded, Failure.shown, DeadEnd.shown, List.findSome?_cons,
          Shown.fault?, hfault]
        rfl
      simp only [bindValue, hstored, hb, hfault]
      show (Failure.deadEnd (.notInDomain (.int n) d.values)).raise = _
      rw [Failure.raise, hworded]

/-- A difference whose minuend would be an integer of too many digits cannot be posted. -/
theorem assertDifference_unwritable (hs : s.differences = []) (hx : s.walk (.var x) = .var x)
    (hstored : s.stored? x = some d) (hd : d.Integral) {k : Int} (hn : n + k ∉ d)
    (hlong : Number.isWritable (n + k) = false) :
    s.assertDifference (.var x) (.int n) (.int k) = .error (.invalid .unwritable) := by
  let c : Difference := ⟨.var x, .int n, .int k⟩
  let posted : State := { s with differences := s.differences ++ [c] }
  have hequate : posted.equate (.var x) (.int (n + k)) = .error (.invalid .unwritable) := by
    have hwalk : posted.walk (.var x) = .var x := hx
    have hval : posted.walk (.int (n + k)) = .int (n + k) := Substitution.walk_val _ _
    simp only [equate, hwalk, hval, Substitution.binding?]
    exact bindValue_unwritable hstored hd hn hlong
  have hsettle : posted.settle c = .error (.invalid .unwritable) := by
    have hminuend : posted.walk c.minuend = .var x := hx
    have hsubtrahend : posted.walk c.subtrahend = .int n := Substitution.walk_val _ _
    have hdistance : posted.walk c.distance = .int k := Substitution.walk_val _ _
    simp only [settle, hminuend, hsubtrahend, hdistance, Value.add_int]
    show (posted.equate (.var x) (.int (n + k)) >>= fun t => _) = _
    rw [hequate]
    rfl
  have hpass : posted.pass = .error (.invalid .unwritable) := by
    have hall : posted.settleAll posted.differences = .error (.invalid .unwritable) := by
      have hcs : posted.differences = [c] := by simp [posted, hs]
      rw [hcs]
      show (posted.settle c >>= fun r => _) = _
      rw [hsettle]
      rfl
    rw [pass, hall]
    rfl
  show posted.propagate = _
  rw [propagate, hpass]
  rfl

end State

theorem run_of_raise {goal : Goal} {query : List Term} {space : PitchSpace} {f : Failure}
    (h : goal (.empty space) = .raise f) : run goal query .nothing space = .error f := by
  show ((Goal.conjoin [goal, .label query] (.empty space)).map fun s => query.map s.walk).all = _
  rw [Goal.conjoin_cons, h]
  rfl

namespace ChordQuality

/-- The five semitones below an integer and the integer itself. -/
def sixBelow (n : Int) : PitchSpace := ⟨n - 5, n, by omega⟩

/-- The search for a pitch a third above the highest one fails where it has too many digits. -/
theorem above_unwritable {n : Int} (hlong : Number.isWritable (n + 4) = false) :
    Relation.above (.int 4) (.int n) (.var (.named "middle")) (.empty (sixBelow n)) =
      .raise (.invalid .unwritable) := by
  let s : State := .empty (sixBelow n)
  let t : State := s.put (.named "middle") s.spaceDomain
  have hd : s.spaceDomain.Integral := s.integral_spaceDomain
  have hmem : ∀ m : Int, m ∈ s.spaceDomain ↔ n - 5 ≤ m ∧ m ≤ n := fun m => Domain.mem_interval
  have hsize : 2 ≤ s.spaceDomain.size := by
    show 2 ≤ ((PitchSpace.run (n - 5) n).map Value.int).length
    rw [List.length_map, PitchSpace.run, List.length_map, List.length_range]
    omega
  obtain ⟨hempty, hone⟩ := Domain.not_single hsize
  have hlow : Goal.inDomain (.int n) (.domain s.spaceDomain) s = .one s :=
    Goal.lift_of_ok (State.restrict_int rfl hd ((hmem n).mpr (by omega)))
  have hmiddle : Goal.inDomain (.var (.named "middle")) (.domain s.spaceDomain) s = .one t :=
    Goal.lift_of_ok (State.restrict_open rfl rfl rfl hempty hone)
  have hdistance : Relation.isDistance s 0 (.int 4) t = .one t := by
    have hmem : (4 : Int) ∈ Domain.interval 0 (sixBelow n).span := by
      rw [Domain.mem_interval]
      show (0 : Int) ≤ 4 ∧ 4 ≤ n - (n - 5)
      omega
    have hrestrict := State.restrict_int (s := t) rfl (Domain.integral_interval _ _) hmem
    show Goal.lift (fun t => t.restrict (.int 4) _) t = _
    exact Goal.lift_of_ok hrestrict
  have hdifference : Goal.difference (.var (.named "middle")) (.int n) (.int 4) t =
      .raise (.invalid .unwritable) := by
    have hpost := State.assertDifference_unwritable (s := t) (x := .named "middle") (n := n)
      (k := 4) rfl rfl (State.stored?_put_self _ _ _) hd (by rw [hmem]; omega) hlong
    rw [Goal.difference, Goal.lift, hpost]
  have hwithin : Relation.withinSpace s [.int n, .var (.named "middle")] s = .one t := by
    show Goal.conjoin [.inDomain (.int n) _, .inDomain (.var (.named "middle")) _] s = _
    rw [Goal.conjoin_cons, hlow, Answers.one_bind, Goal.conjoin_cons, hmiddle, Answers.one_bind]
    rfl
  show Goal.conjoin [Relation.withinSpace s [.int n, .var (.named "middle")],
    Relation.isDistance s 0 (.int 4),
    .difference (.var (.named "middle")) (.int n) (.int 4)] s = _
  rw [Goal.conjoin_cons, hwithin, Answers.one_bind, Goal.conjoin_cons, hdistance,
    Answers.one_bind, Goal.conjoin_cons, hdifference]
  rfl

/-- A major triad on the highest pitch of a space does not fit into it.  The search for one fails
where the third above that pitch has too many digits. -/
theorem run_major_unwritable {n : Int} (hlong : Number.isWritable (n + 4) = false) :
    ∃ goal, Relation.chord major (.var (.named "root")) (.int n) (.var (.named "middle"))
        (.var (.named "high")) = .ok goal ∧
      run goal [.var (.named "root"), .int n, .var (.named "middle"), .var (.named "high")]
        .nothing (sixBelow n) = .error (.invalid .unwritable) := by
  have hq : major.Tones 4 7 := ⟨rfl, by decide, by decide, by decide⟩
  refine ⟨_, by rw [Relation.chord, hq.voicings]; rfl, ?_⟩
  have hvoiced : Relation.voiced (.var (.named "root")) (.int n) (.var (.named "middle"))
      (.var (.named "high")) ⟨0, .int 4, .int 7, 0⟩ (.empty (sixBelow n)) =
        .raise (.invalid .unwritable) := by
    rw [Relation.voiced, Goal.conjoin_cons, above_unwritable hlong]
    rfl
  refine run_of_raise ?_
  show (Relation.voiced _ _ _ _ ⟨0, .int 4, .int 7, 0⟩ (.empty (sixBelow n))).append _ = _
  rw [hvoiced]
  rfl

/-- No closed major triad lies on the highest pitch of a space. -/
theorem closedRows_sixBelow (n : Int) :
    closedRows 4 7 (sixBelow n) [.var (.named "root"), .int n, .var (.named "middle"),
      .var (.named "high")] = [] := by
  refine List.eq_nil_iff_forall_not_mem.mpr fun row hrow => ?_
  have hq : major.Tones 4 7 := ⟨rfl, by decide, by decide, by decide⟩
  obtain ⟨k, hk, hrow⟩ := List.mem_flatMap.mp hrow
  have hk' : k < 3 := (by decide : ∀ k ∈ [0, 1, 2], k < 3) k hk
  obtain ⟨r, l, m, h, rfl⟩ := exists_of_mem_inversionRows hk' hrow
  obtain ⟨⟨-, ⟨-, ⟨-, hhigh⟩, -, hdistance⟩, -⟩, hagree⟩ := (hq.mem_inversionRows hk').mp hrow
  -- The lowest voice is the highest pitch, and another one lies above it.
  have hlow : n = l := by
    simp only [Term.allAgree, Term.agrees, Bool.true_and, Bool.and_true] at hagree
    exact Option.some.inj (beq_iff_eq.mp hagree)
  simp only [sixBelow] at hhigh
  obtain rfl | rfl | rfl : k = 0 ∨ k = 1 ∨ k = 2 := by omega
  all_goals
    simp only [stretch] at hdistance
    omega

/-- Where the highest pitch has as many digits as can be written, there is no major triad on it,
and yet the search for one fails. -/
theorem run_major_long :
    let n : Int := Number.writableBound - 1
    let ts : List Term := [.var (.named "root"), .int n, .var (.named "middle"),
      .var (.named "high")]
    Number.isWritable n = true ∧ closedRows 4 7 (sixBelow n) ts = [] ∧
      ∃ goal, Relation.chord major (.var (.named "root")) (.int n) (.var (.named "middle"))
          (.var (.named "high")) = .ok goal ∧
        run goal ts .nothing (sixBelow n) = .error (.invalid .unwritable) := by
  intro n ts
  have hwritable : Number.isWritable n = true ∧ Number.isWritable (n + 4) = false := by
    have hpos : 0 < Number.writableBound := by
      unfold Number.writableBound
      generalize Number.digitLimit = limit
      exact Nat.pow_pos (by decide)
    simp only [n, Number.isWritable, decide_eq_true_eq, decide_eq_false_iff_not]
    generalize Number.writableBound = bound at hpos ⊢
    omega
  exact ⟨hwritable.1, closedRows_sixBelow n, run_major_unwritable hwritable.2⟩

end ChordQuality

end Consonance
