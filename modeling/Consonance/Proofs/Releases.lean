import Consonance.Midi.Track
import Consonance.Proofs.Discrete
import Mathlib.Data.Prod.Lex

/-!
# Strikes and releases of a track

A track releases each key of a channel as often as it strikes it.  It is *balanced* for a key if
it never has released the key more often than it has struck it (`Track.Balanced`).  Then every
strike is followed by a release of its own (`Track.Balanced.released_after`).

*Order.*  Strokes at whole ticks are sorted by their place: by tick, releases before strikes, and
by note (`Stroke.place`).  What comes up to some place is a prefix of the track, and so prefixes
are compared with counts up to a tick (`balanced_iff_counts`).

*Events without length.*  At one tick releases come before strikes, so the release of an event
that ends where it starts comes before its strike.  A track is balanced if other events of the
key that sound across the tick make up for it, and not otherwise (`balanced_iff_instants`).
-/

namespace Consonance.Midi

/-! ## Messages of a key -/

/-- Whether the message strikes a note of a channel, or whether it releases it. -/
def KeyMessage.moves (isOn : Bool) (channel note : Int) (m : KeyMessage) : Bool :=
  m.isOn == isOn && (m.channel.whole? == some channel && m.note.whole? == some note)

/-- The same for all messages.  Only messages of keys strike or release. -/
def Message.moves (isOn : Bool) (channel note : Int) : Message → Bool
  | .key m => m.moves isOn channel note
  | _ => false

namespace Track

variable {t : Track} {channel note : Int}

/-- How often a note of a channel is struck. -/
def strikes (t : Track) (channel note : Int) : Nat :=
  t.countP fun m => m.message.moves true channel note

/-- How often a note of a channel is released. -/
def releases (t : Track) (channel note : Int) : Nat :=
  t.countP fun m => m.message.moves false channel note

/-- Up to no message has the note been released more often than struck. -/
def Balanced (t : Track) (channel note : Int) : Prop :=
  ∀ p : Track, p <+: t → p.releases channel note ≤ p.strikes channel note

/-- After a strike there are more releases than strikes, so that one of them belongs to it. -/
theorem Balanced.released_after (h : t.Balanced channel note)
    (htotal : t.releases channel note = t.strikes channel note) {p q : Track} {m : TimedMessage}
    (ht : t = p ++ m :: q) (hm : m.message.moves true channel note = true) :
    q.strikes channel note < q.releases channel note := by
  subst ht
  have hprefix := h p (List.prefix_append ..)
  have hoff : m.message.moves false channel note = false := by
    obtain ⟨delta, message⟩ := m
    cases message with
    | key m =>
        simp only [Message.moves, KeyMessage.moves, Bool.and_eq_true, beq_iff_eq] at hm ⊢
        rw [hm.1]
        rfl
    | _ => rfl
  simp only [releases, strikes, List.countP_append, List.countP_cons, hm, hoff, if_true] at *
  simp only [Bool.false_eq_true, if_false] at htotal
  omega

end Track

/-! ## Strokes in order -/

namespace Stroke

/-- The tick as an integer. -/
def moment (s : Stroke) : Int := s.tick.whole?.getD 0

/-- The tick and the note are whole numbers. -/
structure Whole (s : Stroke) : Prop where
  tick : s.tick.whole?.isSome
  note : s.message.note.whole?.isSome

/-- Where the stroke comes in a track. -/
def place (s : Stroke) : Int ×ₗ Bool ×ₗ Int :=
  toLex (s.moment, toLex (s.message.isOn, s.message.note.whole?.getD 0))

def moves (isOn : Bool) (channel note : Int) (s : Stroke) : Bool :=
  s.message.moves isOn channel note

/-- Whether the stroke comes before the strikes of a tick. -/
def precedes (tick : Int) (s : Stroke) : Bool :=
  decide (s.moment < tick ∨ s.moment = tick ∧ s.message.isOn = false)

variable {a b : Stroke}

/-- Whole strokes are ordered by their places. -/
theorem order_whole (ha : a.Whole) (hb : b.Whole) :
    (a.order b != .gt) = decide (a.place ≤ b.place) := by
  obtain ⟨m, hm⟩ := Option.isSome_iff_exists.mp ha.tick
  obtain ⟨n, hn⟩ := Option.isSome_iff_exists.mp hb.tick
  obtain ⟨k, hk⟩ := Option.isSome_iff_exists.mp ha.note
  obtain ⟨l, hl⟩ := Option.isSome_iff_exists.mp hb.note
  obtain ⟨pm, hpm, htick⟩ := Value.exists_ofQuantity hm
  obtain ⟨pn, hpn, htick'⟩ := Value.exists_ofQuantity hn
  obtain ⟨pk, hpk, hnote⟩ := Value.exists_ofQuantity hk
  obtain ⟨pl, hpl, hnote'⟩ := Value.exists_ofQuantity hl
  have horder : a.order b = (compare m n).then
      ((compare a.message.isOn b.message.isOn).then (compare k l)) := by
    rw [order, htick, htick', hnote, hnote', Value.order_whole hpm hpn, Value.order_whole hpk hpl]
  have hthen : ∀ o q : Ordering, o.then q != .gt ↔ o = .lt ∨ o = .eq ∧ q != .gt := by
    intro o q
    cases o <;> simp [Ordering.then]
  have hle : (compare k l != .gt) = true ↔ k ≤ l := by
    rw [bne_iff_ne, Ne, Int.compare_eq_gt, not_lt]
  rw [Bool.eq_iff_iff, decide_eq_true_iff, horder, hthen, hthen, hle]
  simp only [place, moment, hm, hn, hk, hl, Option.getD_some, Prod.Lex.toLex_le_toLex,
    compare_lt_iff_lt, compare_eq_iff_eq]

/-- What comes before a stroke has an earlier tick, or the same tick, and is a release then if
the stroke is one. -/
theorem moment_le (h : a.place ≤ b.place) :
    a.moment < b.moment ∨
      a.moment = b.moment ∧ (a.message.isOn = true → b.message.isOn = true) := by
  rcases Prod.Lex.toLex_le_toLex.mp h with hlt | ⟨heq, hrest⟩
  · exact .inl hlt
  · refine .inr ⟨heq, fun hon => ?_⟩
    rcases Prod.Lex.toLex_le_toLex.mp hrest with hlt | ⟨hsame, -⟩
    · exact (Bool.lt_iff.mp hlt).2
    · exact hsame.symm.trans hon

theorem precedes_of_le {tick : Int} (h : a.place ≤ b.place) (hb : b.precedes tick = true) :
    a.precedes tick = true := by
  have hb := of_decide_eq_true hb
  refine decide_eq_true ?_
  rcases moment_le h with hlt | ⟨heq, hon⟩
  · omega
  · rcases hb with hlt | ⟨htick, hoff⟩
    · exact .inl (heq ▸ hlt)
    · refine .inr ⟨heq.trans htick, ?_⟩
      cases ha : a.message.isOn with
      | false => rfl
      | true => exact (hon ha).symm.trans hoff

theorem isOn_of_moves {isOn : Bool} {channel note : Int} {s : Stroke}
    (h : s.moves isOn channel note = true) : s.message.isOn = isOn := by
  simp only [moves, KeyMessage.moves, Bool.and_eq_true, beq_iff_eq] at h
  exact h.1

/-- All releases of a tick come before its strikes. -/
theorem moves_precedes (isOn : Bool) (channel note tick : Int) (s : Stroke) :
    (s.moves isOn channel note && s.precedes tick) =
      (s.moves isOn channel note && bif isOn then decide (s.moment < tick)
        else decide (s.moment ≤ tick)) := by
  cases hmoves : s.moves isOn channel note with
  | false => rfl
  | true =>
      have hon := isOn_of_moves hmoves
      cases isOn with
      | true => simp [precedes, hon]
      | false => simp [precedes, hon, Int.le_iff_lt_or_eq]

end Stroke

theorem arrange_perm (strokes : List Stroke) : (arrange strokes).Perm strokes :=
  List.mergeSort_perm _ _

/-- Whole strokes are arranged by their places. -/
theorem pairwise_arrange {strokes : List Stroke} (h : ∀ s ∈ strokes, s.Whole) :
    (arrange strokes).Pairwise fun a b => a.place ≤ b.place := by
  -- The order of all strokes is no linear one, so the sort is compared with one by places.
  have hsort : arrange strokes = strokes.mergeSort fun a b => decide (a.place ≤ b.place) := by
    have hmap := List.map_mergeSort (f := id) (s := fun a b : Stroke => decide (a.place ≤ b.place))
      (r := fun a b : Stroke => a.order b != .gt) (l := strokes) fun a ha b hb =>
        Stroke.order_whole (h a ha) (h b hb)
    rwa [List.map_id, List.map_id] at hmap
  rw [hsort]
  refine (List.pairwise_mergeSort (fun a b c hab hbc => ?_) (fun a b => ?_) strokes).imp
    of_decide_eq_true
  · exact decide_eq_true ((of_decide_eq_true hab).trans (of_decide_eq_true hbc))
  · rw [Bool.or_eq_true, decide_eq_true_iff, decide_eq_true_iff]
    exact le_total ..

/-! ## Prefixes and counts -/

/-- What comes up to some place in an ordered list is a prefix of it. -/
theorem filter_prefix_of_pairwise {α : Type} {R : α → α → Prop} {keep : α → Bool} {l : List α}
    (hl : l.Pairwise R) (hkeep : ∀ a b, R a b → keep b = true → keep a = true) :
    l.filter keep <+: l := by
  induction l with
  | nil => exact List.nil_prefix
  | cons a rest ih =>
      obtain ⟨ha, hrest⟩ := List.pairwise_cons.mp hl
      by_cases hk : keep a = true
      · rw [List.filter_cons_of_pos hk]
        exact (List.prefix_cons_inj a).mpr (ih hrest)
      · have hnone : rest.filter keep = [] :=
          List.filter_eq_nil_iff.mpr fun b hb hkb => hk (hkeep a b (ha b hb) hkb)
        rw [List.filter_cons_of_neg hk, hnone]
        exact List.nil_prefix

section Counts

variable {l : List Stroke} {channel note : Int}

/-- An ordered list releases a note at the tick of its last release, or before. -/
theorem exists_last_release (hl : l.Pairwise fun a b => a.place ≤ b.place) :
    l.countP (Stroke.moves false channel note) = 0 ∨
      ∃ last ∈ l, ∀ s ∈ l, s.moves false channel note = true → s.moment ≤ last.moment := by
  rcases List.eq_nil_or_concat (l.filter (Stroke.moves false channel note)) with
    hnone | ⟨others, last, hconcat⟩
  · left
    rw [List.countP_eq_length_filter, hnone]
    rfl
  · right
    rw [List.concat_eq_append] at hconcat
    have hmem : ∀ s, s ∈ others ++ [last] ↔ s ∈ l ∧ s.moves false channel note = true := fun s => by
      rw [← hconcat, List.mem_filter]
    refine ⟨last, ((hmem last).mp (List.mem_append_right _ (List.mem_singleton_self last))).1,
      fun s hs hmoves => ?_⟩
    have hordered := hl.sublist (List.filter_sublist (p := Stroke.moves false channel note))
    rw [hconcat] at hordered
    rcases List.mem_append.mp ((hmem s).mpr ⟨hs, hmoves⟩) with hin | hin
    · have hle := (List.pairwise_append.mp hordered).2.2 s hin last (List.mem_singleton_self last)
      rcases Stroke.moment_le hle with hlt | ⟨heq, -⟩
      · exact hlt.le
      · exact heq.le
    · exact List.mem_singleton.mp hin ▸ Int.le_refl _

/-- The prefixes of an ordered list release a note at most as often as they strike it, if up to
each tick there are at most as many releases as there are strikes before it. -/
theorem balanced_iff_counts (hl : l.Pairwise fun a b => a.place ≤ b.place) :
    (∀ p, p <+: l → p.countP (Stroke.moves false channel note) ≤
        p.countP (Stroke.moves true channel note)) ↔
      ∀ tick : Int, l.countP (fun s => s.moves false channel note && decide (s.moment ≤ tick)) ≤
        l.countP fun s => s.moves true channel note && decide (s.moment < tick) := by
  constructor
  · intro h tick
    have hprefix : l.filter (Stroke.precedes tick) <+: l :=
      filter_prefix_of_pairwise hl fun _ _ => Stroke.precedes_of_le
    have hcounts := h _ hprefix
    rw [List.countP_filter, List.countP_filter] at hcounts
    simpa only [Stroke.moves_precedes, cond_true, cond_false] using hcounts
  · rintro h p ⟨q, rfl⟩
    obtain ⟨hp, -, hpq⟩ := List.pairwise_append.mp hl
    rcases exists_last_release hp with
      hnone | ⟨last, hlast, hupTo⟩
    · rw [hnone]
      exact Nat.zero_le _
    · have hlater : ∀ s ∈ q, ¬ (s.moves true channel note && decide (s.moment < last.moment)) =
          true := by
        intro s hs hboth
        have hlt := of_decide_eq_true (Bool.and_eq_true_iff.mp hboth).2
        rcases Stroke.moment_le (hpq last hlast s hs) with hgt | ⟨heq, -⟩ <;> omega
      calc p.countP (Stroke.moves false channel note)
          ≤ p.countP (fun s => s.moves false channel note && decide (s.moment ≤ last.moment)) :=
            List.countP_mono_left fun s hs hmoves => by
              rw [hmoves, Bool.true_and, decide_eq_true_iff]
              exact hupTo s hs hmoves
        _ ≤ (p ++ q).countP fun s =>
              s.moves false channel note && decide (s.moment ≤ last.moment) :=
            (List.prefix_append p q).sublist.countP_le
        _ ≤ (p ++ q).countP fun s =>
              s.moves true channel note && decide (s.moment < last.moment) := h last.moment
        _ = p.countP fun s => s.moves true channel note && decide (s.moment < last.moment) := by
            rw [List.countP_append, List.countP_eq_zero.mpr hlater, Nat.add_zero]
        _ ≤ p.countP (Stroke.moves true channel note) :=
            List.countP_mono_left fun s _ hboth => (Bool.and_eq_true_iff.mp hboth).1

end Counts

/-! ## Strokes of events -/

namespace NoteEvent

/-- The tick of the strike. -/
def onset (e : NoteEvent) : Int := e.start.whole?.getD 0

/-- The tick of the release. -/
def finish (e : NoteEvent) : Int := e.onset + e.duration.whole?.getD 0

/-- Whether the event strikes a note of a channel. -/
def plays (channel note : Int) (e : NoteEvent) : Bool :=
  e.channel.whole? == some channel && e.pitch.whole? == some note

/-- Whether the event starts and ends at a tick. -/
def isInstant (tick : Int) (e : NoteEvent) : Bool := e.onset == tick && e.finish == tick

/-- Whether the event starts before a tick and ends after it. -/
def spans (tick : Int) (e : NoteEvent) : Bool := decide (e.onset < tick) && decide (tick < e.finish)

/-- The parts are whole numbers. -/
structure Whole (e : NoteEvent) : Prop where
  pitch : e.pitch.whole?.isSome
  start : e.start.whole?.isSome
  duration : e.duration.whole?.isSome
  velocity : e.velocity.whole?.isSome
  channel : e.channel.whole?.isSome

/-- The parts have passed their checks. -/
def Accepted (e : NoteEvent) : Prop :=
  make e.pitch e.start e.duration e.velocity e.channel = .ok e

/-- The strike and the release of an event of whole numbers. -/
def bothStrokes (e : NoteEvent) : List Stroke :=
  [⟨e.start, ⟨true, e.channel, e.pitch, e.velocity⟩⟩,
    ⟨.int e.finish, ⟨false, e.channel, e.pitch, .int 0⟩⟩]

variable {e : NoteEvent}

section Checks

variable {v : Value} {n : Int}

theorem requireUpTo_whole (h : v.whole? = some n) (greatest : Int) (part : EventPart) :
    requireUpTo greatest part v =
      if 0 ≤ n ∧ n ≤ greatest then .ok () else Failure.raise (.invalid (.eventRange part v)) := by
  rw [requireUpTo, Value.within_whole h]
  by_cases hin : 0 ≤ n ∧ n ≤ greatest
  · rw [if_pos hin, decide_eq_true hin]
    rfl
  · rw [if_neg hin, decide_eq_false hin]
    rfl

theorem requireNonnegative_whole (h : v.whole? = some n) (part : EventPart) :
    requireNonnegative part v =
      if 0 ≤ n then .ok () else Failure.raise (.invalid (.eventRange part v)) := by
  rw [requireNonnegative, Value.holds_lt_zero h]
  by_cases hneg : n < 0
  · rw [if_neg (Int.not_le.mpr hneg), decide_eq_true hneg]
    rfl
  · rw [if_pos (Int.not_lt.mp hneg), decide_eq_false hneg]
    rfl

end Checks

/-- Events of whole numbers are accepted if these lie in their ranges. -/
theorem accepted_iff {pitch start duration velocity channel : Int}
    (hpitch : e.pitch.whole? = some pitch) (hstart : e.start.whole? = some start)
    (hduration : e.duration.whole? = some duration)
    (hvelocity : e.velocity.whole? = some velocity) (hchannel : e.channel.whole? = some channel) :
    e.Accepted ↔ (0 ≤ pitch ∧ pitch ≤ 127) ∧ (0 ≤ velocity ∧ velocity ≤ 127) ∧
      (0 ≤ channel ∧ channel ≤ 15) ∧ 0 ≤ start ∧ 0 ≤ duration := by
  have hcheck : ∀ (P : Prop) [Decidable P] (f : Failure),
      (if P then Except.ok () else Failure.raise f : Except Failure Unit) = .ok () ↔ P := by
    intro P _ f
    split_ifs with hP
    · exact iff_of_true rfl hP
    · exact iff_of_false nofun hP
  simp only [Accepted, make, requireUpTo_whole hpitch, requireUpTo_whole hvelocity,
    requireUpTo_whole hchannel, requireNonnegative_whole hstart,
    requireNonnegative_whole hduration, bind_eq_ok, exists_const, hcheck]
  constructor
  · rintro ⟨hp, hv, hc, hs, hd, -⟩
    exact ⟨hp, hv, hc, hs, hd⟩
  · rintro ⟨hp, hv, hc, hs, hd⟩
    exact ⟨hp, hv, hc, hs, hd, rfl⟩

/-- An accepted event starts at the start of the track or later, and does not end before. -/
theorem Accepted.onset_nonneg_le_finish (h : e.Accepted) (hwhole : e.Whole) :
    0 ≤ e.onset ∧ e.onset ≤ e.finish := by
  obtain ⟨pitch, hpitch⟩ := Option.isSome_iff_exists.mp hwhole.pitch
  obtain ⟨start, hstart⟩ := Option.isSome_iff_exists.mp hwhole.start
  obtain ⟨duration, hduration⟩ := Option.isSome_iff_exists.mp hwhole.duration
  obtain ⟨velocity, hvelocity⟩ := Option.isSome_iff_exists.mp hwhole.velocity
  obtain ⟨channel, hchannel⟩ := Option.isSome_iff_exists.mp hwhole.channel
  obtain ⟨-, -, -, hnonneg, hlasts⟩ :=
    (accepted_iff hpitch hstart hduration hvelocity hchannel).mp h
  rw [finish, onset, hstart, hduration]
  exact ⟨hnonneg, Int.le_add_of_nonneg_right hlasts⟩

theorem Whole.strokes_eq (h : e.Whole) : e.strokes = .ok e.bothStrokes := by
  obtain ⟨m, hm⟩ := Option.isSome_iff_exists.mp h.start
  obtain ⟨n, hn⟩ := Option.isSome_iff_exists.mp h.duration
  obtain ⟨p, hp, hstart⟩ := Value.exists_ofQuantity hm
  obtain ⟨q, hq, hduration⟩ := Value.exists_ofQuantity hn
  have hfinish : e.start.add e.duration = .ok (.int e.finish) := by
    rw [finish, onset, hm, hn, hstart, hduration]
    exact Value.add_whole hp hq
  have hmake : ∀ isOn velocity, velocity.whole?.isSome →
      KeyMessage.make isOn e.channel e.pitch velocity =
        .ok ⟨isOn, e.channel, e.pitch, velocity⟩ := by
    intro isOn velocity hvelocity
    simp only [KeyMessage.make, requireData, h.channel, h.pitch, hvelocity]
    rfl
  refine bind_eq_ok.mpr ⟨_, hmake true e.velocity h.velocity, ?_⟩
  refine bind_eq_ok.mpr ⟨_, hfinish, ?_⟩
  exact bind_eq_ok.mpr ⟨_, hmake false (.int 0) rfl, rfl⟩

theorem Whole.whole_of_mem (h : e.Whole) {s : Stroke} (hs : s ∈ e.bothStrokes) : s.Whole := by
  rcases List.mem_cons.mp hs with rfl | hs
  · exact ⟨h.start, h.pitch⟩
  · rcases List.mem_singleton.mp hs with rfl
    exact ⟨rfl, h.pitch⟩

end NoteEvent

section Events

variable {events : List NoteEvent} {channel note : Int}

/-- Strikes are counted by where events start, and releases by where they end. -/
theorem countP_bothStrokes (isOn : Bool) (within : Int → Bool) :
    (events.flatMap NoteEvent.bothStrokes).countP
        (fun s => s.moves isOn channel note && within s.moment) =
      events.countP fun e => e.plays channel note && within (cond isOn e.onset e.finish) := by
  induction events with
  | nil => rfl
  | cons e rest ih =>
      have hone : e.bothStrokes.countP (fun s => s.moves isOn channel note && within s.moment) =
          if e.plays channel note && within (cond isOn e.onset e.finish) then 1 else 0 := by
        cases isOn <;>
          simp [NoteEvent.bothStrokes, List.countP_cons, Stroke.moves, KeyMessage.moves,
            Stroke.moment, NoteEvent.plays, NoteEvent.onset]
      rw [List.flatMap_cons, List.countP_append, ih, hone, List.countP_cons, Nat.add_comm]

/-- The same for the strokes in the order of a track. -/
theorem countP_arrange (isOn : Bool) (within : Int → Bool) :
    (arrange (events.flatMap NoteEvent.bothStrokes)).countP
        (fun s => s.moves isOn channel note && within s.moment) =
      events.countP fun e => e.plays channel note && within (cond isOn e.onset e.finish) :=
  ((arrange_perm _).countP_eq _).trans (countP_bothStrokes isOn within)

/-- What is counted alike for each member is counted alike for all of them. -/
theorem countP_add_congr {α : Type} {l : List α} {p q r s : α → Bool}
    (h : ∀ a ∈ l, ((if p a then 1 else 0) + if q a then 1 else 0) =
      (if r a then 1 else 0) + if s a then 1 else 0) :
    l.countP p + l.countP q = l.countP r + l.countP s := by
  induction l with
  | nil => rfl
  | cons a rest ih =>
      obtain ⟨ha, hrest⟩ := List.forall_mem_cons.mp h
      have hothers := ih hrest
      simp only [List.countP_cons]
      omega

/-- At each tick, the events that have ended and the ones that sound across it are as many as the
events that have started before and the ones that start and end there. -/
theorem countP_ended_add_spans (h : ∀ e ∈ events, e.onset ≤ e.finish) (channel note tick : Int) :
    events.countP (fun e => e.plays channel note && decide (e.finish ≤ tick)) +
        events.countP (fun e => e.plays channel note && e.spans tick) =
      events.countP (fun e => e.plays channel note && decide (e.onset < tick)) +
        events.countP fun e => e.plays channel note && e.isInstant tick := by
  refine countP_add_congr fun e he => ?_
  have hle := h e he
  cases e.plays channel note with
  | false => rfl
  | true =>
      simp only [Bool.true_and, NoteEvent.spans, NoteEvent.isInstant, Bool.and_eq_true,
        decide_eq_true_iff, beq_iff_eq]
      split_ifs <;> omega

/-! ## Tracks of events -/

/-- The messages of strokes, each timed from the one before, and the first one from `now`. -/
def keysFrom (now : Int) : List Stroke → Track
  | [] => []
  | s :: rest => ⟨.int (s.moment - now), .key s.message⟩ :: keysFrom s.moment rest

/-- Strokes at whole ticks can be timed. -/
theorem timedFrom_whole {l : List Stroke} (hl : ∀ s ∈ l, s.Whole) {now : Value} {n : Int}
    (hnow : now.whole? = some n) : timedFrom now l = .ok (keysFrom n l) := by
  induction l generalizing now n with
  | nil => rfl
  | cons s rest ih =>
      obtain ⟨hs, hrest⟩ := List.forall_mem_cons.mp hl
      obtain ⟨m, hm⟩ := Option.isSome_iff_exists.mp hs.tick
      obtain ⟨p, hp, htick⟩ := Value.exists_ofQuantity hm
      obtain ⟨q, hq, rfl⟩ := Value.exists_ofQuantity hnow
      have hmoment : s.moment = m := by rw [Stroke.moment, hm, Option.getD_some]
      have hdelta : s.tick.sub (.ofQuantity q) = .ok (.int (s.moment - n)) := by
        rw [hmoment, htick]
        exact Value.sub_whole hp hq
      refine bind_eq_ok.mpr ⟨_, hdelta, bind_eq_ok.mpr ⟨_, ih hrest ?_, rfl⟩⟩
      rw [hmoment, hm]

/-- Timing keeps the messages. -/
theorem messages_keysFrom (now : Int) (l : List Stroke) :
    (keysFrom now l).map TimedMessage.message = l.map fun s => .key s.message := by
  induction l generalizing now with
  | nil => rfl
  | cons s rest ih => rw [keysFrom, List.map_cons, List.map_cons, ih]

/-- The messages of a track of strokes: the tempo, the keys and the end. -/
def messages (tempo : Nat) (strokes : List Stroke) : List Message :=
  .tempo tempo :: (strokes.map (fun s => .key s.message) ++ [.endOfTrack])

/-- The track of strokes that are timed: the tempo, the keys and the end. -/
def timed (tempo : Nat) (strokes : List Stroke) : Track :=
  ⟨.int 0, .tempo tempo⟩ :: (keysFrom 0 strokes ++ [⟨.int 0, .endOfTrack⟩])

theorem whole_of_mem_strokes (h : ∀ e ∈ events, e.Whole) {s : Stroke}
    (hs : s ∈ events.flatMap NoteEvent.bothStrokes) : s.Whole := by
  obtain ⟨e, he, hs⟩ := List.mem_flatMap.mp hs
  exact (h e he).whole_of_mem hs

/-- The strokes of events are arranged by their places. -/
theorem pairwise_strokes (h : ∀ e ∈ events, e.Whole) :
    (arrange (events.flatMap NoteEvent.bothStrokes)).Pairwise fun a b => a.place ≤ b.place :=
  pairwise_arrange fun _ => whole_of_mem_strokes h

/-- Events of whole numbers have a track, with their strokes in order. -/
theorem track_whole (h : ∀ e ∈ events, e.Whole) {beatsPerMinute : Value} {tempo : Nat}
    (htempo : tempoOf beatsPerMinute = .ok tempo) :
    track events beatsPerMinute =
      .ok (timed tempo (arrange (events.flatMap NoteEvent.bothStrokes))) := by
  have hwhole : ∀ s ∈ arrange (events.flatMap NoteEvent.bothStrokes), s.Whole := fun s hs =>
    whole_of_mem_strokes h ((arrange_perm _).mem_iff.mp hs)
  have hstrokes : events.mapM NoteEvent.strokes = .ok (events.map NoteEvent.bothStrokes) :=
    mapM_eq_ok fun e he => (h e he).strokes_eq
  refine bind_eq_ok.mpr ⟨tempo, htempo, bind_eq_ok.mpr ⟨_, hstrokes, ?_⟩⟩
  exact bind_eq_ok.mpr ⟨_, timedFrom_whole hwhole rfl, rfl⟩

theorem messages_timed (tempo : Nat) (strokes : List Stroke) :
    (timed tempo strokes).map TimedMessage.message = messages tempo strokes := by
  rw [timed, List.map_cons, List.map_append, messages_keysFrom]
  rfl

theorem exists_track (h : ∀ e ∈ events, e.Whole) {beatsPerMinute : Value} {tempo : Nat}
    (htempo : tempoOf beatsPerMinute = .ok tempo) :
    ∃ t, track events beatsPerMinute = .ok t ∧ t.map TimedMessage.message =
      messages tempo (arrange (events.flatMap NoteEvent.bothStrokes)) :=
  ⟨_, track_whole h htempo, messages_timed tempo _⟩

variable {t : Track} {tempo : Nat} {l : List Stroke}

theorem countP_opening (isOn : Bool) (tempo : Nat) (l : List Stroke) :
    (Message.tempo tempo :: l.map fun s => .key s.message).countP
      (Message.moves isOn channel note) = l.countP (Stroke.moves isOn channel note) := by
  rw [List.countP_cons_of_neg Bool.false_ne_true, List.countP_map]
  rfl

theorem countP_messages (isOn : Bool) (tempo : Nat) (l : List Stroke) :
    (messages tempo l).countP (Message.moves isOn channel note) =
      l.countP (Stroke.moves isOn channel note) := by
  rw [messages, ← List.cons_append, List.countP_append, countP_opening]
  rfl

theorem countP_track (isOn : Bool) (t : Track) :
    t.countP (fun m => m.message.moves isOn channel note) =
      (t.map TimedMessage.message).countP (Message.moves isOn channel note) := by
  rw [List.countP_map]
  rfl

/-- A track is balanced if the prefixes of its strokes are. -/
theorem balanced_iff_prefixes (ht : t.map TimedMessage.message = messages tempo l) :
    t.Balanced channel note ↔ ∀ p, p <+: l →
      p.countP (Stroke.moves false channel note) ≤ p.countP (Stroke.moves true channel note) := by
  constructor
  · intro h p hp
    have hopening : Message.tempo tempo :: p.map (fun s => .key s.message) <+:
        t.map TimedMessage.message := by
      rw [ht, messages]
      exact (List.prefix_cons_inj _).mpr ((hp.map _).trans (List.prefix_append ..))
    obtain ⟨q, hq, heq⟩ := List.prefix_map_iff.mp hopening
    have hbalanced := h q hq
    rwa [Track.releases, Track.strikes, countP_track, countP_track, ← heq, countP_opening,
      countP_opening] at hbalanced
  · intro h q hq
    have hmessages := hq.map TimedMessage.message
    rw [ht, messages] at hmessages
    rw [Track.releases, Track.strikes, countP_track, countP_track]
    rcases List.prefix_cons_iff.mp hmessages with hnil | ⟨keys, heq, hkeys⟩
    · rw [hnil]
      exact Nat.le_refl _
    · rw [heq]
      rcases List.prefix_concat_iff.mp hkeys with rfl | hkeys
      · have hall := h l (List.prefix_refl l)
        rwa [← countP_messages false tempo, ← countP_messages true tempo] at hall
      · obtain ⟨p, hp, rfl⟩ := List.prefix_map_iff.mp hkeys
        rw [countP_opening, countP_opening]
        exact h p hp

/-- The track of events is balanced for a note if at each tick at least as many of its events sound
across the tick as start and end there. -/
theorem balanced_iff_instants (haccepted : ∀ e ∈ events, e.Accepted)
    (hwhole : ∀ e ∈ events, e.Whole)
    (ht : t.map TimedMessage.message =
      messages tempo (arrange (events.flatMap NoteEvent.bothStrokes))) :
    t.Balanced channel note ↔ ∀ tick : Int,
      events.countP (fun e => e.plays channel note && e.isInstant tick) ≤
        events.countP fun e => e.plays channel note && e.spans tick := by
  rw [balanced_iff_prefixes ht, balanced_iff_counts (pairwise_strokes hwhole)]
  refine forall_congr' fun tick => ?_
  have hended : (arrange (events.flatMap NoteEvent.bothStrokes)).countP
      (fun s => s.moves false channel note && decide (s.moment ≤ tick)) =
        events.countP fun e => e.plays channel note && decide (e.finish ≤ tick) :=
    countP_arrange false fun n => decide (n ≤ tick)
  have hstarted : (arrange (events.flatMap NoteEvent.bothStrokes)).countP
      (fun s => s.moves true channel note && decide (s.moment < tick)) =
        events.countP fun e => e.plays channel note && decide (e.onset < tick) :=
    countP_arrange true fun n => decide (n < tick)
  have hexchange := countP_ended_add_spans
    (fun e he => ((haccepted e he).onset_nonneg_le_finish (hwhole e he)).2) channel note tick
  rw [hended, hstarted]
  omega

/-- Events that last for some ticks have balanced tracks. -/
theorem balanced_of_lasting (haccepted : ∀ e ∈ events, e.Accepted)
    (hwhole : ∀ e ∈ events, e.Whole) (hlast : ∀ e ∈ events, e.onset < e.finish)
    (ht : t.map TimedMessage.message =
      messages tempo (arrange (events.flatMap NoteEvent.bothStrokes))) :
    t.Balanced channel note := by
  refine (balanced_iff_instants haccepted hwhole ht).mpr fun tick => ?_
  have hnone : ∀ e ∈ events, ¬ (e.plays channel note && e.isInstant tick) = true := by
    intro e he hboth
    have hinstant := (Bool.and_eq_true_iff.mp hboth).2
    simp only [NoteEvent.isInstant, Bool.and_eq_true, beq_iff_eq] at hinstant
    have := hlast e he
    omega
  rw [List.countP_eq_zero.mpr hnone]
  exact Nat.zero_le _

/-- A track releases each note as often as it strikes it. -/
theorem releases_eq_strikes (ht : t.map TimedMessage.message =
      messages tempo (arrange (events.flatMap NoteEvent.bothStrokes))) :
    t.releases channel note = t.strikes channel note := by
  have hcount : ∀ isOn, t.countP (fun m => m.message.moves isOn channel note) =
      events.countP fun e => e.plays channel note := by
    intro isOn
    have hall : (events.flatMap NoteEvent.bothStrokes).countP
        (fun s => s.moves isOn channel note && true) =
          events.countP fun e => e.plays channel note && true :=
      countP_bothStrokes isOn fun _ => true
    simp only [Bool.and_true] at hall
    rw [countP_track, ht, countP_messages, (arrange_perm _).countP_eq]
    exact hall
  exact (hcount false).trans (hcount true).symm

/-- The track of events at whole ticks releases each note as often as it strikes it.  No prefix has
more releases than strikes if at each tick at least as many events of the note sound across the
tick as start and end there, and then each strike is followed by a release of its own. -/
theorem track_balanced_iff (haccepted : ∀ e ∈ events, e.Accepted) (hwhole : ∀ e ∈ events, e.Whole)
    {beatsPerMinute : Value} (htempo : tempoOf beatsPerMinute = .ok tempo) :
    ∃ t, track events beatsPerMinute = .ok t ∧ ∀ channel note : Int,
      t.releases channel note = t.strikes channel note ∧
        (t.Balanced channel note ↔ ∀ tick : Int,
          events.countP (fun e => e.plays channel note && e.isInstant tick) ≤
            events.countP fun e => e.plays channel note && e.spans tick) ∧
        (t.Balanced channel note → ∀ p m q, t = p ++ m :: q →
          m.message.moves true channel note = true →
            Track.strikes q channel note < Track.releases q channel note) := by
  obtain ⟨t, ht, hmessages⟩ := exists_track hwhole htempo
  refine ⟨t, ht, fun channel note => ?_⟩
  have htotal : t.releases channel note = t.strikes channel note := releases_eq_strikes hmessages
  refine ⟨htotal, balanced_iff_instants haccepted hwhole hmessages, fun hbalanced p m q => ?_⟩
  exact hbalanced.released_after htotal

/-- An event without length is released before it is struck. -/
theorem track_balanced_iff_instant :
    let e : NoteEvent := ⟨.int 60, .int 0, .int 0, .int 100, .int 0⟩
    e.Accepted ∧ e.Whole ∧ tempoOf (.int 120) = .ok 500000 ∧
      ∃ t, track [e] (.int 120) = .ok t ∧ t.releases 0 60 = t.strikes 0 60 ∧ ¬ t.Balanced 0 60 := by
  intro e
  have haccepted : e.Accepted := rfl
  have hwhole : e.Whole := ⟨rfl, rfl, rfl, rfl, rfl⟩
  have htempo : tempoOf (.int 120) = .ok 500000 := by with_unfolding_all rfl
  obtain ⟨t, ht, hall⟩ := track_balanced_iff (List.forall_mem_singleton.mpr haccepted)
    (List.forall_mem_singleton.mpr hwhole) htempo
  obtain ⟨htotal, hiff, -⟩ := hall 0 60
  exact ⟨haccepted, hwhole, htempo, t, ht, htotal, fun h => absurd (hiff.mp h 0) (by decide)⟩

end Events

end Consonance.Midi
