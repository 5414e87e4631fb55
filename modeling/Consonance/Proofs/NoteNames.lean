import Mathlib.Data.Nat.Digits.Defs
import Consonance.Proofs.Conversion
import Consonance.Proofs.PitchArguments

/-!
# The grammar of note names

The name of a note is written in pieces: a letter of the scale, accidentals, and an octave of an
optional minus and decimal digits.  Blanks may stand around it and before the octave.
`WrittenNote` is such a text with its pieces apart.

`NoteName.split` takes a text apart by looking ahead.  It finds the pieces of every written note
(`WrittenNote.split_chars`), and what it finds are pieces (`WrittenNote.exists_of_split`).  No
character may belong to two pieces that follow each other, so a text has one way to be taken apart
(`WrittenNote.chars_injective`).  An accidental that is also a letter of the scale is no exception,
since a letter comes once and comes first.
-/

namespace Consonance

open Consonance.Text

/-! ## Kinds of characters -/

/-- The code points of the blanks. -/
def Text.blankPoints : List Nat :=
  [0x09, 0x0A, 0x0B, 0x0C, 0x0D, 0x1C, 0x1D, 0x1E, 0x1F, 0x20, 0x85, 0xA0, 0x1680, 0x2000, 0x2001,
   0x2002, 0x2003, 0x2004, 0x2005, 0x2006, 0x2007, 0x2008, 0x2009, 0x200A, 0x2028, 0x2029, 0x202F,
   0x205F, 0x3000]

theorem Text.mem_blankPoints {c : Char} (h : isBlank c = true) : c.toNat ∈ blankPoints := by
  simp only [isBlank, Bool.or_eq_true, Bool.and_eq_true, decide_eq_true_eq, beq_iff_eq] at h
  simp only [blankPoints, List.mem_cons, List.not_mem_nil, or_false]
  omega

/-- No blank is a digit. -/
theorem Text.isDecimal_blank {c : Char} (h : isBlank c = true) : isDecimal c = false := by
  have htable : ∀ n ∈ blankPoints, isDecimal (Char.ofNat n) = false := by decide +kernel
  have hc := htable _ (mem_blankPoints h)
  rwa [Char.ofNat_toNat] at hc

namespace NoteName

variable {c : Char}

theorem isBlank_letter (h : isLetter c = true) : isBlank c = false := by
  have htable : ∀ n < 128, isLetter (Char.ofNat n) = true → isBlank (Char.ofNat n) = false := by
    decide +kernel
  exact of_letter (P := fun c => isBlank c = false) htable h

theorem isBlank_toUpper (h : isLetter c = true) : isBlank c.toUpper = false := by
  have htable : ∀ n < 128, isLetter (Char.ofNat n) = true →
      isBlank (Char.ofNat n).toUpper = false := by
    decide +kernel
  exact of_letter (P := fun c => isBlank c.toUpper = false) htable h

/-- An accidental cannot belong to the octave or to the blanks before it. -/
theorem isAccidental_eq_false (h : isBlank c = true ∨ isDecimal c = true ∨ c = '-') :
    isAccidental c = false := by
  cases haccidental : isAccidental c with
  | false => rfl
  | true =>
      simp only [isAccidental, Bool.or_eq_true, beq_iff_eq] at haccidental
      rcases haccidental with ((rfl | rfl) | rfl) | rfl <;> exact absurd h (by decide)

theorem isBlank_accidental (h : isAccidental c = true) : isBlank c = false := by
  cases hblank : isBlank c with
  | false => rfl
  | true =>
      rw [isAccidental_eq_false (.inl hblank)] at h
      cases h

theorem isBlank_octave (h : isDecimal c = true ∨ c = '-') : isBlank c = false := by
  cases hblank : isBlank c with
  | false => rfl
  | true =>
      rcases h with h | rfl
      · rw [isDecimal_blank hblank] at h
        cases h
      · exact absurd hblank (by decide)

end NoteName

/-! ## Runs of characters -/

section Runs

variable {α : Type} {p : α → Bool} {as bs as' bs' : List α}

theorem takeWhile_append_of_stop (has : ∀ a ∈ as, p a = true) (hbs : ∀ b ∈ bs.head?, p b = false) :
    (as ++ bs).takeWhile p = as := by
  rw [List.takeWhile_append_of_pos has]
  cases bs with
  | nil => simp
  | cons b rest => simp [hbs b rfl]

theorem dropWhile_append_of_stop (has : ∀ a ∈ as, p a = true) (hbs : ∀ b ∈ bs.head?, p b = false) :
    (as ++ bs).dropWhile p = bs := by
  rw [List.dropWhile_append_of_pos has]
  cases bs with
  | nil => rfl
  | cons b rest => simp [hbs b rfl]

theorem dropWhile_of_stop (hbs : ∀ b ∈ bs.head?, p b = false) : bs.dropWhile p = bs := by
  show (([] : List α) ++ bs).dropWhile p = bs
  exact dropWhile_append_of_stop (List.forall_mem_nil _) hbs

/-- Where a run of characters ends does not depend on how the text is cut. -/
theorem append_inj_of_stop (has : ∀ a ∈ as, p a = true) (hbs : ∀ b ∈ bs.head?, p b = false)
    (has' : ∀ a ∈ as', p a = true) (hbs' : ∀ b ∈ bs'.head?, p b = false)
    (h : as ++ bs = as' ++ bs') : as = as' ∧ bs = bs' := by
  constructor
  · rw [← takeWhile_append_of_stop has hbs, h, takeWhile_append_of_stop has' hbs']
  · rw [← dropWhile_append_of_stop has hbs, h, dropWhile_append_of_stop has' hbs']

end Runs

/-- The blanks around a text are taken off, and no others. -/
theorem Text.stripChars_append {before cs after : List Char}
    (hbefore : ∀ c ∈ before, isBlank c = true) (hafter : ∀ c ∈ after, isBlank c = true)
    (hfirst : ∀ c ∈ cs.head?, isBlank c = false) (hlast : ∀ c ∈ cs.getLast?, isBlank c = false)
    (hne : cs ≠ []) : stripChars (before ++ (cs ++ after)) = cs := by
  have hhead : ∀ c ∈ (cs ++ after).head?, isBlank c = false := by
    rwa [List.head?_append_of_ne_nil _ hne]
  have hend : ∀ c ∈ cs.reverse.head?, isBlank c = false := by
    rwa [List.head?_reverse]
  rw [stripChars, stripEnd, dropWhile_append_of_stop hbefore hhead, List.reverse_append,
    dropWhile_append_of_stop (fun c hc => hafter c (List.mem_reverse.mp hc)) hend,
    List.reverse_reverse]

/-- A text without blanks has none to take off. -/
theorem Text.strip_eq_self {s : String} (h : ∀ c ∈ s.toList, isBlank c = false) : strip s = s := by
  have hdrop : ∀ cs : List Char, (∀ c ∈ cs, isBlank c = false) → cs.dropWhile isBlank = cs :=
    fun cs hcs => dropWhile_of_stop fun c hc => hcs c (List.mem_of_mem_head? hc)
  rw [strip, stripChars, stripEnd, hdrop _ h, hdrop _ fun c hc => h c (List.mem_reverse.mp hc),
    List.reverse_reverse, String.ofList_toList]

/-- The number of a list of digits is the one that they are the decimal expansion of. -/
theorem Number.ofDigits_eq (digits : List Nat) :
    ofDigits digits = Nat.ofDigits 10 digits.reverse := by
  induction digits using List.reverseRecOn with
  | nil => rfl
  | append_singleton digits d ih =>
      rw [ofDigits_append_singleton, ih, List.reverse_append, List.reverse_singleton,
        List.singleton_append, Nat.ofDigits_cons, Nat.add_comm]

/-! ## Written notes -/

/-- A text that is written as the name of a note, with its pieces apart. -/
@[ext]
structure WrittenNote where
  before : List Char
  letter : Char
  accidentals : List Char
  between : List Char
  /-- Whether there is a minus. -/
  negative : Bool
  digits : List Char
  after : List Char
  before_blank : ∀ c ∈ before, isBlank c = true
  isLetter : NoteName.isLetter letter = true
  isAccidental : ∀ c ∈ accidentals, NoteName.isAccidental c = true
  between_blank : ∀ c ∈ between, isBlank c = true
  isDecimal : ∀ c ∈ digits, Text.isDecimal c = true
  digits_ne_nil : digits ≠ []
  after_blank : ∀ c ∈ after, isBlank c = true

namespace WrittenNote

variable {w w' : WrittenNote} {cs : List Char} {n : NoteName}

def number (w : WrittenNote) : List Char := w.digits ++ w.after

/-- The octave and the blanks after it. -/
def signed (w : WrittenNote) : List Char := if w.negative then '-' :: w.number else w.number

/-- The whole text. -/
def chars (w : WrittenNote) : List Char :=
  w.before ++ w.letter :: (w.accidentals ++ (w.between ++ w.signed))

/-- The pieces that matter.  The letter is a capital. -/
def name (w : WrittenNote) : NoteName := ⟨w.letter.toUpper, w.accidentals, w.negative, w.digits⟩

/-- The name of the class, with a capital letter. -/
def className (w : WrittenNote) : String := String.ofList (w.letter.toUpper :: w.accidentals)

/-- The number that the digits are the decimal expansion of. -/
def magnitude (w : WrittenNote) : Nat :=
  Nat.ofDigits 10 (w.digits.filterMap decimalValue?).reverse

def octave (w : WrittenNote) : Int := if w.negative then -w.magnitude else w.magnitude

theorem exists_number (w : WrittenNote) :
    ∃ d rest, w.number = d :: rest ∧ Text.isDecimal d = true := by
  cases hdigits : w.digits with
  | nil => exact absurd hdigits w.digits_ne_nil
  | cons d rest =>
      refine ⟨d, rest ++ w.after, by rw [number, hdigits]; rfl, w.isDecimal d ?_⟩
      rw [hdigits]
      exact List.mem_cons_self ..

theorem head_signed (w : WrittenNote) :
    ∀ c ∈ w.signed.head?, Text.isDecimal c = true ∨ c = '-' := by
  obtain ⟨d, rest, hnumber, hd⟩ := w.exists_number
  intro c hc
  rw [signed, hnumber] at hc
  cases hnegative : w.negative with
  | true =>
      rw [hnegative] at hc
      cases hc
      exact .inr rfl
  | false =>
      rw [hnegative] at hc
      cases hc
      exact .inl hd

theorem head_octave (w : WrittenNote) :
    ∀ c ∈ (w.between ++ w.signed).head?, NoteName.isAccidental c = false := by
  intro c hc
  apply NoteName.isAccidental_eq_false
  cases hbetween : w.between with
  | nil =>
      rw [hbetween, List.nil_append] at hc
      exact .inr (w.head_signed c hc)
  | cons b rest =>
      rw [hbetween] at hc
      cases hc
      exact .inl (w.between_blank _ (hbetween ▸ List.mem_cons_self ..))

theorem head_after (w : WrittenNote) : ∀ c ∈ w.after.head?, Text.isDecimal c = false :=
  fun c hc => isDecimal_blank (w.after_blank c (List.mem_of_mem_head? hc))

theorem takeMinus_signed (w : WrittenNote) :
    NoteName.takeMinus w.signed = (w.negative, w.number) := by
  cases hnegative : w.negative with
  | true => rw [signed, hnegative]; rfl
  | false =>
      obtain ⟨d, rest, hnumber, hd⟩ := w.exists_number
      have hminus : d ≠ '-' := by
        rintro rfl
        exact absurd hd (by decide)
      rw [signed, hnegative, hnumber]
      unfold NoteName.takeMinus
      split
      next heq => cases heq; exact absurd rfl hminus
      next => rfl

/-- The pieces of a written note are found. -/
theorem split_chars (w : WrittenNote) : NoteName.split w.chars = some w.name := by
  have hbefore : w.chars.dropWhile isBlank =
      w.letter :: (w.accidentals ++ (w.between ++ w.signed)) :=
    dropWhile_append_of_stop w.before_blank fun c hc => by
      cases hc
      exact NoteName.isBlank_letter w.isLetter
  have hblank : ∀ c ∈ w.signed.head?, isBlank c = false := fun c hc =>
    NoteName.isBlank_octave (w.head_signed c hc)
  have hoctave : ((w.accidentals ++ (w.between ++ w.signed)).dropWhile
      NoteName.isAccidental).dropWhile isBlank = w.signed := by
    rw [dropWhile_append_of_stop w.isAccidental w.head_octave,
      dropWhile_append_of_stop w.between_blank hblank]
  have hdigits : w.number.takeWhile Text.isDecimal = w.digits :=
    takeWhile_append_of_stop w.isDecimal w.head_after
  have hafter : w.number.dropWhile Text.isDecimal = w.after :=
    dropWhile_append_of_stop w.isDecimal w.head_after
  have hwell : (!w.digits.isEmpty && w.after.all isBlank) = true := by
    simpa [w.digits_ne_nil] using w.after_blank
  simp only [NoteName.split, hbefore, w.isLetter, hoctave, takeMinus_signed, hdigits, hafter, hwell,
    takeWhile_append_of_stop w.isAccidental w.head_octave, if_true, name]

/-- There is one way to take a text apart. -/
theorem chars_injective (h : w.chars = w'.chars) : w = w' := by
  have hletter : ∀ v : WrittenNote,
      ∀ c ∈ (v.letter :: (v.accidentals ++ (v.between ++ v.signed))).head?, isBlank c = false := by
    intro v c hc
    cases hc
    exact NoteName.isBlank_letter v.isLetter
  have hblank : ∀ v : WrittenNote, ∀ c ∈ v.signed.head?, isBlank c = false := fun v c hc =>
    NoteName.isBlank_octave (v.head_signed c hc)
  obtain ⟨hbefore, h⟩ :=
    append_inj_of_stop w.before_blank (hletter w) w'.before_blank (hletter w') h
  obtain ⟨hfirst, h⟩ := List.cons.inj h
  obtain ⟨haccidentals, h⟩ :=
    append_inj_of_stop w.isAccidental w.head_octave w'.isAccidental w'.head_octave h
  obtain ⟨hbetween, h⟩ :=
    append_inj_of_stop w.between_blank (hblank w) w'.between_blank (hblank w') h
  have hsigned := w.takeMinus_signed
  rw [h, takeMinus_signed] at hsigned
  obtain ⟨hnegative, hnumber⟩ := Prod.mk.inj hsigned
  obtain ⟨hdigits, hafter⟩ :=
    append_inj_of_stop w'.isDecimal w'.head_after w.isDecimal w.head_after hnumber
  exact WrittenNote.ext hbefore hfirst haccidentals hbetween hnegative.symm hdigits.symm hafter.symm

theorem eq_of_takeMinus {cs rest : List Char} {negative : Bool}
    (h : NoteName.takeMinus cs = (negative, rest)) :
    cs = if negative then '-' :: rest else rest := by
  unfold NoteName.takeMinus at h
  split at h
  · cases h
    rfl
  · cases h
    rfl

/-- What is found are the pieces of a written note. -/
theorem exists_of_split (h : NoteName.split cs = some n) :
    ∃ w : WrittenNote, w.chars = cs ∧ w.name = n := by
  unfold NoteName.split at h
  split at h
  · cases h
  next letter rest hcs =>
    split at h
    next hletter =>
      generalize hminus : NoteName.takeMinus ((rest.dropWhile NoteName.isAccidental).dropWhile
        isBlank) = signed at h
      obtain ⟨negative, number⟩ := signed
      simp only at h
      split at h
      next hwell =>
        cases h
        simp only [Bool.and_eq_true, Bool.not_eq_true', List.isEmpty_eq_false_iff,
          List.all_eq_true] at hwell
        refine ⟨{
          before := cs.takeWhile isBlank
          letter
          accidentals := rest.takeWhile NoteName.isAccidental
          between := (rest.dropWhile NoteName.isAccidental).takeWhile isBlank
          negative
          digits := number.takeWhile Text.isDecimal
          after := number.dropWhile Text.isDecimal
          before_blank := fun c hc => List.mem_takeWhile_imp hc
          isLetter := hletter
          isAccidental := fun c hc => List.mem_takeWhile_imp hc
          between_blank := fun c hc => List.mem_takeWhile_imp hc
          isDecimal := fun c hc => List.mem_takeWhile_imp hc
          digits_ne_nil := hwell.1
          after_blank := hwell.2 }, ?_, rfl⟩
        simp only [chars, signed, WrittenNote.number, List.takeWhile_append_dropWhile]
        rw [← eq_of_takeMinus hminus, List.takeWhile_append_dropWhile,
          List.takeWhile_append_dropWhile, ← hcs, List.takeWhile_append_dropWhile]
      next => cases h
    next => cases h

/-! ## Reading a name -/

/-- The class of the pieces is found under the name that they make up. -/
theorem ofValue_className {c : PitchClass} :
    PitchClass.ofValue (.text w.className) = .ok c ↔ w.className ∈ c.names := by
  rw [PitchClass.ofValue_text_iff, strip_eq_self]
  intro x hx
  rw [className, String.toList_ofList, List.mem_cons] at hx
  rcases hx with rfl | hx
  · exact NoteName.isBlank_toUpper w.isLetter
  · exact NoteName.isBlank_accidental (w.isAccidental x hx)

theorem octave_name (hshort : w.digits.length ≤ Number.digitLimit) :
    w.name.octave = .ok w.octave := by
  have hmagnitude : Number.ofDigits (w.name.digits.filterMap decimalValue?) = w.magnitude :=
    Number.ofDigits_eq _
  have hlimit : ¬ Number.digitLimit < w.name.digits.length := Nat.not_lt.mpr hshort
  rw [NoteName.octave, if_neg hlimit, hmagnitude]
  rfl

theorem octave_name_iff {o : Int} :
    w.name.octave = .ok o ↔ w.digits.length ≤ Number.digitLimit ∧ o = w.octave := by
  by_cases hshort : w.digits.length ≤ Number.digitLimit
  · rw [octave_name hshort]
    exact ⟨fun h => ⟨hshort, (Except.ok.inj h).symm⟩, fun h => by rw [h.2]⟩
  · have hlimit : Number.digitLimit < w.name.digits.length := Nat.lt_of_not_le hshort
    rw [NoteName.octave, if_pos hlimit]
    exact ⟨nofun, fun h => absurd h.1 hshort⟩

/-- The pieces name a class and an octave. -/
structure Names (w : WrittenNote) (c : PitchClass) (octave : Int) : Prop where
  isName : w.className ∈ c.names
  short : w.digits.length ≤ Number.digitLimit
  octave_eq : octave = w.octave

theorem read_eq {s : String} (h : w.chars = s.toList) :
    NoteName.read s = PitchClass.ofValue (.text w.className) >>= fun c =>
      w.name.octave >>= fun o => .ok (c, o) := by
  rw [NoteName.read, ← h, split_chars]
  rfl

theorem read_eq_ok_iff {s : String} (h : w.chars = s.toList) {c : PitchClass} {o : Int} :
    NoteName.read s = .ok (c, o) ↔ w.Names c o := by
  rw [read_eq h, bind_eq_ok]
  constructor
  · rintro ⟨k, hk, hread⟩
    obtain ⟨m, hm, hread⟩ := bind_eq_ok.mp hread
    cases hread
    obtain ⟨hshort, hoctave⟩ := octave_name_iff.mp hm
    exact ⟨ofValue_className.mp hk, hshort, hoctave⟩
  · rintro ⟨hname, hshort, hoctave⟩
    exact ⟨c, ofValue_className.mpr hname,
      bind_eq_ok.mpr ⟨o, octave_name_iff.mpr ⟨hshort, hoctave⟩, rfl⟩⟩

/-- The digits of the octave are among those of the text. -/
theorem length_digits_le (w : WrittenNote) : w.digits.length ≤ w.chars.countP Text.isDecimal := by
  have hsublist : w.digits.Sublist w.chars := by
    have hnumber : w.digits.Sublist w.signed := by
      rw [signed]
      split
      · exact (List.sublist_append_left _ _).cons _
      · exact List.sublist_append_left _ _
    exact (((hnumber.trans (List.sublist_append_right _ _)).trans
      (List.sublist_append_right _ _)).cons _).trans (List.sublist_append_right _ _)
  calc w.digits.length = w.digits.countP Text.isDecimal :=
        (List.countP_eq_length.mpr w.isDecimal).symm
    _ ≤ w.chars.countP Text.isDecimal := hsublist.countP_le

end WrittenNote

theorem PitchClass.ofValue_text_error {s : String} {f : Failure}
    (h : ofValue (.text s) = .error f) : ∃ name, f = .unknownPitchClass name := by
  simp only [ofValue] at h
  split at h
  · cases h
  · cases h
    exact ⟨_, rfl⟩

namespace NoteName

/-- A text is read as a class and an octave exactly if it is written as the name of a note whose
letter and accidentals are a name of the class and whose digits, which are not too many, have the
octave as their value.  There is one way to take it apart.  A text that is not read is refused as
the name of an unknown class, unless it has too many digits. -/
theorem read_grammar (s : String) :
    (∀ c o, read s = .ok (c, o) ↔ ∃ w : WrittenNote, w.chars = s.toList ∧ w.Names c o) ∧
      (∀ w w' : WrittenNote, w.chars = s.toList → w'.chars = s.toList → w = w') ∧
      (s.toList.countP isDecimal ≤ Number.digitLimit →
        (¬ ∃ (w : WrittenNote) (c : PitchClass) (o : Int), w.chars = s.toList ∧ w.Names c o) →
        ∃ name, read s = .error (.unknownPitchClass name)) := by
  have hsome : ∀ r, read s = .ok r → ∃ w : WrittenNote, w.chars = s.toList := by
    intro r hread
    cases hsplit : split s.toList with
    | none =>
        simp only [read, hsplit] at hread
        cases hread
    | some n =>
        obtain ⟨w, hw, -⟩ := WrittenNote.exists_of_split hsplit
        exact ⟨w, hw⟩
  refine ⟨fun c o => ⟨fun hread => ?_, ?_⟩, fun w w' hw hw' =>
    WrittenNote.chars_injective (hw.trans hw'.symm), fun hdigits hnone => ?_⟩
  · obtain ⟨w, hw⟩ := hsome _ hread
    exact ⟨w, hw, (WrittenNote.read_eq_ok_iff hw).mp hread⟩
  · rintro ⟨w, hw, hnames⟩
    exact (WrittenNote.read_eq_ok_iff hw).mpr hnames
  · cases hsplit : split s.toList with
    | none => exact ⟨.val (.text s), by simp only [read, hsplit]⟩
    | some n =>
        obtain ⟨w, hw, -⟩ := WrittenNote.exists_of_split hsplit
        rw [WrittenNote.read_eq hw]
        cases hclass : PitchClass.ofValue (.text w.className) with
        | error f =>
            obtain ⟨name, rfl⟩ := PitchClass.ofValue_text_error hclass
            exact ⟨name, rfl⟩
        | ok c =>
            have hshort : w.digits.length ≤ Number.digitLimit :=
              Nat.le_trans w.length_digits_le (hw ▸ hdigits)
            exact absurd ⟨w, c, w.octave, hw, WrittenNote.ofValue_className.mp hclass, hshort, rfl⟩
              hnone

/-- The first of two letters is the letter and the second is a flat.  There is no note `H`. -/
theorem read_grammar_flat :
    read " bb -1" = .ok (.ofInt 10, -1) ∧ ∃ name, read "H4" = .error (.unknownPitchClass name) := by
  let w : WrittenNote := {
    before := [' '], letter := 'b', accidentals := ['b'], between := [' '], negative := true
    digits := ['1'], after := []
    before_blank := List.all_eq_true.mp (by decide)
    isLetter := by decide
    isAccidental := List.all_eq_true.mp (by decide)
    between_blank := List.all_eq_true.mp (by decide)
    isDecimal := List.all_eq_true.mp (by decide)
    digits_ne_nil := by decide
    after_blank := List.all_eq_true.mp (by decide) }
  refine ⟨((read_grammar " bb -1").1 _ _).mpr ⟨w, by decide +kernel, by decide +kernel, by decide,
    by decide +kernel⟩, (read_grammar "H4").2.2 (by decide +kernel) ?_⟩
  rintro ⟨v, -, -, hv, -⟩
  have hsplit := v.split_chars
  rw [hv, show split "H4".toList = none by decide +kernel] at hsplit
  cases hsplit

end NoteName

end Consonance
