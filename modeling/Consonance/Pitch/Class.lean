/-!
# Pitch classes

The twelve chromatic pitch classes, numbered from `C` upwards.  A class has one
canonical name with a sharp (`C#`), one with a flat (`Db`), a symbol made of
letters only (`Cs`), and a list of further spellings.  `s` and `f` stand for
sharp and flat there.

A name belongs to at most one class.  `ofName?` looks through the canonical
names first, then the symbols, then the further spellings in chromatic order.
-/

namespace Consonance

/-- One of the twelve pitch classes. -/
structure PitchClass where
  /-- The distance above `C` in semitones. -/
  position : Fin 12
  deriving DecidableEq, Repr

namespace PitchClass

/-- How a pitch class is written. -/
structure Spelling where
  /-- The canonical name, with a sharp where one is needed. -/
  sharp : String
  /-- The name with a flat where one is needed. -/
  flat : String
  symbol : String
  aliases : List String
  deriving DecidableEq, Repr

def spelling (c : PitchClass) : Spelling :=
  match c.position with
  | 0 => ⟨"C", "C", "C", ["B#", "Dbb", "Bs", "Dff"]⟩
  | 1 => ⟨"C#", "Db", "Cs", ["Db", "B##", "Df", "Bss"]⟩
  | 2 => ⟨"D", "D", "D", ["C##", "Ebb", "Css", "Eff"]⟩
  | 3 => ⟨"D#", "Eb", "Ds", ["Eb", "Fbb", "Ef", "Fff"]⟩
  | 4 => ⟨"E", "E", "E", ["Fb", "D##", "Ff", "Dss"]⟩
  | 5 => ⟨"F", "F", "F", ["E#", "Gbb", "Es", "Gff"]⟩
  | 6 => ⟨"F#", "Gb", "Fs", ["Gb", "E##", "Gf", "Ess"]⟩
  | 7 => ⟨"G", "G", "G", ["F##", "Abb", "Fss", "Aff"]⟩
  | 8 => ⟨"G#", "Ab", "Gs", ["Ab", "Af"]⟩
  | 9 => ⟨"A", "A", "A", ["G##", "Bbb", "Gss", "Bff"]⟩
  | 10 => ⟨"A#", "Bb", "As", ["Bb", "Cbb", "Bf", "Cff"]⟩
  | 11 => ⟨"B", "B", "B", ["Cb", "A##", "Cf", "Ass"]⟩

def all : List PitchClass := (List.finRange 12).map PitchClass.mk

/-- The class of an absolute pitch or of any other number of semitones above `C`. -/
def ofInt (n : Int) : PitchClass :=
  ⟨⟨(n % 12).toNat, by omega⟩⟩

/-- The class with a given number, if that is below twelve. -/
def ofNumber? (n : Int) : Option PitchClass :=
  if 0 ≤ n ∧ n < 12 then some (ofInt n) else none

/-- The number of the class as an integer. -/
def toInt (c : PitchClass) : Int := (c.position.val : Int)

/-- The class a number of semitones away. -/
def transpose (c : PitchClass) (semitones : Int) : PitchClass := ofInt (c.toInt + semitones)

def name (c : PitchClass) : String := c.spelling.sharp

/-- The class that has a given name. -/
def ofName? (name : String) : Option PitchClass :=
  all.find? (fun c => c.spelling.sharp == name)
    |>.or (all.find? fun c => c.spelling.symbol == name)
    |>.or (all.find? fun c => c.spelling.aliases.contains name)

@[simp] theorem toInt_ofInt (n : Int) : (ofInt n).toInt = n % 12 := by
  simp only [toInt, ofInt]
  omega

@[simp] theorem ofInt_toInt (c : PitchClass) : ofInt c.toInt = c := by
  obtain ⟨p⟩ := c
  simp only [toInt, ofInt]
  congr 1
  apply Fin.ext
  simp only []
  omega

theorem toInt_nonneg (c : PitchClass) : 0 ≤ c.toInt := by simp [toInt]

theorem toInt_lt (c : PitchClass) : c.toInt < 12 := by
  have := c.position.isLt
  simp only [toInt]
  omega

example : ofName? "Db" = some (ofInt 1) ∧ ofName? "Cb" = some (ofInt 11) ∧ ofName? "H" = none := by
  decide +kernel

example : all.map toInt = [0, 1, 2, 3, 4, 5, 6, 7, 8, 9, 10, 11] := by decide

end PitchClass

end Consonance
