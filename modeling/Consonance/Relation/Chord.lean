import Consonance.Chord
import Consonance.Relation.Interval

/-!
# The chord relation

Three voices form a closed triad of a quality when they are one of its voicings: the
middle and the highest voice lie at the distances of that voicing above the bass.  The
root is the voice that carries it.  The voicings are tried in the order of their
inversions.
-/

namespace Consonance.Relation

/-- The voice of a given number, counted from the bass. -/
def voice (low middle high : Term) : Nat → Term
  | 0 => low
  | 1 => middle
  | _ => high

def voiced (root low middle high : Term) (v : Voicing) : Goal :=
  Goal.conjoin
    [above (.val v.middle) low middle, above (.val v.high) low high,
      .eq root (voice low middle high v.rootVoice)]

/-- The voices form a closed triad of a quality, with the given root. -/
def chord (quality : ChordQuality) (root low middle high : Term) : Except Failure Goal := do
  return Goal.disjoin ((← quality.voicings).map (voiced root low middle high))

end Consonance.Relation
