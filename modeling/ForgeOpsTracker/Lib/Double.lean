import Mathlib.Data.Rat.Init
import Mathlib.Data.Int.Log
import Mathlib.Data.Rat.Floor
import Mathlib.Tactic.Linarith

/-! A C `double`: a finite value, an infinity or a NaN. The two zeros are not told apart.
Sums are the exact ones rounded to the nearest `double`, and a comparison with a NaN is
false. -/

namespace ForgeOps

inductive Double
  | finite (q : Rat)
  | infinity (negative : Bool)
  | nan
  deriving DecidableEq, Repr

def Double.isfinite : Double → Bool
  | .finite _ => true
  | _ => false

/-- The integer nearest to `q`, of two the even one. -/
def roundEven (q : Rat) : Int :=
  let below := ⌊q⌋
  let rest := q - below
  if rest < 1 / 2 ∨ rest = 1 / 2 ∧ below % 2 = 0 then below else below + 1

theorem roundEven_le {q : Rat} {n : Int} (h : q ≤ n) : roundEven q ≤ n := by
  have hle : (⌊q⌋ : Rat) ≤ q := Int.floor_le q
  unfold roundEven
  dsimp only
  split
  · exact Int.cast_le.mp (hle.trans h)
  · rename_i hrest
    -- there is a rest, so the next integer is at most any above
    have hlt : (⌊q⌋ : Rat) < q := by
      by_contra hge
      exact hrest (.inl (by linarith))
    exact Int.add_one_le_of_lt (Int.cast_lt.mp (hlt.trans_le h))

namespace Double

/-- The exponent of the last place of a `double` as large as `q`. -/
def lastPlace (q : Rat) : Int := max (Int.log 2 |q| - 52) (-1074)

/-- The nearest `double`; from `2 ^ 1024` on it is infinite. -/
def round (q : Rat) : Double :=
  let unit := (2 : Rat) ^ lastPlace q
  let rounded := roundEven (q / unit) * unit
  if 2 ^ 1024 ≤ |rounded| then infinity (rounded < 0) else finite rounded

def neg : Double → Double
  | finite q => finite (-q)
  | infinity negative => infinity !negative
  | nan => nan

def add : Double → Double → Double
  | finite p, finite q => round (p + q)
  | infinity a, infinity b => if a = b then infinity a else nan
  | infinity a, finite _ => infinity a
  | finite _, infinity b => infinity b
  | nan, _ => nan
  | _, nan => nan

def lt : Double → Double → Bool
  | finite p, finite q => p < q
  | infinity a, infinity b => a && !b
  | infinity a, finite _ => a
  | finite _, infinity b => !b
  | nan, _ => false
  | _, nan => false

def le : Double → Double → Bool
  | nan, _ => false
  | _, nan => false
  | a, b => !lt b a

instance : Zero Double := ⟨finite 0⟩
instance : Add Double := ⟨add⟩
instance : Sub Double := ⟨fun a b => add a (neg b)⟩
instance : LT Double := ⟨fun a b => lt a b = true⟩
instance : LE Double := ⟨fun a b => le a b = true⟩
instance : DecidableLE Double := fun a b => inferInstanceAs (Decidable (le a b = true))
instance : DecidableLT Double := fun a b => inferInstanceAs (Decidable (lt a b = true))

example : round (1 / 3) = finite (6004799503160661 / 18014398509481984) := by decide +kernel

end Double

end ForgeOps
