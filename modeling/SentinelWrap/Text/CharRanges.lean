/-! Sets of characters given as inclusive ranges of code points. -/
namespace SentinelWrap.Text

/-- The character lies in one of the ranges. -/
def inRanges (ranges : List (Nat × Nat)) (c : Char) : Bool :=
  ranges.any fun (first, last) => first ≤ c.toNat && c.toNat ≤ last

end SentinelWrap.Text
