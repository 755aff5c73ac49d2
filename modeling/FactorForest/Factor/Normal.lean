import FactorForest.Factor.Basic
import FactorForest.Number.Logarithm

set_option autoImplicit false

namespace FactorForest

/-- Sums of blocks of eight run side by side and are joined in pairs, the rest is added in turn. -/
def blockSum (xs : List Float) : Float :=
  match xs with
  | a :: b :: c :: d :: e :: f :: g :: h :: rest => lanes a b c d e f g h rest
  | _ => xs.foldl (· + ·) 0.0
where
  lanes (a b c d e f g h : Float) : List Float → Float
    | a' :: b' :: c' :: d' :: e' :: f' :: g' :: h' :: rest =>
      lanes (a + a') (b + b') (c + c') (d + d') (e + e') (f + f') (g + g') (h + h') rest
    | rest => rest.foldl (· + ·) (((a + b) + (c + d)) + ((e + f) + (g + h)))

/-- Pairwise summation: a long list is halved at a multiple of eight until 128 values are left. -/
def pairwiseSum (xs : List Float) : Float :=
  if _h : xs.length ≤ 128 then blockSum xs
  else
    let half := xs.length / 2 - xs.length / 2 % 8
    pairwiseSum (xs.take half) + pairwiseSum (xs.drop half)
termination_by xs.length
decreasing_by
  · simp only [List.length_take]; omega
  · simp only [List.length_drop]; omega

def greatest (xs : List Float) : Float :=
  xs.foldl (fun m x => if m.isNaN then m else if x.isNaN || m < x then x else m)
    (xs.headD 0.0)

/-- The logarithm of the sum of the exponentials. The greatest value and its repetitions are kept
out of the sum, whose size is then a share of them. -/
def logSumExp (xs : List Float) : Float :=
  let m := greatest xs
  let peaks := (xs.filter (· == m)).length.toFloat
  let rest := pairwiseSum (xs.map fun x => if x == m then 0.0 else Float.exp (x - m))
  (logOnePlus (if rest == 0.0 then rest else rest / peaks) + Float.log peaks) + m

namespace Factor

def floats (f : Factor) : List Float := f.table.toList.map Double.toFloat

def peak (f : Factor) : Double := f.table.toList.foldl Double.greater (f.table.getD 0 .zero)

def normalize (f : Factor) : Except Fault Factor :=
  if f.peak = .negInfinity then .error (.told (.zeroMass f.scope.vars))
  else
    let m := f.peak.toFloat
    let total := logSumExp (f.floats.map (· - m))
    .ok (f.mapCells fun x => .ofFloat (x.toFloat - m - total))

def probabilities (f : Factor) : Except Fault (List Double) := do
  let g ← f.normalize
  pure (g.floats.map fun x => .ofFloat (Float.exp x))

end Factor
end FactorForest
