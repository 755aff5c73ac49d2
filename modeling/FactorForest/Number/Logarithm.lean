set_option autoImplicit false

namespace FactorForest

def lnTwoHigh : Float := Float.ofBits 0x3FE62E42FEE00000

def lnTwoLow : Float := Float.ofBits 0x3DEA39EF35793C76

/-- The tail of the series of `log (1 + f)` in `z = (f / (2 + f)) ^ 2`, its terms taken in pairs. -/
def logTail (z : Float) : Float :=
  let z2 := z * z
  let z4 := z2 * z2
  let z6 := z4 * z2
  let pair (a b : UInt64) : Float := Float.ofBits a + z * Float.ofBits b
  z * Float.ofBits 0x3FE5555555555593 + z2 * pair 0x3FD999999997FA04 0x3FD2492494229359 +
    z4 * pair 0x3FCC71C51D8E78AF 0x3FC7466496CB03DE +
    z6 * pair 0x3FC39A09D078C69F 0x3FC2F112DF3E5244

/-- The logarithm of `2 ^ k * (1 + f)` for a small `f`, where `c` makes good what the sum lost. -/
def logScaled (k f c : Float) : Float :=
  let half := 0.5 * f * f
  let s := f / (2.0 + f)
  let low := s * (half + logTail (s * s))
  if k == 0.0 then f - (half - low)
  else k * lnTwoHigh - ((half - (low + (k * lnTwoLow + c))) - f)

def logNearPower (k f c : Float) : Float :=
  if f == 0.0 then k * lnTwoHigh + (c + k * lnTwoLow)
  else
    let r := 0.5 * f * f * (1.0 - 0.66666666666666666 * f)
    k * lnTwoHigh - ((r - (k * lnTwoLow + c)) - f)

/-- The logarithm of `1 + x` for a positive `x` of at least `√2 - 1`: the sum is scaled by a power
of two into the range from `√2 / 2` to `√2`. -/
def logOfSum (x : Float) : Float :=
  let u := 1.0 + x
  let bits := u.toBits
  let e := (bits >>> 52).toNat - 1023
  let c := (if 0 < e then 1.0 - (u - x) else x - (u - 1.0)) / u
  let fraction := bits &&& 0x000FFFFFFFFFFFFF
  if fraction < 0x0006A09E00000000 then
    let f := Float.ofBits (fraction ||| 0x3FF0000000000000) - 1.0
    if fraction < 0x0000000100000000 then logNearPower e.toFloat f c else logScaled e.toFloat f c
  else
    let f := Float.ofBits (fraction ||| 0x3FE0000000000000) - 1.0
    let k := (e + 1).toFloat
    if 0x000FFFFD00000000 ≤ fraction then logNearPower k f c else logScaled k f c

def logOnePlus (x : Float) : Float :=
  if x.isNaN || x < Float.ofBits 0x3C90000000000000 then x
  else if x < Float.ofBits 0x3E20000000000000 then x - x * x * 0.5
  else if x < Float.ofBits 0x3FDA827A00000000 then logScaled 0.0 x 0.0
  else logOfSum x

end FactorForest
