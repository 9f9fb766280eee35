import Linearization.Ilp.Enforce

/-!
# Value encodings

`encode e` gives one literal per value of `e`, exactly one of them true and that one the literal of
the value of `e`. Encodings are kept in the program and shared.
-/

namespace Linearization

/-- The largest number of values, each with its literal, that a list is allocated for. -/
def Encoding.capacity : Nat := 384307168202282325

/-- The encoding that an earlier call made for a form. -/
def Ilp.encoding? (p : Ilp) (e : Affine) : Option Encoding :=
  (p.encodings.find? (fun entry => entry.1 = e)).map Prod.snd

namespace Lowering

/-- One new literal for each of `count` values from `value` on, with the sum of the literals added
to `total` and the sum of value times literal taken from `channel`. -/
def encodeFrom : Nat → Int → Affine → Affine → Lowering (Encoding × Affine × Affine)
  | 0, _, total, channel => return ([], total, channel)
  | count + 1, value, total, channel => do
    let l ← auxiliaryBool "val"
    let total ← total.plus l.toAffine
    let channel ← channel.minus (← l.toAffine.scale value)
    let (rest, total, channel) ← encodeFrom count (value + 1) total channel
    return ((value, l) :: rest, total, channel)

/-- One literal per value of a form, in increasing order of the values. -/
def encode (e : Affine) : Lowering Encoding := do
  let (lower, upper) ← bounds e
  if lower = upper then
    return [(lower, ← trueLiteral)]
  else
    let p ← get
    match p.encoding? e with
    | some encoding => return encoding
    | none =>
      let size := Word.span lower upper
      if size > p.enumerationLimit then
        throw (.domainTooLarge size p.enumerationLimit)
      else if size > Encoding.capacity then
        throw (.fault (.capacity size))
      else
        let (encoding, total, channel) ←
          encodeFrom (upper - lower + 1).toNat lower (.const 0) e
        addZero (← total.minus (.const 1))
        addZero channel
        modify fun p => { p with encodings := (e, encoding) :: p.encodings }
        return encoding

end Lowering

end Linearization
