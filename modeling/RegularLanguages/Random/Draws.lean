/-!
# Random draws

What random constructions draw from: coins, chances and indices, each of which moves the source on.
A generator is a source that has a state for each seed, so that all that is drawn is a function of
the seed. `Wyrand` is one.
-/

namespace RegularLanguages

/-- A source of random draws with states of type `γ`. -/
structure Draws (γ : Type) where
  /-- One of two outcomes. -/
  coin : StateM γ Bool
  /-- Whether something happens that has the given probability. -/
  chance : Float → StateM γ Bool
  /-- A number below the given one. -/
  below : Nat → StateM γ Nat

/-- A source of random draws that has a state for each seed. -/
structure Generator (γ : Type) extends Draws γ where
  /-- The state for a seed. -/
  seeded : UInt64 → γ

/-- A generator of 64-bit numbers: a counter whose values are mixed by a multiplication. -/
structure Wyrand where
  counter : UInt64
deriving DecidableEq, Repr

namespace Wyrand

/-- The step of the counter. -/
def increment : UInt64 := 0x2d358dccaa6c78a5

/-- The bits that are flipped before the multiplication. -/
def flip : UInt64 := 0x8bb84b93962eacc9

/-- The lower half of the product of two numbers. -/
def lowProduct (x y : UInt64) : UInt64 := x * y

/-- The lower half of a number. -/
def lowHalf (x : UInt64) : UInt64 := x &&& 0xffffffff

/-- The upper half of a number. -/
def highHalf (x : UInt64) : UInt64 := x >>> 32

/-- The upper half of the product of two numbers, from the products of their halves. -/
def highProduct (x y : UInt64) : UInt64 :=
  let inner := lowHalf x * highHalf y
  let outer := highHalf x * lowHalf y
  let middle := highHalf (lowHalf x * lowHalf y) + lowHalf inner + lowHalf outer
  highHalf x * highHalf y + highHalf inner + highHalf outer + highHalf middle

/-- The next number. -/
def next (g : Wyrand) : UInt64 × Wyrand :=
  let s := g.counter + increment
  (lowProduct s (s ^^^ flip) ^^^ highProduct s (s ^^^ flip), ⟨s⟩)

/-- Heads if the next number is even. -/
def coin : StateM Wyrand Bool := fun g => (g.next.1 % 2 == 0, g.next.2)

/-- The counter takes each of its values once in this many steps, so no draw needs more. -/
def period : Nat := Nat.pow 2 64

/-- A number from zero up to but not including one: 63 random bits behind the point, drawn again if
they round to one. -/
def fractionWithin : (tries : Nat) → StateM Wyrand Float
  | 0, g => (0, g)
  | tries + 1, g =>
    let x := (g.next.1 >>> 1).toFloat / 9223372036854775808.0
    if x < 1 then (x, g.next.2) else fractionWithin tries g.next.2

/-- Whether a random number below one is below the given one. -/
def chance (p : Float) : StateM Wyrand Bool := fun g =>
  let (x, g) := fractionWithin period g
  (x < p, g)

/-- The upper half of the product of a random number and `n`; a random number whose lower half is
below `least` is drawn again. -/
def scaledWithin (n least : UInt64) : (tries : Nat) → StateM Wyrand UInt64
  | 0, g => (0, g)
  | tries + 1, g =>
    let r := g.next.1
    if lowProduct r n < least then scaledWithin n least tries g.next.2
    else (highProduct r n, g.next.2)

/-- A number below `n`, all with the same probability. -/
def scaled (n : UInt64) : StateM Wyrand UInt64 := scaledWithin n ((0 - n) % n) period

/-- A number below `n`, all with the same probability. If all numbers are below `n`, it is the next
number. -/
def below (n : Nat) : StateM Wyrand Nat := fun g =>
  if n = UInt64.size then (g.next.1.toNat, g.next.2)
  else
    let drawn := scaled n.toUInt64 g
    (drawn.1.toNat, drawn.2)

/-- The draws of the generator. -/
def draws : Draws Wyrand := ⟨coin, chance, below⟩

/-- The generator, whose counter starts at the seed. -/
def generator : Generator Wyrand := ⟨draws, mk⟩

end Wyrand

end RegularLanguages
