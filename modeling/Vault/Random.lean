import Vault.Bytes

/-!
# `Vault/Random.lean` — where random bytes come from

Salts, nonces and generated keys are drawn from a `Random`: an endless sequence of bytes and the
number of them already handed out. Nothing about the sequence is assumed, so **a statement about
every `Random` is a statement about every outcome of the draws**, and "no randomness was used"
is the equation that `used` did not change.

`Random.seeded` is the reproducible source: a linear congruential generator of which every step
yields the top byte of its state.
-/

set_option autoImplicit false

namespace Vault

/-- An endless sequence of bytes, of which the first `used` are spent. -/
structure Random where
  byte : Nat → UInt8
  used : Nat := 0

namespace Random

/-- The next `n` bytes, in order and without gaps. -/
def draw (r : Random) (n : Nat) : Bytes × Random :=
  ((List.range n).map fun i => r.byte (r.used + i), { r with used := r.used + n })

@[simp] theorem length_draw (r : Random) (n : Nat) : (r.draw n).1.length = n := by simp [draw]

/-! ## The reproducible source -/

/-- One or several steps of the generator: `x ↦ mul * x + add`. -/
structure Step where
  mul : UInt64
  add : UInt64

/-- The first step and then the second. -/
def Step.andThen (f g : Step) : Step := ⟨g.mul * f.mul, g.mul * f.add + g.add⟩

/-- The state that a step leads to. -/
def Step.apply (f : Step) (x : UInt64) : UInt64 := f.mul * x + f.add

/-- `n` times the same step, by repeated doubling; `bits` bounds the length of `n` in binary. -/
def Step.repeated : (bits : Nat) → Step → (n : Nat) → Step
  | 0, _, _ => ⟨1, 0⟩
  | bits + 1, f, n =>
    if n = 0 then ⟨1, 0⟩
    else
      let rest := Step.repeated bits (f.andThen f) (n / 2)
      if n % 2 = 1 then f.andThen rest else rest

/-- The generator's step. -/
def Step.generator : Step := ⟨6364136223846793005, 1442695040888963407⟩

/-- The source that a seed determines: byte `i` is the top byte of the state after `i + 1` steps. -/
def seeded (seed : UInt64) : Random where
  byte i := (((Step.repeated 64 Step.generator (i + 1)).apply seed) >>> 56).toUInt8

end Random

end Vault
