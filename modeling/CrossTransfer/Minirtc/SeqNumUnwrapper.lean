import CrossTransfer.Transfer.BlockCodec

/-! # Unwrapping sequence numbers

`minirtc/src/common/rtc_base/numerics/sequence_number_unwrapper.h` for 16 bits: numbers that wrap around
are counted on, in the direction in which the distance is shorter. Numbers that were cut to 16 bits come
back if no two neighbours are half a turn apart or more (`unwrapAll_wrap`).
-/

namespace CrossTransfer.Minirtc

/-- `ForwardDiff`. -/
def forwardDiff (a b : UInt16) : UInt16 := b - a

/-- `AheadOrAt`; the operands of `a - b` are promoted to `int`. -/
def aheadOrAt (a b : UInt16) : Bool :=
  if (a.toNat : Int) - b.toNat = 32768 then decide (b < a) else decide (forwardDiff b a < 32768)

/-- `Delta`. -/
def delta (lastValue newValue : UInt16) : Int :=
  let result : Int := (forwardDiff lastValue newValue).toNat
  if aheadOrAt newValue lastValue then result else result - 65536

structure SeqNumUnwrapper where
  lastUnwrapped : Int := 0
  lastValue : Option UInt16 := none

namespace SeqNumUnwrapper

/-- `Unwrap`. -/
def unwrap (u : SeqNumUnwrapper) (value : UInt16) : Int × SeqNumUnwrapper :=
  let lastUnwrapped := match u.lastValue with
    | none => (value.toNat : Int)
    | some lastValue => u.lastUnwrapped + delta lastValue value
  (lastUnwrapped, { lastUnwrapped, lastValue := some value })

/-- The numbers that come out for the values that go in. -/
def unwrapAll : SeqNumUnwrapper → List UInt16 → List Int
  | _, [] => []
  | u, value :: values => (u.unwrap value).1 :: unwrapAll (u.unwrap value).2 values

end SeqNumUnwrapper

/-! ## One difference -/

section Delta

variable (a b : UInt16)

theorem toNat_forwardDiff : ((forwardDiff a b).toNat : Int) = ((b.toNat : Int) - a.toNat) % 65536 := by
  have ha := a.toNat_lt
  have hb := b.toNat_lt
  rw [forwardDiff, UInt16.toNat_sub]
  omega

/-- The shorter way; from opposite sides the one that does not wrap. -/
theorem delta_eq : delta a b = ((b.toNat : Int) - a.toNat + 32768) % 65536 - 32768 ∨
    (b.toNat : Int) - a.toNat = 32768 ∧ delta a b = 32768 := by
  have ha := a.toNat_lt
  have hb := b.toNat_lt
  have hdiff := toNat_forwardDiff a b
  have hlt : forwardDiff a b < 32768 ↔ (forwardDiff a b).toNat < 32768 := UInt16.lt_iff_toNat_lt
  have hba : a < b ↔ a.toNat < b.toNat := UInt16.lt_iff_toNat_lt
  unfold delta aheadOrAt
  simp only [hlt, hba]
  grind

theorem delta_mod : delta a b % 65536 = ((b.toNat : Int) - a.toNat) % 65536 := by
  obtain h | ⟨hapart, h⟩ := delta_eq a b
  · omega
  · omega

/-- A distance of less than half a turn is found. -/
theorem delta_of_near {x y : Int} (hx : (a.toNat : Int) = x % 65536) (hy : (b.toNat : Int) = y % 65536)
    (hnear : |y - x| < 32768) : delta a b = y - x := by
  rw [abs_lt] at hnear
  obtain h | ⟨hapart, -⟩ := delta_eq a b
  · omega
  · omega

end Delta

/-! ## A sequence of numbers -/

/-- What is left of a number in 16 bits. -/
def wrap (x : Int) : UInt16 := UInt16.ofNat (x % 65536).toNat

theorem toNat_wrap (x : Int) : ((wrap x).toNat : Int) = x % 65536 := by
  rw [wrap, UInt16.toNat_ofNat']
  omega

namespace SeqNumUnwrapper

/-- The last number that came out belongs to the last value that went in. -/
structure Agrees (u : SeqNumUnwrapper) : Prop where
  value : ∀ v, u.lastValue = some v → wrap u.lastUnwrapped = v

theorem agrees_start : Agrees {} := ⟨fun v h => by cases h⟩

theorem wrap_unwrap {u : SeqNumUnwrapper} (h : u.Agrees) (value : UInt16) :
    wrap (u.unwrap value).1 = value := by
  apply UInt16.toNat_inj.mp
  have hlt := value.toNat_lt
  have hwrap := toNat_wrap (u.unwrap value).1
  cases hlast : u.lastValue with
  | none =>
    have hfirst : (u.unwrap value).1 = value.toNat := by simp [unwrap, hlast]
    rw [hfirst] at hwrap ⊢
    omega
  | some lastValue =>
    have hnext : (u.unwrap value).1 = u.lastUnwrapped + delta lastValue value := by simp [unwrap, hlast]
    have hbefore := toNat_wrap u.lastUnwrapped
    rw [h.value _ hlast] at hbefore
    have hmod := delta_mod lastValue value
    rw [hnext] at hwrap ⊢
    omega

theorem Agrees.unwrap {u : SeqNumUnwrapper} (h : u.Agrees) (value : UInt16) :
    Agrees (u.unwrap value).2 :=
  ⟨fun v hv => by cases hv; exact wrap_unwrap h value⟩

theorem unwrapAll_from {u : SeqNumUnwrapper} {x : Int} (hlast : u.lastUnwrapped = x)
    (hvalue : u.lastValue = some (wrap x)) {xs : List Int}
    (hnear : (x :: xs).IsChain fun a b => |b - a| < 32768) : u.unwrapAll (xs.map wrap) = xs := by
  induction xs generalizing u x with
  | nil => rfl
  | cons y ys ih =>
    rw [List.isChain_cons_cons] at hnear
    have hstep : (u.unwrap (wrap y)).1 = y := by
      have hdelta := delta_of_near (wrap x) (wrap y) (toNat_wrap x) (toNat_wrap y) hnear.1
      simp only [SeqNumUnwrapper.unwrap, hvalue, hdelta, hlast]
      omega
    have hrest := ih (u := (u.unwrap (wrap y)).2) (x := y) hstep rfl hnear.2
    rw [List.map_cons, unwrapAll, hstep, hrest]

/-- Numbers of which only 16 bits are sent are counted again as they were, as long as the first one is
    below `2 ^ 16` and neighbours are less than half a turn apart. -/
theorem unwrapAll_wrap (x : Int) (xs : List Int) (hfirst : 0 ≤ x ∧ x < 65536)
    (hnear : (x :: xs).IsChain fun a b => |b - a| < 32768) :
    unwrapAll {} ((x :: xs).map wrap) = x :: xs := by
  have hstart : (unwrap {} (wrap x)).1 = x := by
    have hwrap := toNat_wrap x
    simp only [unwrap]
    omega
  have hrest := unwrapAll_from (u := (unwrap {} (wrap x)).2) hstart rfl hnear
  rw [List.map_cons, unwrapAll, hstart, hrest]

/-- Over the end of the 16 bits, and back. -/
theorem unwrapAll_wrap_turn : unwrapAll {} ([65534, 65537, 65535].map wrap) = [65534, 65537, 65535] :=
  unwrapAll_wrap 65534 [65537, 65535] (by decide) (by simp)

end SeqNumUnwrapper

end CrossTransfer.Minirtc
