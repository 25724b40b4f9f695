import CommitLog.Decimal.Binary64
import Mathlib.Order.Monotone.Basic
import Mathlib.Tactic.Ring

/-!
Rounding to a place. The magnitudes ascend with their places (`units_strictMono`), and rounding never passes
one that is a bound (`nearestPlace_le`, `le_nearestPlace`), so it adds little to a number (`units_nearestPlace`).
Hence a decimal that is small enough is read as a finite number (`ofDecimal?_finite`).
-/

namespace CommitLog.Binary64

theorem placesPerBinade_pos : 0 < placesPerBinade := by decide

theorem powerOfTwo_pos (n : Nat) : 0 < powerOfTwo n := Nat.pow_pos (by decide)

theorem powerOfTen_pos (n : Nat) : 0 < powerOfTen n := Nat.pow_pos (by decide)

theorem powerOfTen_le {m n : Nat} (small : m ≤ n) : powerOfTen m ≤ powerOfTen n :=
  Nat.pow_le_pow_right (by decide) small

theorem unitsPerOne_pos : 0 < unitsPerOne := powerOfTwo_pos 1074

theorem powerOfTwo_add (m n : Nat) : powerOfTwo (m + n) = powerOfTwo m * powerOfTwo n := Nat.pow_add 2 m n

/-! ### Magnitudes -/

/-- From a power of two to the next, magnitudes are equally far from each other. -/
theorem units_binade (exponent : Nat) {fraction : Nat} (inside : fraction ≤ placesPerBinade) :
    units ((exponent + 1) * placesPerBinade + fraction) = (placesPerBinade + fraction) * powerOfTwo exponent := by
  rcases Nat.lt_or_eq_of_le inside with before | rfl
  · have quotient : ((exponent + 1) * placesPerBinade + fraction) / placesPerBinade = exponent + 1 := by
      rw [Nat.mul_comm, Nat.mul_add_div placesPerBinade_pos, Nat.div_eq_of_lt before, Nat.add_zero]
    have rest : ((exponent + 1) * placesPerBinade + fraction) % placesPerBinade = fraction := by
      rw [Nat.mul_comm, Nat.mul_add_mod, Nat.mod_eq_of_lt before]
    rw [units, quotient, rest, if_neg (Nat.succ_ne_zero _), Nat.add_sub_cancel]
  · have next : (exponent + 1) * placesPerBinade + placesPerBinade = placesPerBinade * (exponent + 2) := by ring
    rw [next, units, Nat.mul_div_cancel_left _ placesPerBinade_pos, Nat.mul_mod_right, if_neg (Nat.succ_ne_zero _)]
    show (placesPerBinade + 0) * powerOfTwo (exponent + 1) = _
    rw [powerOfTwo_add]
    show (placesPerBinade + 0) * (powerOfTwo exponent * 2) = _
    ring

/-- The least magnitudes are as far from each other as from zero. -/
theorem units_small {place : Nat} (small : place ≤ 2 * placesPerBinade) : units place = place := by
  by_cases subnormal : place < placesPerBinade
  · rw [units, Nat.div_eq_of_lt subnormal, if_pos rfl, Nat.mod_eq_of_lt subnormal]
  · have binade := @units_binade 0 (place - placesPerBinade) (by omega)
    have whole : (0 + 1) * placesPerBinade + (place - placesPerBinade) = place := by omega
    rw [whole] at binade
    rw [binade]
    show _ * 1 = _
    omega

theorem exists_binade {place : Nat} (normal : placesPerBinade ≤ place) :
    ∃ exponent fraction, fraction < placesPerBinade ∧ place = (exponent + 1) * placesPerBinade + fraction := by
  have parts := Nat.div_add_mod place placesPerBinade
  have some := Nat.div_pos normal placesPerBinade_pos
  refine ⟨place / placesPerBinade - 1, place % placesPerBinade, Nat.mod_lt _ placesPerBinade_pos, ?_⟩
  rw [Nat.sub_add_cancel some, Nat.mul_comm]
  exact parts.symm

theorem units_strictMono : StrictMono units := by
  refine strictMono_nat_of_lt_succ fun place => ?_
  by_cases small : place < 2 * placesPerBinade
  · rw [units_small (by omega), units_small (by omega)]
    exact Nat.lt_succ_self place
  · obtain ⟨exponent, fraction, inside, rfl⟩ := @exists_binade place (by omega)
    rw [Nat.add_assoc, units_binade exponent (by omega), units_binade exponent (by omega)]
    exact Nat.mul_lt_mul_of_pos_right (by omega) (powerOfTwo_pos exponent)

/-- The magnitude at a place, by a power of two that is not too large. -/
theorem units_shift {shift rest : Nat} (enough : shift = 0 ∨ placesPerBinade ≤ rest)
    (bounded : rest ≤ 2 * placesPerBinade) : units (shift * placesPerBinade + rest) = rest * powerOfTwo shift := by
  by_cases normal : placesPerBinade ≤ rest
  · have binade := @units_binade shift (rest - placesPerBinade) (by omega)
    have whole : (shift + 1) * placesPerBinade + (rest - placesPerBinade) = shift * placesPerBinade + rest := by
      rw [Nat.succ_mul]
      omega
    rw [whole, show placesPerBinade + (rest - placesPerBinade) = rest by omega] at binade
    exact binade
  · obtain rfl := enough.resolve_right normal
    rw [Nat.zero_mul, Nat.zero_add, units_small bounded]
    exact (Nat.mul_one rest).symm

/-! ### Rounding -/

variable {num den place : Nat}

theorem roundQuotient_le {bound : Nat} (positive : 0 < den) (below : num ≤ bound * den) :
    roundQuotient num den ≤ bound := by
  have parts := Nat.div_add_mod num den
  have least : num / den ≤ bound := Nat.div_le_of_le_mul (by rwa [Nat.mul_comm])
  unfold roundQuotient
  dsimp only
  by_cases same : num / den = bound
  · have exact_ : num % den = 0 := by
      rw [same, Nat.mul_comm] at parts
      omega
    rw [exact_, if_pos (by omega), same]
  · split
    · exact least
    split
    · omega
    · omega

theorem le_roundQuotient {bound : Nat} (positive : 0 < den) (above : bound * den ≤ num) :
    bound ≤ roundQuotient num den := by
  have most : bound ≤ num / den := (Nat.le_div_iff_mul_le positive).2 above
  unfold roundQuotient
  dsimp only
  split
  · exact most
  split
  · omega
  · omega

/-- The nearest place is found in the binade of the quotient. -/
theorem exists_shift (num : Nat) (positive : 0 < den) :
    ∃ shift, nearestPlace num den = shift * placesPerBinade + roundQuotient num (den * powerOfTwo shift) ∧
      num < 2 * placesPerBinade * (den * powerOfTwo shift) ∧
      (shift = 0 ∨ placesPerBinade * (den * powerOfTwo shift) ≤ num) := by
  by_cases small : num / den < 2 * placesPerBinade
  · refine ⟨0, ?_, ?_, .inl rfl⟩
    · rw [nearestPlace, if_pos small, Nat.zero_mul, Nat.zero_add]
      show _ = roundQuotient num (den * 1)
      rw [Nat.mul_one]
    · show num < _ * (den * 1)
      rw [Nat.mul_one]
      exact (Nat.div_lt_iff_lt_mul positive).1 small
  · have large : powerOfTwo 53 ≤ num / den := Nat.le_of_not_lt small
    have some : num / den ≠ 0 := fun none => by
      rw [none] at large
      exact Nat.not_lt_zero _ (Nat.lt_of_lt_of_le (powerOfTwo_pos 53) large)
    have log : 53 ≤ (num / den).log2 := (Nat.le_log2 some).2 large
    have lower : placesPerBinade * powerOfTwo ((num / den).log2 - 52) ≤ num / den := by
      have whole : placesPerBinade * powerOfTwo ((num / den).log2 - 52) = powerOfTwo (num / den).log2 := by
        rw [show (num / den).log2 = 52 + ((num / den).log2 - 52) by omega, powerOfTwo_add, Nat.add_sub_cancel_left]
        rfl
      rw [whole]
      exact Nat.log2_self_le some
    have upper : num / den < 2 * placesPerBinade * powerOfTwo ((num / den).log2 - 52) := by
      have whole : 2 * placesPerBinade * powerOfTwo ((num / den).log2 - 52) = powerOfTwo ((num / den).log2 + 1) := by
        rw [show (num / den).log2 + 1 = 53 + ((num / den).log2 - 52) by omega, powerOfTwo_add]
        rfl
      rw [whole]
      exact Nat.lt_log2_self
    refine ⟨(num / den).log2 - 52, ?_, ?_, .inr ?_⟩
    · rw [nearestPlace, if_neg small]
    · rw [Nat.mul_comm den, ← Nat.mul_assoc]
      exact (Nat.div_lt_iff_lt_mul positive).1 upper
    · rw [Nat.mul_comm den, ← Nat.mul_assoc]
      exact (Nat.le_div_iff_mul_le positive).1 lower

/-- Rounding does not pass a magnitude from below. -/
theorem nearestPlace_le (positive : 0 < den) (below : num ≤ units place * den) : nearestPlace num den ≤ place := by
  obtain ⟨shift, found, upper, lower⟩ := exists_shift num positive
  have spread : 0 < den * powerOfTwo shift := Nat.mul_pos positive (powerOfTwo_pos shift)
  rw [found]
  by_cases beyond : shift * placesPerBinade + 2 * placesPerBinade ≤ place
  · have round := roundQuotient_le spread (Nat.le_of_lt upper)
    omega
  · have reached : shift = 0 ∨ shift * placesPerBinade + placesPerBinade ≤ place := by
      refine lower.imp id fun lower => ?_
      rw [← units_strictMono.le_iff_le, units_shift (.inr (Nat.le_refl _)) (by omega)]
      refine Nat.le_of_mul_le_mul_right (Nat.le_trans ?_ (Nat.le_trans lower below)) positive
      exact Nat.le_of_eq (by ring)
    obtain ⟨rest, rfl⟩ : ∃ rest, place = shift * placesPerBinade + rest := by
      refine Nat.exists_eq_add_of_le ?_
      rcases reached with rfl | reached
      · omega
      · omega
    rw [units_shift (reached.imp id fun reached => by omega) (by omega), Nat.mul_assoc, Nat.mul_comm _ den] at below
    exact Nat.add_le_add_left (roundQuotient_le spread below) _

/-- Rounding does not pass a magnitude from above. -/
theorem le_nearestPlace (positive : 0 < den) (above : units place * den ≤ num) : place ≤ nearestPlace num den := by
  obtain ⟨shift, found, upper, lower⟩ := exists_shift num positive
  have spread : 0 < den * powerOfTwo shift := Nat.mul_pos positive (powerOfTwo_pos shift)
  rw [found]
  by_cases before : place < shift * placesPerBinade
  · omega
  obtain ⟨rest, rfl⟩ := Nat.exists_eq_add_of_le (Nat.le_of_not_lt before)
  have bounded : rest < 2 * placesPerBinade := by
    have less : units (shift * placesPerBinade + rest) < units (shift * placesPerBinade + 2 * placesPerBinade) := by
      rw [units_shift (.inr (by omega)) (Nat.le_refl _)]
      refine Nat.lt_of_mul_lt_mul_right (a := den) (Nat.lt_of_le_of_lt above (Nat.lt_of_lt_of_le upper ?_))
      exact Nat.le_of_eq (by ring)
    have order := units_strictMono.lt_iff_lt.1 less
    omega
  refine Nat.add_le_add_left ?_ _
  by_cases exact_ : shift = 0 ∨ placesPerBinade ≤ rest
  · rw [units_shift exact_ (by omega), Nat.mul_assoc, Nat.mul_comm _ den] at above
    exact le_roundQuotient spread above
  · have round := le_roundQuotient spread (lower.resolve_left fun zero => exact_ (.inl zero))
    omega

/-- Rounding adds at most as much as lies from one magnitude to the next. -/
theorem units_nearestPlace (num : Nat) :
    units (nearestPlace num 1) * placesPerBinade ≤ num * (placesPerBinade + 1) := by
  by_cases less : units (nearestPlace num 1) ≤ num
  · calc units (nearestPlace num 1) * placesPerBinade ≤ num * placesPerBinade := Nat.mul_le_mul_right _ less
      _ ≤ num * (placesPerBinade + 1) := Nat.mul_le_mul_left _ (Nat.le_succ _)
  · have before : ∀ place, place < nearestPlace num 1 → units place < num := by
      intro place lower
      refine Nat.lt_of_not_le fun above => Nat.not_le_of_lt lower (nearestPlace_le Nat.one_pos ?_)
      rwa [Nat.mul_one]
    generalize nearestPlace num 1 = found at less before
    by_cases small : found ≤ 2 * placesPerBinade
    · exfalso
      have positive : 0 < found := by
        refine Nat.pos_of_ne_zero fun zero => less ?_
        rw [zero, units_small (Nat.zero_le _)]
        exact Nat.zero_le _
      have previous := before (found - 1) (by omega)
      rw [units_small (by omega)] at previous less
      omega
    · obtain ⟨exponent, fraction, inside, same⟩ := @exists_binade (found - 1) (by omega)
      have previous := before (found - 1) (by omega)
      have here : found = (exponent + 1) * placesPerBinade + (fraction + 1) := by omega
      rw [same, units_binade exponent (by omega)] at previous
      rw [here, units_binade exponent (by omega)]
      have step : placesPerBinade * powerOfTwo exponent ≤ num :=
        Nat.le_of_lt (Nat.lt_of_le_of_lt (Nat.mul_le_mul_right _ (Nat.le_add_right _ _)) previous)
      calc (placesPerBinade + (fraction + 1)) * powerOfTwo exponent * placesPerBinade
          = (placesPerBinade + fraction) * powerOfTwo exponent * placesPerBinade +
              placesPerBinade * powerOfTwo exponent := by ring
        _ ≤ num * placesPerBinade + num := Nat.add_le_add (Nat.mul_le_mul_right _ (Nat.le_of_lt previous)) step
        _ = num * (placesPerBinade + 1) := by ring

/-! ### Decimals -/

/-- The place of the largest finite magnitude. -/
def lastPlace : Nat := placeLimit - 1

theorem ofPlace?_finite (negative : Bool) (known : place ≤ lastPlace) :
    ∃ x, ofPlace? negative place = some x ∧ x.place = place := by
  have finite : place < placeLimit := Nat.lt_of_le_of_lt known (by decide)
  exact ⟨⟨negative, place, finite⟩, dif_pos finite, rfl⟩

theorem ofNat?_finite {n : Nat} (small : n * unitsPerOne ≤ units lastPlace) :
    ∃ x, ofNat? n = some x ∧ x.place = nearestPlace (n * unitsPerOne) 1 :=
  ofPlace?_finite false (nearestPlace_le Nat.one_pos (by rwa [Nat.mul_one]))

/-- The powers of ten that are used for scaling are finite, and none is below one. -/
theorem tenTo?_finite {n : Nat} (small : n ≤ 308) :
    ∃ ten, tenTo? n = some ten ∧ unitsPerOne ≤ units ten.place ∧
      units ten.place * placesPerBinade ≤ powerOfTen n * unitsPerOne * (placesPerBinade + 1) := by
  have largest : powerOfTen 308 * unitsPerOne ≤ units lastPlace := by decide +kernel
  have ascending : powerOfTen n ≤ powerOfTen 308 := powerOfTen_le small
  have fits : powerOfTen n * unitsPerOne ≤ units lastPlace := Nat.le_trans (Nat.mul_le_mul_right _ ascending) largest
  obtain ⟨ten, found, place⟩ := ofNat?_finite fits
  refine ⟨ten, found, ?_, ?_⟩
  · have one : units (1023 * placesPerBinade) = unitsPerOne := by decide +kernel
    have above : 1023 * placesPerBinade ≤ nearestPlace (powerOfTen n * unitsPerOne) 1 := by
      refine le_nearestPlace Nat.one_pos ?_
      rw [one, Nat.mul_one]
      exact Nat.le_mul_of_pos_left _ (powerOfTen_pos n)
    rw [place]
    exact Nat.le_trans (Nat.le_of_eq one.symm) (units_strictMono.monotone above)
  · rw [place]
    exact units_nearestPlace _

/-- A quotient by a magnitude of one or more is no larger than what is divided. -/
theorem over?_finite (x : Binary64) {y : Binary64} (one : unitsPerOne ≤ units y.place) : ∃ z, x.over? y = some z := by
  have positive : 0 < units y.place := Nat.lt_of_lt_of_le unitsPerOne_pos one
  have bound : nearestPlace (units x.place * unitsPerOne) (units y.place) ≤ x.place :=
    nearestPlace_le positive (Nat.mul_le_mul_left _ one)
  obtain ⟨z, found, -⟩ := ofPlace?_finite x.negative (Nat.le_trans bound (Nat.le_sub_one_of_lt x.finite))
  exact ⟨z, found⟩

theorem times?_finite {x y : Binary64} (small : units x.place * units y.place ≤ units lastPlace * unitsPerOne) :
    ∃ z, x.times? y = some z := by
  obtain ⟨z, found, -⟩ := ofPlace?_finite x.negative (nearestPlace_le unitsPerOne_pos small)
  exact ⟨z, found⟩

/-- Scaling down succeeds. -/
theorem scale_down (x : Binary64) {exponent : Int} (negative : exponent < 0) :
    ∃ z, ofDecimal?.scale x exponent = some z := by
  have divides : ∀ n ≤ 308, ∀ x : Binary64, ∃ ten y, tenTo? n = some ten ∧ x.over? ten = some y := by
    intro n small x
    obtain ⟨ten, found, one, -⟩ := tenTo?_finite small
    obtain ⟨y, divided⟩ := over?_finite x one
    exact ⟨ten, y, found, divided⟩
  fun_induction ofDecimal?.scale x exponent with
  | case1 => omega
  | case2 => omega
  | case3 => omega
  | case4 x exponent _ _ near =>
    obtain ⟨ten, y, found, divided⟩ := divides (-exponent).toNat (by omega) x
    exact ⟨y, by rw [found, Option.bind_eq_bind, Option.bind_some, divided]⟩
  | case5 x => exact ⟨x, rfl⟩
  | case6 x exponent _ _ far some ih =>
    obtain ⟨ten, y, found, divided⟩ := divides 308 (Nat.le_refl _) x
    obtain ⟨z, rest⟩ := ih y (by omega)
    exact ⟨z, by rw [found, Option.bind_eq_bind, Option.bind_some, divided, Option.bind_some, rest]⟩

/-- A bound on a product, with room for two roundings, bounds its factors. -/
private theorem factor_le {whole power one spread last : Nat} (spreads : 0 < spread) (positive : 0 < power)
    (small : whole * power * one * (spread + 1) ^ 2 ≤ last * spread ^ 2) : whole * one ≤ last := by
  refine Nat.le_of_mul_le_mul_right (a := whole * one) (c := spread ^ 2) ?_ (Nat.pow_pos spreads)
  calc whole * one * spread ^ 2 ≤ whole * one * spread ^ 2 * power := Nat.le_mul_of_pos_right _ positive
    _ = whole * power * one * spread ^ 2 := by ring
    _ ≤ whole * power * one * (spread + 1) ^ 2 := Nat.mul_le_mul_left _ (Nat.pow_le_pow_left (Nat.le_succ _) 2)
    _ ≤ last * spread ^ 2 := small

/-- A bound on a product, with room for two roundings, bounds the product of the rounded factors. -/
private theorem rounded_le {x ten whole power one spread last : Nat} (spreads : 0 < spread)
    (rounded : x * spread ≤ whole * one * (spread + 1)) (above : ten * spread ≤ power * one * (spread + 1))
    (small : whole * power * one * (spread + 1) ^ 2 ≤ last * spread ^ 2) : x * ten ≤ last * one := by
  refine Nat.le_of_mul_le_mul_right (a := x * ten) (c := spread ^ 2) ?_ (Nat.pow_pos spreads)
  calc x * ten * spread ^ 2 = x * spread * (ten * spread) := by ring
    _ ≤ whole * one * (spread + 1) * (power * one * (spread + 1)) := Nat.mul_le_mul rounded above
    _ = whole * power * one * (spread + 1) ^ 2 * one := by ring
    _ ≤ last * spread ^ 2 * one := Nat.mul_le_mul_right _ small
    _ = last * one * spread ^ 2 := by ring

/-- A decimal that is small enough is read as a finite number. -/
theorem ofDecimal?_finite {significand : Nat} {exponent : Int} (bounded : exponent ≤ 308)
    (small : significand * powerOfTen exponent.toNat * unitsPerOne * (placesPerBinade + 1) ^ 2 ≤
      units lastPlace * placesPerBinade ^ 2) :
    ∃ z, ofDecimal? significand exponent = some z := by
  obtain ⟨x, found, place⟩ := ofNat?_finite (factor_le placesPerBinade_pos (powerOfTen_pos _) small)
  rw [ofDecimal?, found, Option.bind_eq_bind, Option.bind_some]
  by_cases negative : exponent < 0
  · exact scale_down x negative
  obtain ⟨ten, known, -, above⟩ := @tenTo?_finite exponent.toNat (by omega)
  have rounded : units x.place * placesPerBinade ≤ significand * unitsPerOne * (placesPerBinade + 1) := by
    rw [place]
    exact units_nearestPlace _
  obtain ⟨z, scaled⟩ := times?_finite (rounded_le placesPerBinade_pos rounded above small)
  refine ⟨z, ?_⟩
  rw [ofDecimal?.scale, if_neg (by omega), if_pos (by omega), known, Option.bind_eq_bind, Option.bind_some, scaled]

end CommitLog.Binary64
