import CommitLog.Decimal.Shortest
import CommitLog.Proofs.Decimal.Rounding

/-!
What is written for a magnitude can be read: the digits are few and the value is not much above the magnitude
(`Suits`), so the decimal is not too large to be a finite number (`shortest_finite`).
-/

namespace CommitLog.Decimal

open Binary64

/-- A decimal with at most eighteen digits, above zero and not above the magnitudes around a place. -/
structure Suits (place : Nat) (x : Scientific) : Prop where
  positive : 0 < x.digits
  few : x.digits ≤ powerOfTen 17
  below : x.digits * halfUnitsPerOne * powerOfTen x.exponent.toNat ≤
    (Interval.around place).high * powerOfTen (-x.exponent).toNat

theorem powerOfTen_add (m n : Nat) : powerOfTen (m + n) = powerOfTen m * powerOfTen n := Nat.pow_add 10 m n

variable {place : Nat}

/-- Moving a zero into the exponent keeps the value. -/
theorem Suits.trim {x : Scientific} (suits : Suits place x) (fuel : Nat) : Suits place (x.trim fuel) := by
  induction fuel generalizing x with
  | zero => exact suits
  | succ fuel ih =>
    rw [Scientific.trim]
    split
    · next zero =>
      obtain ⟨tenth, whole⟩ := Nat.dvd_of_mod_eq_zero zero.2
      have positive := suits.positive
      have below := suits.below
      refine ih ⟨?_, Nat.le_trans (Nat.div_le_self _ _) suits.few, ?_⟩
      · show 0 < x.digits / 10
        omega
      · show x.digits / 10 * halfUnitsPerOne * powerOfTen (x.exponent + 1).toNat ≤
          (Interval.around place).high * powerOfTen (-(x.exponent + 1)).toNat
        rw [show x.digits / 10 = tenth by omega]
        rw [whole] at below
        by_cases up : 0 ≤ x.exponent
        · rw [show (x.exponent + 1).toNat = 1 + x.exponent.toNat by omega, powerOfTen_add,
            show (-(x.exponent + 1)).toNat = (-x.exponent).toNat by omega]
          refine Nat.le_trans (Nat.le_of_eq ?_) below
          show tenth * halfUnitsPerOne * (10 * powerOfTen x.exponent.toNat) = _
          ring
        · rw [show (-x.exponent).toNat = 1 + (-(x.exponent + 1)).toNat by omega, powerOfTen_add,
            show x.exponent.toNat = (x.exponent + 1).toNat by omega] at below
          refine Nat.le_of_mul_le_mul_left ?_ (show 0 < 10 by decide)
          refine Nat.le_trans (Nat.le_of_eq ?_) (Nat.le_trans below (Nat.le_of_eq ?_))
          · ring
          · show _ * (10 * _) = _
            ring
    · exact suits

theorem Interval.holds_bounds {interval : Interval} {digits : Nat} {exponent : Int}
    (holds : interval.holds digits exponent = true) :
    interval.low * powerOfTen (-exponent).toNat ≤ digits * halfUnitsPerOne * powerOfTen exponent.toNat ∧
      digits * halfUnitsPerOne * powerOfTen exponent.toNat ≤ interval.high * powerOfTen (-exponent).toNat := by
  unfold Interval.holds at holds
  dsimp only at holds
  split at holds
  · rw [Bool.and_eq_true, decide_eq_true_eq, decide_eq_true_eq] at holds
    exact holds
  · rw [Bool.and_eq_true, decide_eq_true_eq, decide_eq_true_eq] at holds
    exact ⟨Nat.le_of_lt holds.1, Nat.le_of_lt holds.2⟩

/-- What a grid gives lies in the interval and next to the magnitude. -/
theorem Interval.onGrid_some {interval : Interval} {digits : Nat} {exponent : Int}
    (found : interval.onGrid exponent = some digits) :
    interval.holds digits exponent = true ∧
      digits ≤ interval.middle * powerOfTen (-exponent).toNat / (halfUnitsPerOne * powerOfTen exponent.toNat) + 1 := by
  unfold Interval.onGrid at found
  dsimp only at found
  split at found
  · next lower upper =>
    split at found
    · cases found
      exact ⟨upper, Nat.le_refl _⟩
    · cases found
      exact ⟨lower, Nat.le_succ _⟩
  · next lower _ =>
    cases found
    exact ⟨lower, Nat.le_succ _⟩
  · next _ upper =>
    cases found
    exact ⟨upper, Nat.le_refl _⟩
  · cases found

/-- A magnitude is less than ten to the number of places before its point. -/
theorem lt_magnitude (units : Nat) :
    ∃ places : Nat, magnitude units = places - 330 ∧
      units * powerOfTen 330 < powerOfTen places * unitsPerOne := by
  have length := (Nat.length_toDigits_le_iff (n := units * powerOfTen 330 / unitsPerOne) (by decide)
    Nat.length_toDigits_pos).1 (Nat.le_refl (Nat.toDigits 10 (units * powerOfTen 330 / unitsPerOne)).length)
  exact ⟨_, rfl, (Nat.div_lt_iff_lt_mul unitsPerOne_pos).1 length⟩

/-- The grid of `count` digits below the magnitude gives no more than ten to that power. -/
theorem onGrid_few {count digits : Nat}
    (found : (Interval.around place).onGrid (magnitude (units place) - count) = some digits) :
    digits ≤ powerOfTen count := by
  obtain ⟨places, top, less⟩ := lt_magnitude (units place)
  refine Nat.le_trans (Interval.onGrid_some found).2 ?_
  rw [top]
  generalize spent : (places : Int) - 330 - count = exponent
  refine Nat.succ_le_of_lt ((Nat.div_lt_iff_lt_mul ?_).2 ?_)
  · exact Nat.mul_pos (Nat.mul_pos (by decide) unitsPerOne_pos) (powerOfTen_pos _)
  · have exponents : places + (-exponent).toNat = 330 + (count + exponent.toNat) := by omega
    have scaled := Nat.mul_lt_mul_of_pos_right less (powerOfTen_pos (-exponent).toNat)
    have spread : powerOfTen places * powerOfTen (-exponent).toNat =
        powerOfTen 330 * (powerOfTen count * powerOfTen exponent.toNat) := by
      rw [← powerOfTen_add, exponents, powerOfTen_add, powerOfTen_add]
    show 2 * units place * powerOfTen (-exponent).toNat < powerOfTen count * (2 * unitsPerOne * powerOfTen exponent.toNat)
    refine Nat.lt_of_mul_lt_mul_left (a := powerOfTen 330) ?_
    calc powerOfTen 330 * (2 * units place * powerOfTen (-exponent).toNat)
        = 2 * (units place * powerOfTen 330 * powerOfTen (-exponent).toNat) := by ring
      _ < 2 * (powerOfTen places * unitsPerOne * powerOfTen (-exponent).toNat) :=
        Nat.mul_lt_mul_of_pos_left scaled (by decide)
      _ = 2 * unitsPerOne * (powerOfTen places * powerOfTen (-exponent).toNat) := by ring
      _ = 2 * unitsPerOne * (powerOfTen 330 * (powerOfTen count * powerOfTen exponent.toNat)) := by rw [spread]
      _ = powerOfTen 330 * (powerOfTen count * (2 * unitsPerOne * powerOfTen exponent.toNat)) := by ring

/-- What is written for a magnitude suits it, unless nothing was found. -/
theorem shortest_suits (positive : 0 < place) : shortest place = ⟨0, 0⟩ ∨ Suits place (shortest place) := by
  unfold shortest
  dsimp only
  generalize attempted : (List.range 17).filterMap _ = attempts
  cases attempts with
  | nil => exact .inl rfl
  | cons first others =>
    have member : first ∈ first :: others := List.mem_cons_self
    rw [← attempted, List.mem_filterMap] at member
    obtain ⟨n, small, made⟩ := member
    obtain ⟨digits, found, rfl⟩ := Option.map_eq_some_iff.1 made
    have bounds := Interval.holds_bounds (Interval.onGrid_some found).1
    refine .inr (Suits.trim ⟨?_, ?_, by dsimp only; exact bounds.2⟩ 17)
    · show 0 < digits
      refine Nat.pos_of_ne_zero fun zero => ?_
      have low : 0 < (Interval.around place).low :=
        Nat.lt_of_lt_of_le (Nat.lt_of_le_of_lt (Nat.zero_le _) (units_strictMono positive)) (Nat.le_add_left _ _)
      have least := bounds.1
      rw [zero, Nat.zero_mul, Nat.zero_mul] at least
      exact Nat.not_le_of_lt (Nat.mul_pos low (powerOfTen_pos _)) least
    · show digits ≤ powerOfTen 17
      have few := List.mem_range.1 small
      exact Nat.le_trans (onGrid_few found) (powerOfTen_le (by omega))

/-! ### Reading -/

/-- Scaling up multiplies once. -/
theorem ofDecimal?_up (significand : Nat) {exponent : Nat} (small : exponent ≤ 308) :
    ofDecimal? significand exponent =
      (ofNat? significand).bind fun x => (tenTo? exponent).bind fun ten => x.times? ten := by
  rw [ofDecimal?, Option.bind_eq_bind]
  refine congrArg _ (funext fun x => ?_)
  rw [ofDecimal?.scale, if_neg (by omega), if_pos (by omega)]
  rfl

/-- A few digits behind the point are read as a finite number. -/
theorem few_finite {significand : Nat} (few : significand ≤ powerOfTen 17) {exponent : Int} (down : exponent < 0) :
    ∃ z, ofDecimal? significand exponent = some z := by
  have room : powerOfTen 17 * powerOfTen 0 * unitsPerOne * (placesPerBinade + 1) ^ 2 ≤
      units lastPlace * placesPerBinade ^ 2 := by decide +kernel
  refine ofDecimal?_finite (by omega) (Nat.le_trans ?_ room)
  rw [show exponent.toNat = 0 by omega]
  exact Nat.mul_le_mul_right _ (Nat.mul_le_mul_right _ (Nat.mul_le_mul_right _ few))

/-- The largest magnitudes, which are too close to the bound for an estimate. -/
theorem largest_finite : ∀ k < 6, ∃ exponent ≤ 308, (shortest (lastPlace - k)).exponent = (exponent : Nat) ∧
    ((ofNat? (shortest (lastPlace - k)).digits).bind fun x => (tenTo? exponent).bind fun ten => x.times? ten).isSome := by
  decide +kernel

/-- A decimal without fraction is at most the next magnitude. -/
theorem Suits.value_le {x : Scientific} (suits : Suits place x) (up : 0 ≤ x.exponent) :
    x.digits * powerOfTen x.exponent.toNat * unitsPerOne ≤ units (place + 1) := by
  have below := suits.below
  have next : units place ≤ units (place + 1) := units_strictMono.monotone (Nat.le_succ place)
  rw [show (-x.exponent).toNat = 0 by omega] at below
  have doubled : 2 * (x.digits * powerOfTen x.exponent.toNat * unitsPerOne) ≤ 2 * units (place + 1) := by
    calc 2 * (x.digits * powerOfTen x.exponent.toNat * unitsPerOne)
        = x.digits * halfUnitsPerOne * powerOfTen x.exponent.toNat := by
          rw [halfUnitsPerOne]
          ring
      _ ≤ (units place + units (place + 1)) * powerOfTen 0 := below
      _ = units place + units (place + 1) := Nat.mul_one _
      _ ≤ 2 * units (place + 1) := by omega
  exact Nat.le_of_mul_le_mul_left doubled (by decide)

/-- What is written for a magnitude is read as a finite number. -/
theorem shortest_finite (finite : place < placeLimit) (positive : 0 < place) :
    ∃ z, ofDecimal? (shortest place).digits (shortest place).exponent = some z := by
  by_cases large : lastPlace < place + 6
  · obtain ⟨exponent, small, same, found⟩ := largest_finite (lastPlace - place) (by omega)
    have whole : lastPlace - (lastPlace - place) = place := Nat.sub_sub_self (Nat.le_sub_one_of_lt finite)
    rw [whole] at same found
    rw [same, ofDecimal?_up _ small]
    exact Option.isSome_iff_exists.1 found
  rcases shortest_suits positive with none | suits
  · rw [none]
    exact ofDecimal?_finite (by decide) (by rw [Nat.zero_mul, Nat.zero_mul, Nat.zero_mul]; exact Nat.zero_le _)
  generalize shortest place = x at suits
  by_cases down : x.exponent < 0
  · exact few_finite suits.few down
  · have up : 0 ≤ x.exponent := Int.not_lt.1 down
    have room : units (lastPlace - 5) * (placesPerBinade + 1) ^ 2 ≤ units lastPlace * placesPerBinade ^ 2 := by
      decide +kernel
    have tooLarge : units (lastPlace - 5) < powerOfTen 309 * unitsPerOne := by decide +kernel
    have value : x.digits * powerOfTen x.exponent.toNat * unitsPerOne ≤ units (lastPlace - 5) :=
      Nat.le_trans (suits.value_le up) (units_strictMono.monotone (by omega))
    refine ofDecimal?_finite ?_ (Nat.le_trans (Nat.mul_le_mul_right _ value) room)
    refine Int.not_lt.1 fun above => Nat.not_le_of_lt tooLarge (Nat.le_trans ?_ value)
    have power : powerOfTen 309 ≤ powerOfTen x.exponent.toNat := powerOfTen_le (by omega)
    exact Nat.mul_le_mul_right _ (Nat.le_trans power (Nat.le_mul_of_pos_left _ suits.positive))

end CommitLog.Decimal
