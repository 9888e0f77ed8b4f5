import NekoStrategies.PositionValuation

/-!
# What a proportional burn is worth

Where no product overflows the burn for an amount gives up LP tokens worth the
amount and leaves a position worth the rest, up to the rounding of the
valuation. Valuations of two holdings never exceed that of both together, so
what the vaults are told adds up to no more than the pool holds; the Aquarius
strategy casts its sum to a signed integer, which breaks the former where only
the sum is out of the signed range.
-/
namespace NekoStrategies.BurnFairness
open CheckedInteger RoundedDivision SorobanHost AmmPosition SpotValue PositionValuation

/-- Out of `held` tokens of value `V` the burn of `s` is worth `amount`, and the
rest is worth the rest, up to two units and the price `price` of a unit of the
other token. -/
structure FairBurn (value : ℤ → Outcome ℤ) (price : ℚ) (held amount V s : ℤ) : Prop where
  pos : 0 < s
  le_held : s ≤ held
  burnt : ∃ k, value s = .ok k ∧ (k : ℚ) < amount + 2 + price
  left : ∃ k, value (held - s) = .ok k ∧ (V - amount - 2 - price : ℚ) < k

/-- Every burn decided for less than the value of a position is fair. -/
def BurnsFairly (value : ℤ → Outcome ℤ) (fits : ℤ → Prop) (price : ℚ) (held : Address → ℤ)
    (burn : Address → ℤ → Outcome ℤ) : Prop :=
  ∀ vault amount V s, IsHolding (held vault) → fits (held vault) →
    value (held vault) = .ok V → 0 < V → 0 < amount → amount < V → burn vault amount = .ok s →
    FairBurn value price (held vault) amount V s

/-- Two holdings are not worth more than both together. -/
def NoGainBySplitting (value : ℤ → Outcome ℤ) (x y : ℤ) : Prop :=
  ∀ kx ky k, value x = .ok kx → value y = .ok ky → value (x + y) = .ok k → kx + ky ≤ k

/-- What the vaults that hold no more than `supply` are told adds up to no more
than `bound`. -/
def ReportsAtMost (balance : Address → Outcome ℤ) (held : Address → ℤ) (supply bound : ℤ) : Prop :=
  ∀ (vaults : Finset Address) (k : Address → ℤ),
    (∀ v ∈ vaults, IsHolding (held v) ∧ balance v = .ok (k v)) →
    ∑ v ∈ vaults, held v ≤ supply → ∑ v ∈ vaults, k v ≤ bound

/-- All three, with `gainless` telling which holdings gain nothing by splitting. -/
structure Fair (value : ℤ → Outcome ℤ) (fits : ℤ → Prop) (price : ℚ) (held : Address → ℤ)
    (burn : Address → ℤ → Outcome ℤ) (balance : Address → Outcome ℤ) (supply bound : ℤ)
    (gainless : ℤ → ℤ → Prop) : Prop where
  burns : BurnsFairly value fits price held burn
  splitting : ∀ x y, 0 ≤ x → 0 ≤ y → IsHolding (x + y) → fits (x + y) →
    (NoGainBySplitting value x y ↔ gainless x y)
  reports : ReportsAtMost balance held supply bound

/-- The sum of two holdings reads as negative while neither of them does. -/
def SumTurnsNegative (w : Width) (a b T x y : ℤ) : Prop :=
  w.Holds (spotValue a b T (x + y)) ∧ ¬i128.Holds (spotValue a b T (x + y)) ∧
    i128.Holds (spotValue a b T x) ∧ i128.Holds (spotValue a b T y)

section Values
variable {w : Width} {value : ℤ → Outcome ℤ} {a b T held amount s x y k : ℤ}
  {position : Address → ℤ}

theorem FairBurn.of_exact (ha : 0 < a) (hb : 0 < b) (hT : 0 < T) (hheld : 0 ≤ held)
    (hvalue : ∀ x, 0 ≤ x → x ≤ held → value x = .ok (spotValue a b T x)) (hamount : 0 < amount)
    (hlt : amount < spotValue a b T held)
    (hburn : decidedBurn held amount (value held) = .ok s) :
    FairBurn value (a / b) held amount (spotValue a b T held) s := by
  obtain ⟨_, V, hV, _, hprop, hs0⟩ := decidedBurn_eq_ok.mp hburn
  obtain rfl : spotValue a b T held = V :=
    Except.ok.inj ((hvalue held hheld le_rfl).symm.trans hV)
  obtain ⟨hnonneg, hle⟩ := proportionalBurn_le hheld hamount hprop
  have hs := proportionalBurn_of_le hheld hamount hlt.le hprop
  constructor
  · omega
  · exact hle
  · exact ⟨_, hvalue s hnonneg hle, part_value_lt ha hb hT rfl hamount hlt hs⟩
  · exact ⟨_, hvalue (held - s) (by omega) (by omega),
      rest_value_gt ha hb hT rfl hamount hlt hs⟩

theorem value_of_fits (h : MachineValuation w a b T value) (hx : IsHolding x)
    (hfits : ProductsFit w a b T x) : value x = .ok k ↔
      w.Holds (spotValue a b T x) ∧ asI128 (spotValue a b T x) = k := by
  have hmachine := (machineValue_eq_iff h.stocked hx.1).mpr hfits.partsFit
  rw [h.eq_ok x k hx, hmachine]

theorem value_of_part (h : MachineValuation w a b T value) (hheld : IsHolding held)
    (hfits : ProductsFit w a b T held) (hk : value held = .ok k) (hpos : 0 < k) (hx : 0 ≤ x)
    (hle : x ≤ held) :
    value x = .ok (spotValue a b T x) ∧ k = spotValue a b T held := by
  obtain ⟨hsum, rfl⟩ := (value_of_fits h hheld hfits).mp hk
  have hholds : i128.Holds (spotValue a b T held) :=
    (asI128_nonneg_iff (h.unsigned _ (h.spotValue_nonneg hheld.1) hsum)).mp hpos.le
  have hpart : i128.Holds (spotValue a b T x) :=
    i128_holds_of_le (h.spotValue_nonneg hx) (h.spotValue_mono hle) hholds
  refine ⟨?_, asI128_of_holds hholds⟩
  rw [value_of_fits h (hheld.part hx hle) (hfits.mono h.stocked hx hle)]
  exact ⟨h.stocked.zero.of_le hsum (h.spotValue_nonneg hx) (h.spotValue_mono hle),
    asI128_of_holds hpart⟩

theorem burns_fairly {burn : Address → ℤ → Outcome ℤ} (h : MachineValuation w a b T value)
    (hburn : ∀ vault amount s, burn vault amount = .ok s →
      decidedBurn (position vault) amount (value (position vault)) = .ok s) :
    BurnsFairly value (ProductsFit w a b T) (a / b) position burn := by
  intro vault amount V s hheld hfits hV hpos hamount hlt hs
  have hpart := fun x => value_of_part (x := x) h hheld hfits hV hpos
  obtain rfl := (hpart _ hheld.1 le_rfl).2
  exact FairBurn.of_exact h.stocked.first_pos h.stocked.second_pos h.stocked.supply_pos hheld.1
    (fun x hx hle => (hpart x hx hle).1) hamount hlt (hburn vault amount s hs)

/-- Only the signed reading can make two holdings worth more than both together. -/
theorem no_gain_by_splitting_iff (h : MachineValuation w a b T value) (hx : 0 ≤ x) (hy : 0 ≤ y)
    (hsum : IsHolding (x + y)) (hfits : ProductsFit w a b T (x + y)) :
    NoGainBySplitting value x y ↔ ¬SumTurnsNegative w a b T x y := by
  have hlex : x ≤ x + y := by omega
  have hley : y ≤ x + y := by omega
  have hadd : spotValue a b T x + spotValue a b T y ≤ spotValue a b T (x + y) :=
    spotValue_add_le h.stocked.first_pos.le h.stocked.second_pos h.stocked.supply_pos
  have hvalue := fun k => value_of_fits (k := k) h hsum hfits
  have hvaluex := fun k => value_of_fits (k := k) h (hsum.part hx hlex)
    (hfits.mono h.stocked hx hlex)
  have hvaluey := fun k => value_of_fits (k := k) h (hsum.part hy hley)
    (hfits.mono h.stocked hy hley)
  have hparts : w.Holds (spotValue a b T (x + y)) →
      w.Holds (spotValue a b T x) ∧ w.Holds (spotValue a b T y) := by
    intro hz
    exact ⟨h.stocked.zero.of_le hz (h.spotValue_nonneg hx) (h.spotValue_mono hlex),
      h.stocked.zero.of_le hz (h.spotValue_nonneg hy) (h.spotValue_mono hley)⟩
  have hsigned : w.Holds (spotValue a b T (x + y)) →
      (asI128 (spotValue a b T x) + asI128 (spotValue a b T y) ≤
          asI128 (spotValue a b T (x + y)) ↔
        i128.Holds (spotValue a b T (x + y)) ∨ ¬i128.Holds (spotValue a b T x) ∨
          ¬i128.Holds (spotValue a b T y)) := by
    intro hz
    exact asI128_add_le_iff (h.unsigned _ (h.spotValue_nonneg hx) (hparts hz).1)
      (h.unsigned _ (h.spotValue_nonneg hy) (hparts hz).2)
      (h.unsigned _ (h.spotValue_nonneg hsum.1) hz) hadd
  constructor
  · rintro hgain ⟨hz, hnot, hxholds, hyholds⟩
    obtain ⟨hxw, hyw⟩ := hparts hz
    have hle := hgain _ _ _ ((hvaluex _).mpr ⟨hxw, rfl⟩) ((hvaluey _).mpr ⟨hyw, rfl⟩)
      ((hvalue _).mpr ⟨hz, rfl⟩)
    rcases (hsigned hz).mp hle with hholds | hholds | hholds
    · exact hnot hholds
    · exact hholds hxholds
    · exact hholds hyholds
  · intro hturns kx ky k hkx hky hk
    obtain ⟨hz, rfl⟩ := (hvalue k).mp hk
    obtain ⟨_, rfl⟩ := (hvaluex kx).mp hkx
    obtain ⟨_, rfl⟩ := (hvaluey ky).mp hky
    apply (hsigned hz).mpr
    by_contra hnot
    simp only [not_or, not_not] at hnot
    exact hturns ⟨hz, hnot⟩

theorem reports_at_most {balance : Address → Outcome ℤ} (h : MachineValuation w a b T value)
    (hbalance : ∀ v, balance v = value (position v)) :
    ReportsAtMost balance position T (2 * a) := by
  intro vaults k hreports hsupply
  calc ∑ v ∈ vaults, k v
      ≤ ∑ v ∈ vaults, spotValue a b T (position v) := by
        apply Finset.sum_le_sum
        intro v hv
        exact h.le_spotValue (hreports v hv).1 (hbalance v ▸ (hreports v hv).2)
    _ ≤ 2 * a := spotValue_sum_le_twice h.stocked.first_pos.le h.stocked.second_pos
        h.stocked.supply_pos position vaults hsupply

theorem Fair.of_valuation {burn : Address → ℤ → Outcome ℤ} {balance : Address → Outcome ℤ}
    {gainless : ℤ → ℤ → Prop} (h : MachineValuation w a b T value)
    (hburn : ∀ vault amount s, burn vault amount = .ok s →
      decidedBurn (position vault) amount (value (position vault)) = .ok s)
    (hbalance : ∀ v, balance v = value (position v))
    (hgainless : ∀ x y, ¬SumTurnsNegative w a b T x y ↔ gainless x y) :
    Fair value (ProductsFit w a b T) (a / b) position burn balance T (2 * a) gainless where
  burns := burns_fairly h hburn
  splitting x y hx hy hsum hfits :=
    (no_gain_by_splitting_iff h hx hy hsum hfits).trans (hgainless x y)
  reports := reports_at_most h hbalance

end Values

namespace Soroswap
open SoroswapPool SoroswapContract PositionValuation.Soroswap

abbrev Fair (w : World) (config : StrategyConfig) (gainless : ℤ → ℤ → Prop) : Prop :=
  BurnFairness.Fair (fun lp => lpValueInA w lp config)
    (ProductsFit i128 (reserveA w config) (reserveB w config) w.pair.totalSupply)
    (reserveA w config / reserveB w config) (getLpTokens w.storage) (lpToBurn w config)
    (balance w) w.pair.totalSupply (2 * reserveA w config) gainless

theorem fair {w : World} {config : StrategyConfig} (hconfig : w.storage.config = some config)
    (h : InRange w config) : Fair w config fun _ _ => True := by
  apply Fair.of_valuation (machineValuation h)
  · intro vault amount s hs
    simp only [lpToBurn, bind_eq_ok] at hs
    obtain ⟨_, _, hdecided⟩ := hs
    exact hdecided
  · intro vault
    simp only [balance, loadConfig, hconfig, orFault, ok_bind]
  · intro x y
    simp only [iff_true]
    rintro ⟨hholds, hnot, _⟩
    exact hnot hholds

end Soroswap

namespace Aquarius
open AquariusPool AquariusContract PositionValuation.Aquarius

abbrev Fair (w : World) (config : StrategyConfig) (gainless : ℤ → ℤ → Prop) : Prop :=
  BurnFairness.Fair (fun shares => sharesValueInDeposit w shares config)
    (ProductsFit u128 (reserveDeposit w config) (reservePair w config) w.pool.totalShares)
    (reserveDeposit w config / reservePair w config) (getShares w.storage)
    (sharesToBurn w config) (balance w) w.pool.totalShares (2 * reserveDeposit w config) gainless

/-- The signed reading of the sum of two holdings is negative, of each of them it is not. -/
abbrev SumTurnsNegative (w : World) (config : StrategyConfig) (x y : ℤ) : Prop :=
  BurnFairness.SumTurnsNegative u128 (reserveDeposit w config) (reservePair w config)
    w.pool.totalShares x y

theorem fair {w : World} {config : StrategyConfig} (hconfig : w.storage.config = some config)
    (h : InRange w config) : Fair w config fun x y => ¬SumTurnsNegative w config x y := by
  apply Fair.of_valuation (machineValuation h)
  · intro vault amount s hs
    simp only [sharesToBurn, bind_eq_ok] at hs
    obtain ⟨_, _, hdecided⟩ := hs
    exact hdecided
  · intro vault
    simp only [balance, loadConfig, hconfig, orFault, ok_bind]
  · exact fun _ _ => Iff.rfl

end Aquarius

/-- In both strategies `withdraw` burns fairly and reports are covered; splitting
gains nothing in Soroswap, and in Aquarius unless only the sum reads as negative. -/
theorem proportional_burn_fair (soroswap : SoroswapPool.World)
    (soroswapConfig : SoroswapPool.StrategyConfig) (aquarius : AquariusPool.World)
    (aquariusConfig : AquariusPool.StrategyConfig)
    (hs : soroswap.storage.config = some soroswapConfig)
    (hsrange : PositionValuation.Soroswap.InRange soroswap soroswapConfig)
    (ha : aquarius.storage.config = some aquariusConfig)
    (harange : PositionValuation.Aquarius.InRange aquarius aquariusConfig) :
    ((∀ env amount vault dest, SoroswapContract.withdraw env soroswap amount vault dest =
        PositionValuation.Soroswap.lpToBurn soroswap soroswapConfig vault amount >>=
          PositionValuation.Soroswap.burnAndPay env soroswap soroswapConfig vault dest) ∧
      Soroswap.Fair soroswap soroswapConfig fun _ _ => True) ∧
    ((∀ env amount vault dest, AquariusContract.withdraw env aquarius amount vault dest =
        PositionValuation.Aquarius.sharesToBurn aquarius aquariusConfig vault amount >>=
          PositionValuation.Aquarius.burnAndPay env aquarius aquariusConfig vault dest) ∧
      Aquarius.Fair aquarius aquariusConfig fun x y =>
        ¬Aquarius.SumTurnsNegative aquarius aquariusConfig x y) := by
  refine ⟨⟨?_, Soroswap.fair hs hsrange⟩, ⟨?_, Aquarius.fair ha harange⟩⟩
  · intro env amount vault dest
    exact PositionValuation.Soroswap.withdraw_eq env amount dest hs
  · intro env amount vault dest
    exact PositionValuation.Aquarius.withdraw_eq env amount dest ha

/-- In the pools of 100 tokens of each kind the vault's LP token is worth two. -/
theorem proportional_burn_fair_sample :
    FairBurn (fun lp => SoroswapPool.lpValueInA (Soroswap.sampleWorld 100) lp
      StrategyPositions.Soroswap.sampleConfig) 1 eighteen eighteen (2 * eighteen)
      (eighteen / 2) ∧
    FairBurn (fun shares => AquariusPool.sharesValueInDeposit (Aquarius.sampleWorld 100) shares
      StrategyPositions.Aquarius.sampleConfig) 1 eighteen eighteen (2 * eighteen)
      (eighteen / 2) := by
  have hfairness := proportional_burn_fair (Soroswap.sampleWorld 100) _
    (Aquarius.sampleWorld 100) _ rfl Soroswap.sampleWorld_inRange.1 rfl
    Aquarius.sampleWorld_inRange.1
  constructor
  · have hfair := hfairness.1.2.burns
      sampleVault eighteen (2 * eighteen) (eighteen / 2) (by decide +kernel) (by decide +kernel)
      (by decide +kernel) (by decide) (by decide) (by decide) (by decide +kernel)
    have hreserve : (PositionValuation.Soroswap.reserveB (Soroswap.sampleWorld 100)
        StrategyPositions.Soroswap.sampleConfig : ℚ) ≠ 0 :=
      Int.cast_ne_zero.mpr Soroswap.sampleWorld_inRange.1.reserveB_pos.ne'
    exact div_self hreserve ▸ hfair
  · have hfair := hfairness.2.2.burns
      sampleVault eighteen (2 * eighteen) (eighteen / 2) (by decide +kernel) (by decide +kernel)
      (by decide +kernel) (by decide) (by decide) (by decide) (by decide +kernel)
    have hreserve : (PositionValuation.Aquarius.reservePair (Aquarius.sampleWorld 100)
        StrategyPositions.Aquarius.sampleConfig : ℚ) ≠ 0 :=
      Int.cast_ne_zero.mpr Aquarius.sampleWorld_inRange.1.reservePair_pos.ne'
    exact div_self hreserve ▸ hfair

/-- Burns are fair, reports covered and splitting gains nothing. -/
def BurnsAreFair : Prop :=
  (∀ (w : SoroswapPool.World) config, w.storage.config = some config →
    PositionValuation.Soroswap.InRange w config → Soroswap.Fair w config fun _ _ => True) ∧
  (∀ (w : AquariusPool.World) config, w.storage.config = some config →
    PositionValuation.Aquarius.InRange w config → Aquarius.Fair w config fun _ _ => True)

/-- A pool of two shares with 2 ^ 126 deposit tokens and one pair token. -/
def Aquarius.largeWorld : AquariusPool.World :=
  { StrategyPositions.Aquarius.sampleWorld with
    pool := { StrategyPositions.Aquarius.sampleWorld.pool with
      reserves := [2 ^ 126, 1]
      totalShares := 2 } }

/-- Apart its shares are worth 2 ^ 125 each, together they read as negative. -/
theorem shares_negative_together : ¬BurnsAreFair := by
  rintro ⟨_, haquarius⟩
  have hrange : PositionValuation.Aquarius.InRange Aquarius.largeWorld
      StrategyPositions.Aquarius.sampleConfig := by
    constructor <;> decide +kernel
  have hgain := ((haquarius Aquarius.largeWorld _ rfl hrange).splitting 1 1 (by decide)
    (by decide) (by decide) (by decide +kernel)).mpr trivial
  have hone : AquariusPool.sharesValueInDeposit Aquarius.largeWorld 1
      StrategyPositions.Aquarius.sampleConfig = .ok (2 ^ 125) := by decide +kernel
  have htwo : AquariusPool.sharesValueInDeposit Aquarius.largeWorld (1 + 1)
      StrategyPositions.Aquarius.sampleConfig = .ok (-2 ^ 127) := by decide +kernel
  exact absurd (hgain _ _ _ hone hone htwo) (by decide)

end NekoStrategies.BurnFairness
