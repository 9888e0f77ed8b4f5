import NekoStrategies.BigEndian
import NekoStrategies.BlendFlows

/-!
# The minimum that the keeper asks for

A harvest takes the least amount the rewards may sell for as bytes: none for
zero, or sixteen big-endian ones in two's complement. The reading accepts
exactly the encodings of 128-bit integers, and a router that keeps to the
minimum makes the pool gain it.
-/
namespace NekoStrategies.BlendMinimum
open CheckedInteger SorobanHost BlendReserves BlendContract BlendBooks BlendFlows BigEndian

/-- The encoding of a minimum. -/
def encodeMinimum (x : ℤ) : List UInt8 := digits 16 x

section Codec
variable {bytes : List UInt8} {data : Option (List UInt8)} {x : ℤ}

theorem fromBeBytes_eq_ok : fromBeBytes bytes = .ok x ↔
    i128.Holds x ∧ bytes = encodeMinimum x := by
  have hpow : (256 : ℤ) ^ 16 = 2 ^ 128 := by norm_num
  simp only [fromBeBytes, bind_eq_ok, ensure_eq_ok, pure_eq_ok, exists_const]
  change bytes.length = 16 ∧ asI128 (value bytes) = x ↔ _
  constructor
  · rintro ⟨hlength, rfl⟩
    refine ⟨asI128_holds _, ?_⟩
    have hvalue : u128.Holds (value bytes) := by
      obtain ⟨hlow, hhigh⟩ := value_bounds bytes
      rw [hlength, hpow] at hhigh
      exact ⟨hlow, Int.le_sub_one_of_lt hhigh⟩
    have hback : asI128 (value bytes) % 256 ^ 16 = value bytes := by
      rw [hpow]
      exact asU128_asI128 hvalue
    rw [encodeMinimum, ← digits_emod, hback, ← hlength, digits_value]
  · rintro ⟨hx, hbytes⟩
    rw [hbytes]
    refine ⟨length_digits, ?_⟩
    rw [encodeMinimum, value_digits, hpow]
    exact asI128_asU128 hx

/-- The reading of the keeper's data: nothing is zero, and any other data is
accepted exactly if it is the encoding of the 128-bit integer that is read. -/
theorem minimum_read_iff (data : Option (List UInt8)) (x : ℤ) :
    amountOutMin data = .ok x ↔
      (x = 0 ∧ (data = none ∨ data = some [])) ∨
        (i128.Holds x ∧ data = some (encodeMinimum x)) := by
  have hlength : (encodeMinimum x).length = 16 := length_digits
  match data with
  | none =>
      simp only [amountOutMin, pure_eq_ok, and_true, reduceCtorEq, and_false, or_false]
      exact eq_comm
  | some [] =>
      have hne : [] ≠ encodeMinimum x := fun h => by simp [← h] at hlength
      simp only [amountOutMin, pure_eq_ok, or_true, and_true, Option.some.injEq, hne, and_false,
        or_false]
      exact eq_comm
  | some (b :: bytes) =>
      simp only [amountOutMin, fromBeBytes_eq_ok, Option.some.injEq, reduceCtorEq, or_self,
        and_false, false_or]

end Codec

/-- `swap_exact_tokens_for_tokens` pays at least `amount_out_min` or fails. -/
def KeepsMinimum (env : Env) : Prop :=
  ∀ x m amounts out, env.swap x m = some amounts → amounts[1]? = some out → m ≤ out

section Sales
variable {env : Env} {w w' : World} {config : Config} {sender : Address} {minOut : ℤ}
  {r : StrategyReserves}

theorem performReinvest_minimum (hrouter : KeepsMinimum env) (hself : config.pool ≠ w.self)
    (hpair : env.pairFor ≠ some config.pool)
    (h : performReinvest env w config minOut = .ok (r, w')) :
    w.tokens config.blendToken w.self < config.rewardThreshold ∧ w'.tokens = w.tokens ∨
      config.rewardThreshold ≤ w.tokens config.blendToken w.self ∧
        w.tokens config.asset config.pool + minOut ≤ w'.tokens config.asset config.pool := by
  obtain ⟨_, _, hlow | ⟨hhigh, dex, amounts, sold, out, hdex, hswap, hout, _, _, hsold, hpaid⟩⟩ :=
    performReinvest_flow h
  · exact .inl hlow
  · have hle := hrouter _ _ _ _ hswap hout
    have hne : config.pool ≠ dex := by
      rintro rfl
      exact hpair hdex
    refine .inr ⟨hhigh, ?_⟩
    rw [hpaid, hsold]
    simp only [hne, hself, and_false, true_and, if_true, if_false]
    omega

/-- In every state: a harvest that commits was given nothing or the encoding of one
minimum, and either its rewards stayed below the threshold and the pool's
underlying is as it was, or the pool gained at least that minimum. -/
theorem minimum_enforced (env : Env) (w w' : World) (config : Config) (sender : Address)
    (data : Option (List UInt8)) (hconfig : w.storage.config = some config)
    (hrouter : KeepsMinimum env) (hself : config.pool ≠ w.self)
    (hpair : env.pairFor ≠ some config.pool)
    (h : BlendContract.harvest env w sender data = .ok w') :
    ∃ m claimed, ((m = 0 ∧ (data = none ∨ data = some [])) ∨
        (i128.Holds m ∧ data = some (encodeMinimum m))) ∧ env.claim = some claimed ∧
      ((w.tokens config.blendToken w.self + claimed < config.rewardThreshold ∧
          w'.tokens config.asset config.pool = w.tokens config.asset config.pool) ∨
        (config.rewardThreshold ≤ w.tokens config.blendToken w.self + claimed ∧
          w.tokens config.asset config.pool + m ≤ w'.tokens config.asset config.pool)) := by
  obtain ⟨claimed, m, r, u, price, hclaim, hmin, hreinvest, rfl⟩ := harvest_reinvests hconfig h
  refine ⟨m, claimed, (minimum_read_iff data m).mp hmin, hclaim, ?_⟩
  have hsale := performReinvest_minimum hrouter (by exact hself) hpair hreinvest
  have hpool : (w.tokens.add config.blendToken w.self claimed) config.asset config.pool =
      w.tokens config.asset config.pool := by
    simp [Ledger.add_apply, hself]
  have hrewards : (w.tokens.add config.blendToken w.self claimed) config.blendToken w.self =
      w.tokens config.blendToken w.self + claimed := by
    simp [Ledger.add_apply]
  simp only [hrewards, hpool] at hsale
  rcases hsale with ⟨hlow, hkept⟩ | hsold
  · refine .inl ⟨hlow, ?_⟩
    rw [← hpool, ← hkept]
    rfl
  · exact .inr hsold

/-- A harvest of 40 rewards at a price of 2, from a router that keeps minimums. -/
def sampleSale : Env :=
  { sampleEnv sampleKeeper with
    claim := some 40
    pairFor := some (.contract 9)
    swap := fun x m => if m ≤ 2 * x then some [x, 2 * x] else none }

theorem sampleSale_keepsMinimum : KeepsMinimum sampleSale := by
  intro x m amounts out hswap hout
  by_cases hle : m ≤ 2 * x
  · have hpaid : some [x, 2 * x] = some amounts := by
      rw [← hswap]
      exact (if_pos hle).symm
    obtain rfl := Option.some.inj hpaid
    obtain rfl := Option.some.inj hout
    exact hle
  · have hnone : sampleSale.swap x m = none := if_neg hle
    rw [hnone] at hswap
    cases hswap

theorem minimum_enforced_sample :
    ∃ w', BlendContract.harvest sampleSale (run sampleWorld sampleActions) sampleKeeper
        (some (encodeMinimum 80)) = .ok w' ∧
      ∃ m claimed, ((m = 0 ∧ (some (encodeMinimum 80) = none ∨
            some (encodeMinimum 80) = some [])) ∨
          (i128.Holds m ∧ some (encodeMinimum 80) = some (encodeMinimum m))) ∧
        sampleSale.claim = some claimed ∧
        (((run sampleWorld sampleActions).tokens (.contract 3) (.contract 0) + claimed < 1 ∧
            w'.tokens sampleAsset samplePool =
              (run sampleWorld sampleActions).tokens sampleAsset samplePool) ∨
          (1 ≤ (run sampleWorld sampleActions).tokens (.contract 3) (.contract 0) + claimed ∧
            (run sampleWorld sampleActions).tokens sampleAsset samplePool + m ≤
              w'.tokens sampleAsset samplePool)) := by
  obtain ⟨w', h⟩ : ∃ w', BlendContract.harvest sampleSale (run sampleWorld sampleActions)
      sampleKeeper (some (encodeMinimum 80)) = .ok w' := ⟨_, rfl⟩
  exact ⟨w', h, minimum_enforced sampleSale (run sampleWorld sampleActions) w' sampleConfig
    sampleKeeper (some (encodeMinimum 80)) rfl sampleSale_keepsMinimum (by decide) (by decide) h⟩

end Sales

end NekoStrategies.BlendMinimum
